import SqlDb.Catalog.Cache
import SqlDb.Catalog.TableText

/-!
# Spaces that are given out

A table takes as many spaces as it needs, from the counter on. As long as the counter
does not wrap, the spaces of all tables are different, and none is the catalog's own.
`Coherent n m` says so of the bindings `m`, `n` spaces having been given out so far.
-/

namespace SqlDb

open Outcome OrdMap

/-- The spaces of a table: one for the rows, then one for each index. -/
def TableDef.spaces (tdef : TableDef) : List Nat := tdef.keyPrefix :: tdef.indexPrefixes

/-- A definition that can be stored and read back. -/
structure TableDef.Storable (tdef : TableDef) : Prop where
  checked : tdef.Checked
  fits : tdef.Fits
  tidy : tdef.Tidy
  parallel : tdef.indexPrefixes.length = tdef.indexes.length

/-- The table's definition is stored as it is. -/
def TableDef.StoredIn (tdef : TableDef) (m : Contents) : Prop :=
  tableText m tdef.name = some (encodeTableDef tdef)

theorem TableDef.Storable.definition {tdef : TableDef} (h : tdef.Storable) {m : Contents}
    (hm : tdef.StoredIn m) : definition m tdef.name = some tdef := by
  rw [SqlDb.definition, hm]
  exact decodeTableDef_encode h.checked h.fits h.tidy

/-- The catalog in the bindings `m`. -/
structure Coherent (n : Nat) (m : Contents) : Prop where
  texts : ∀ name text, tableText m name = some text →
    ∃ tdef : TableDef, tdef.Storable ∧ tdef.name = name ∧ text = encodeTableDef tdef
  nodup : ∀ name tdef, definition m name = some tdef → tdef.spaces.Nodup
  range : ∀ name tdef, definition m name = some tdef →
    ∀ p ∈ tdef.spaces, tablePrefixMin ≤ p ∧ p < nextPrefix m
  apart : ∀ name name' tdef tdef', definition m name = some tdef → definition m name' = some tdef' →
    name ≠ name' → ∀ p ∈ tdef.spaces, p ∉ tdef'.spaces
  first : tablePrefixMin ≤ nextPrefix m
  next : nextPrefix m ≤ tablePrefixMin + n

section Coherent

variable {n n' : Nat} {m m' : Contents}

theorem Coherent.mono (h : Coherent n m) (hn : n ≤ n') : Coherent n' m :=
  ⟨h.texts, h.nodup, h.range, h.apart, h.first, h.next.trans (Nat.add_le_add_left hn _)⟩

theorem coherent_empty : Coherent 0 [] :=
  ⟨(fun _ _ h => nomatch h), (fun _ _ h => nomatch h), (fun _ _ h => nomatch h),
    (fun _ _ _ _ h => nomatch h), le_refl _, le_refl _⟩

/-- Only the catalog's own bindings matter. -/
theorem Coherent.congr (h : Coherent n m) (htexts : ∀ name, tableText m' name = tableText m name)
    (hnext : nextPrefix m' = nextPrefix m) : Coherent n m' := by
  have hdef : ∀ name, definition m' name = definition m name := fun name => by
    rw [definition, definition, htexts]
  refine ⟨fun name text ht => ?_, fun name tdef hd => ?_, fun name tdef hd p hp => ?_,
    fun name name' tdef tdef' hd hd' => ?_, ?_, ?_⟩
  · rw [htexts] at ht
    exact h.texts name text ht
  · rw [hdef] at hd
    exact h.nodup name tdef hd
  · rw [hdef] at hd
    rw [hnext]
    exact h.range name tdef hd p hp
  · rw [hdef] at hd hd'
    exact h.apart name name' tdef tdef' hd hd'
  · rw [hnext]
    exact h.first
  · rw [hnext]
    exact h.next

/-- A definition that can be read is the one that was stored. -/
theorem Coherent.holds (h : Coherent n m) {name : Bytes} {tdef : TableDef}
    (hd : definition m name = some tdef) : tdef.Storable ∧ tdef.name = name ∧ tdef.StoredIn m := by
  rw [definition, Option.bind_eq_some_iff] at hd
  obtain ⟨text, ht, hdec⟩ := hd
  obtain ⟨tdef', hs, rfl, rfl⟩ := h.texts name text ht
  rw [decodeTableDef_encode hs.checked hs.fits hs.tidy, Option.some.injEq] at hdec
  exact hdec ▸ ⟨hs, rfl, ht⟩

end Coherent

/-! ## A new table -/

section New

variable {n : Nat} {m : Contents} {tdef : TableDef}

theorem TableDef.Checked.numbered (h : tdef.Checked) (first : Nat) : (tdef.numbered first).Checked :=
  ⟨h.name, h.types, h.pkeys, h.width, fun index hindex =>
    have hi := h.index index hindex
    ⟨hi.ne, hi.nodup, hi.known, hi.key, hi.partial'⟩⟩

theorem nextPrefix_lt (m : Contents) : nextPrefix m < 2 ^ 32 := by
  unfold nextPrefix readPrefix
  cases lookup m counterKey with
  | none => decide
  | some s =>
      dsimp only
      split
      · rename_i hlen
        have h := (Bytes.toNatBe_acc 0 s).2
        rwa [hlen] at h
      · decide

theorem u32_lt (k : Nat) : u32 k < 2 ^ 32 := Nat.mod_lt _ (Nat.two_pow_pos 32)

theorem u32_of_lt {k : Nat} (h : k < 2 ^ 32) : u32 k = k := Nat.mod_eq_of_lt h

theorem TableDef.length_created (tdef : TableDef) (m : Contents) :
    (tdef.created m).indexPrefixes.length = tdef.indexes.length := by
  rw [created, numbered, List.length_map, List.length_range]

theorem sorted_counted (hm : Sorted m) (w : Nat) : Sorted (counted m w) := hm.insert _ _

/-- What is stored fits, whatever its names. -/
theorem TableDef.Checked.created_fits (h : tdef.Checked)
    (hval : ValidVal (encodeTableDef (tdef.created m))) : (tdef.created m).Fits := by
  have hlen : (encodeTableDef (tdef.created m)).length < 2 ^ 31 := lt_of_le_of_lt hval (by decide)
  refine (h.numbered _).fits hlen (tdef.length_created m) fun p hp => ?_
  rcases List.mem_cons.mp hp with rfl | hp
  · exact nextPrefix_lt m
  · obtain ⟨i, _, rfl⟩ := List.mem_map.mp hp
    exact u32_lt _

/-- **A definition is read back in its transaction** exactly when its names are tidy. -/
theorem definition_created_iff (hm : Sorted m) (h : tdef.Checked)
    (hval : ValidVal (encodeTableDef (tdef.created m))) (w : Nat) :
    definition (stored (counted m w) (tdef.created m)) tdef.name = some (tdef.created m) ↔
      tdef.Tidy := by
  have htext : tableText (stored (counted m w) (tdef.created m)) tdef.name =
      some (encodeTableDef (tdef.created m)) := by
    rw [tableText_stored (sorted_counted hm w)]
    exact if_pos rfl
  rw [definition, htext]
  exact reads_back_iff (h.numbered _) (h.created_fits hval)

/-- The new table's spaces, from the counter on. -/
theorem TableDef.mem_created (hw : nextPrefix m + (1 + tdef.indexes.length) < 2 ^ 32) {p : Nat} :
    p ∈ (tdef.created m).spaces ↔
      nextPrefix m ≤ p ∧ p < nextPrefix m + (1 + tdef.indexes.length) := by
  have hmap : (tdef.created m).spaces = nextPrefix m ::
      (List.range tdef.indexes.length).map fun i => nextPrefix m + 1 + i := by
    rw [spaces, created, numbered, List.cons.injEq]
    refine ⟨rfl, List.map_congr_left fun i hi => u32_of_lt ?_⟩
    have := List.mem_range.mp hi
    omega
  rw [hmap, List.mem_cons, List.mem_map]
  constructor
  · intro h
    rcases h with rfl | ⟨i, hi, rfl⟩
    · omega
    · have := List.mem_range.mp hi
      omega
  · intro h
    by_cases hp : p = nextPrefix m
    · exact Or.inl hp
    · exact Or.inr ⟨p - (nextPrefix m + 1), List.mem_range.mpr (by omega), by omega⟩

theorem TableDef.nodup_created (hw : nextPrefix m + (1 + tdef.indexes.length) < 2 ^ 32) :
    (tdef.created m).spaces.Nodup := by
  rw [spaces, created, numbered, List.nodup_cons]
  have hwrap : ∀ i ∈ List.range tdef.indexes.length,
      u32 (nextPrefix m + 1 + i) = nextPrefix m + 1 + i := fun i hi => u32_of_lt (by
    have := List.mem_range.mp hi
    omega)
  refine ⟨fun hmem => ?_, ?_⟩
  · obtain ⟨i, hi, he⟩ := List.mem_map.mp hmem
    rw [hwrap i hi] at he
    dsimp only at he
    omega
  · refine List.Nodup.map_on ?_ List.nodup_range
    intro i hi j hj he
    rw [hwrap i hi, hwrap j hj] at he
    omega

/-- The counter moves on. -/
theorem Coherent.count (h : Coherent n m) (hm : Sorted m) {w : Nat} (hn : n + w < 2 ^ 32 - 3) :
    Coherent (n + w) (counted m w) ∧ nextPrefix (counted m w) = nextPrefix m + w := by
  have hnext := h.next
  have hfirst := h.first
  have hmoved : nextPrefix (counted m w) = nextPrefix m + w := by
    rw [nextPrefix_counted hm, u32_of_lt]
    unfold tablePrefixMin at hnext
    omega
  have hdef : ∀ name, definition (counted m w) name = definition m name := fun name => by
    rw [definition, definition, tableText_counted hm]
  refine ⟨⟨fun name text ht => ?_, fun name tdef hd => ?_, fun name tdef hd p hp => ?_,
    fun name name' tdef tdef' hd hd' => ?_, ?_, ?_⟩, hmoved⟩
  · rw [tableText_counted hm] at ht
    exact h.texts name text ht
  · rw [hdef] at hd
    exact h.nodup name tdef hd
  · rw [hdef] at hd
    rw [hmoved]
    have := h.range name tdef hd p hp
    omega
  · rw [hdef] at hd hd'
    exact h.apart name name' tdef tdef' hd hd'
  · rw [hmoved]
    omega
  · rw [hmoved]
    omega

/-- **A new table's spaces are its own.** -/
theorem Coherent.store (h : Coherent n m) (hm : Sorted m) (hchecked : tdef.Checked)
    (htidy : tdef.Tidy) (hval : ValidVal (encodeTableDef (tdef.created m)))
    (hn : n + (1 + tdef.indexes.length) < 2 ^ 32 - 3) :
    Coherent (n + (1 + tdef.indexes.length))
      (stored (counted m (1 + tdef.indexes.length)) (tdef.created m)) := by
  have hnext := h.next
  have hfirst := h.first
  have hw : nextPrefix m + (1 + tdef.indexes.length) < 2 ^ 32 := by
    unfold tablePrefixMin at hnext
    omega
  obtain ⟨hcounted, hmoved⟩ := h.count hm hn
  have hm' : Sorted (counted m (1 + tdef.indexes.length)) := sorted_counted hm _
  have hstorable : (tdef.created m).Storable :=
    ⟨hchecked.numbered _, hchecked.created_fits hval, htidy, tdef.length_created m⟩
  have hnext' := nextPrefix_stored hm' (tdef.created m)
  rw [hmoved] at hnext'
  have htexts : ∀ name, tableText (stored (counted m (1 + tdef.indexes.length)) (tdef.created m)) name =
      if name = tdef.name then some (encodeTableDef (tdef.created m))
      else tableText (counted m (1 + tdef.indexes.length)) name :=
        tableText_stored hm' (tdef.created m)
  -- a definition is the new one, or was there before
  have hdef : ∀ name d, definition
      (stored (counted m (1 + tdef.indexes.length)) (tdef.created m)) name = some d →
      (name = tdef.name ∧ d = tdef.created m) ∨ (name ≠ tdef.name ∧ definition m name = some d) := by
    intro name d hd
    rw [definition, htexts] at hd
    by_cases he : name = tdef.name
    · rw [if_pos he] at hd
      have hread := decodeTableDef_encode hstorable.checked hstorable.fits hstorable.tidy
      rw [Option.bind_some, hread, Option.some.injEq] at hd
      exact Or.inl ⟨he, hd.symm⟩
    · rw [if_neg he, tableText_counted hm] at hd
      exact Or.inr ⟨he, hd⟩
  refine ⟨fun name text ht => ?_, fun name d hd => ?_, fun name d hd p hp => ?_,
    fun name name' d d' hd hd' hne p hp hp' => ?_, ?_, ?_⟩
  · rw [htexts] at ht
    by_cases he : name = tdef.name
    · rw [if_pos he, Option.some.injEq] at ht
      exact ⟨_, hstorable, he.symm, ht.symm⟩
    · rw [if_neg he] at ht
      exact hcounted.texts name text ht
  · rcases hdef name d hd with ⟨_, rfl⟩ | ⟨_, hd⟩
    · exact TableDef.nodup_created hw
    · exact h.nodup name d hd
  · rw [hnext']
    rcases hdef name d hd with ⟨_, rfl⟩ | ⟨_, hd⟩
    · have := (TableDef.mem_created hw).mp hp
      omega
    · have := h.range name d hd p hp
      omega
  · rcases hdef name d hd with ⟨he, rfl⟩ | ⟨_, hd⟩
    · rcases hdef name' d' hd' with ⟨he', _⟩ | ⟨_, hd'⟩
      · exact hne (he.trans he'.symm)
      · have h1 := (TableDef.mem_created hw).mp hp
        have h2 := h.range name' d' hd' p hp'
        omega
    · rcases hdef name' d' hd' with ⟨_, rfl⟩ | ⟨_, hd'⟩
      · have h1 := (TableDef.mem_created hw).mp hp'
        have h2 := h.range name d hd p hp
        omega
      · exact h.apart name name' d d' hd hd' hne p hp hp'
  · rw [hnext']
    omega
  · rw [hnext']
    omega

end New

end SqlDb
