import SqlDb.Access.TableAccess
import SqlDb.Storage.Frame

/-!
# Writes on a table are writes on its map

A write changes one row. The bindings that change are that row's, under the primary key
and in every index, as it was before and as it is after; keys of different rows are
different, and so are keys of different trees. What is outside the table's spaces stays.
-/

namespace SqlDb

open Outcome OrdMap

/-! ## A row's bindings -/

/-- The row binds the key to the value, in one of the table's trees. -/
def TableDef.Binds (tdef : TableDef) (row : List Value) (key val : Bytes) : Prop :=
  key = keyOf tdef.keyPrefix (tdef.pick row tdef.keyCols) ∧ val = encoded (row.drop tdef.npkeys) ∨
    key ∈ tdef.indexKeys row ∧ val = []

/-- A row of the table's types. -/
structure TableDef.Typed (tdef : TableDef) (row : List Value) : Prop where
  plain : Plain tdef.types
  types : row.map Value.type = tdef.types

theorem Rows.Fit.typed {rows : Rows} {tdef : TableDef} (h : rows.Fit tdef) {pk row : List Value}
    (hrow : rows pk = some row) : tdef.Typed row := ⟨h.plain hrow, h.types hrow⟩

/-- The key is in one of the table's spaces. -/
def TableDef.Owns (tdef : TableDef) (key : Bytes) : Prop :=
  ∃ p ∈ tdef.keyPrefix :: tdef.indexPrefixes, InSpace p key

/-- Nothing outside the table's spaces changes. -/
def TableDef.Untouched (tdef : TableDef) (m m' : Contents) : Prop :=
  ∀ key, ¬ tdef.Owns key → lookup m' key = lookup m key

section Bindings

variable {tdef : TableDef} {row row' : List Value} {key val : Bytes}

theorem TableDef.Typed.length (h : tdef.Typed row) (hs : tdef.Sound) :
    tdef.cols.length = row.length := by
  rw [hs.checked.types, ← h.types, List.length_map]

theorem TableDef.Typed.pick_key (h : tdef.Typed row) (hs : tdef.Sound) :
    tdef.pick row tdef.keyCols = row.take tdef.npkeys := hs.pick_key (h.length hs)

theorem TableDef.mem_indexKeys : key ∈ tdef.indexKeys row ↔
    ∃ i p cols, scannedTree tdef (some i) = .ok (p, cols) ∧ key = keyOf p (tdef.pick row cols) := by
  rw [indexKeys, keysIn, List.mem_map]
  constructor
  · intro h
    obtain ⟨⟨cols, p⟩, hmem, rfl⟩ := h
    obtain ⟨i, hi, he⟩ := List.getElem_of_mem hmem
    rw [List.getElem_zip, Prod.mk.injEq] at he
    rw [List.length_zip] at hi
    refine ⟨i, p, cols, scannedTree_some.mpr ⟨?_, ?_⟩, rfl⟩
    · rw [← he.2]
      exact List.getElem?_eq_getElem _
    · rw [← he.1]
      exact List.getElem?_eq_getElem _
  · intro h
    obtain ⟨i, p, cols, ht, rfl⟩ := h
    obtain ⟨hp, hcols⟩ := scannedTree_some.mp ht
    refine ⟨(cols, p), List.mem_of_getElem? (i := i) ?_, rfl⟩
    exact List.getElem?_zip_eq_some.mpr ⟨hcols, hp⟩

theorem TableDef.binds_iff : tdef.Binds row key val ↔
    ∃ indexNo p cols, scannedTree tdef indexNo = .ok (p, cols) ∧
      key = keyOf p (tdef.pick row cols) ∧ val = tdef.entryVal row indexNo := by
  unfold Binds
  rw [mem_indexKeys]
  constructor
  · intro h
    rcases h with ⟨hk, hv⟩ | ⟨⟨i, p, cols, ht, hk⟩, hv⟩
    · exact ⟨none, _, _, rfl, hk, hv⟩
    · exact ⟨some i, p, cols, ht, hk, hv⟩
  · intro h
    obtain ⟨indexNo, p, cols, ht, hk, hv⟩ := h
    cases indexNo with
    | none =>
        obtain ⟨rfl, rfl⟩ := Prod.mk.inj (Except.ok.inj ht)
        exact Or.inl ⟨hk, hv⟩
    | some i => exact Or.inr ⟨⟨i, p, cols, ht, hk⟩, hv⟩

/-- A tree's space is one of the table's. -/
theorem TableDef.owns_of_tree {indexNo : Option Nat} {p : Nat} {cols : List Bytes}
    (ht : scannedTree tdef indexNo = .ok (p, cols)) (hspace : InSpace p key) : tdef.Owns key := by
  cases indexNo with
  | none =>
      obtain ⟨rfl, _⟩ := Prod.mk.inj (Except.ok.inj ht)
      exact ⟨_, List.mem_cons_self, hspace⟩
  | some i =>
      have hp := (scannedTree_some.mp ht).1
      exact ⟨p, List.mem_cons_of_mem _ (List.mem_of_getElem? hp), hspace⟩

theorem TableDef.owns_of_binds (h : tdef.Binds row key val) : tdef.Owns key := by
  obtain ⟨indexNo, p, cols, ht, rfl, _⟩ := TableDef.binds_iff.mp h
  exact owns_of_tree ht (inSpace_keyOf p _)

/-- In a tree's space a row has its entry there. -/
theorem TableDef.Sound.binds_tree (hs : tdef.Sound) {indexNo : Option Nat} {p : Nat}
    {cols : List Bytes} (ht : scannedTree tdef indexNo = .ok (p, cols)) (hspace : InSpace p key) :
    tdef.Binds row key val ↔ key = keyOf p (tdef.pick row cols) ∧
      val = tdef.entryVal row indexNo := by
  rw [TableDef.binds_iff]
  constructor
  · intro h
    obtain ⟨no, q, cols', ht', rfl, rfl⟩ := h
    have hpq := InSpace.unique (hs.tree_cols ht).1 (hs.tree_cols ht').1 hspace (inSpace_keyOf q _)
    obtain rfl := hs.tree_unique ht ht' hpq
    rw [ht] at ht'
    obtain ⟨rfl, rfl⟩ := Prod.mk.inj (Except.ok.inj ht')
    exact ⟨rfl, rfl⟩
  · exact fun h => ⟨indexNo, p, cols, ht, h⟩

/-- **Rows that bind one key** have one primary key. -/
theorem TableDef.Sound.key_of_binds (hs : tdef.Sound) (hrow : tdef.Typed row)
    (hrow' : tdef.Typed row') {val' : Bytes} (h : tdef.Binds row key val)
    (h' : tdef.Binds row' key val') : row.take tdef.npkeys = row'.take tdef.npkeys := by
  obtain ⟨indexNo, p, cols, ht, rfl, _⟩ := TableDef.binds_iff.mp h
  obtain ⟨he, _⟩ := (hs.binds_tree ht (inSpace_keyOf p _)).mp h'
  have hp := (hs.tree_cols ht).1
  have htypes := (TableDef.type_pick hrow.types cols).trans (TableDef.type_pick hrow'.types cols).symm
  have hplain : Plain ((tdef.pick row cols).map Value.type) := by
    rw [TableDef.type_pick hrow.types]
    exact hs.plain_tree hrow.plain ht
  have hpick := (keyOf_inj hp hp htypes hplain he).2
  have hkey : tdef.pick row tdef.keyCols = tdef.pick row' tdef.keyCols :=
    List.map_congr_left fun col hcol => List.map_inj_left.mp hpick col ((hs.tree_cols ht).2.2.2 col hcol)
  rwa [hrow.pick_key hs, hrow'.pick_key hs] at hkey

end Bindings

/-! ## Changing one row -/

namespace TableDef

variable {tdef : TableDef} {m m' : Contents} {rows : Rows}

theorem Represents.lookup_iff (hrep : tdef.Represents m rows) (hs : tdef.Sound) {key val : Bytes}
    (ho : tdef.Owns key) :
    lookup m key = some val ↔ ∃ pk row, rows pk = some row ∧ tdef.Binds row key val := by
  obtain ⟨p, hp, hspace⟩ := ho
  have htree : ∃ indexNo cols, scannedTree tdef indexNo = .ok (p, cols) := by
    rcases List.mem_cons.mp hp with rfl | hp
    · exact ⟨none, _, rfl⟩
    · obtain ⟨i, hi, rfl⟩ := List.getElem_of_mem hp
      have hi' : i < tdef.indexes.length := by rw [← hs.parallel]; exact hi
      exact ⟨some i, tdef.indexes[i], scannedTree_some.mpr
        ⟨List.getElem?_eq_getElem hi, List.getElem?_eq_getElem hi'⟩⟩
  obtain ⟨indexNo, cols, ht⟩ := htree
  rw [hrep.entries indexNo p cols ht key val hspace]
  simp only [hs.binds_tree ht hspace]

theorem represents_of_lookup (hs : tdef.Sound) (hfit : rows.Fit tdef)
    (h : ∀ key val, tdef.Owns key →
      (lookup m key = some val ↔ ∃ pk row, rows pk = some row ∧ tdef.Binds row key val)) :
    tdef.Represents m rows := by
  refine ⟨hfit, fun indexNo p cols ht key val hspace => ?_⟩
  rw [h key val (owns_of_tree ht hspace)]
  simp only [hs.binds_tree ht hspace]

/-- No bindings, no rows. -/
theorem represents_empty (tdef : TableDef) : tdef.Represents [] fun _ => none :=
  ⟨⟨(fun h => nomatch h), (fun h => nomatch h), (fun h => nomatch h)⟩, fun _ _ _ _ _ _ _ =>
    ⟨(fun h => nomatch h), (fun ⟨_, _, h, _⟩ => nomatch h)⟩⟩

/-- **What is outside a table's spaces** does not matter to it. -/
theorem Represents.congr (hrep : tdef.Represents m rows)
    (h : ∀ key, tdef.Owns key → lookup m' key = lookup m key) : tdef.Represents m' rows := by
  refine ⟨hrep.fit, fun indexNo p cols ht key val hspace => ?_⟩
  rw [h key (owns_of_tree ht hspace)]
  exact hrep.entries indexNo p cols ht key val hspace

/-- **One row changes** with its bindings. -/
theorem Represents.write (hrep : tdef.Represents m rows) (hs : tdef.Sound) {pk : List Value}
    {new : Option (List Value)}
    (hfit : ∀ row, new = some row → tdef.Typed row ∧ pk = row.take tdef.npkeys)
    (hnew : ∀ row, new = some row → ∀ key val, tdef.Binds row key val → lookup m' key = some val)
    (hold : ∀ old, rows pk = some old → ∀ key val, tdef.Binds old key val →
      (∀ row, new = some row → ∀ v, ¬ tdef.Binds row key v) → lookup m' key = none)
    (hother : ∀ key, tdef.Owns key →
      (∀ row, new = some row ∨ rows pk = some row → ∀ v, ¬ tdef.Binds row key v) →
        lookup m' key = lookup m key) :
    tdef.Represents m' (Function.update rows pk new) := by
  have hupdate : ∀ {pk' row}, Function.update rows pk new pk' = some row →
      (pk' = pk ∧ new = some row) ∨ (pk' ≠ pk ∧ rows pk' = some row) := by
    intro pk' row h
    by_cases he : pk' = pk
    · rw [he, Function.update_self] at h
      exact Or.inl ⟨he, h⟩
    · rw [Function.update_of_ne he] at h
      exact Or.inr ⟨he, h⟩
  refine represents_of_lookup hs ⟨fun h => ?_, fun h => ?_, fun h => ?_⟩ fun key val ho => ?_
  · rcases hupdate h with ⟨_, h⟩ | ⟨_, h⟩
    · exact (hfit _ h).1.plain
    · exact hrep.fit.plain h
  · rcases hupdate h with ⟨_, h⟩ | ⟨_, h⟩
    · exact (hfit _ h).1.types
    · exact hrep.fit.types h
  · rcases hupdate h with ⟨he, h⟩ | ⟨_, h⟩
    · rw [he]
      exact (hfit _ h).2
    · exact hrep.fit.key h
  constructor
  · intro hlook
    -- the new row binds the key, or the old row did, or neither
    by_cases hbn : ∃ row, new = some row ∧ ∃ v, tdef.Binds row key v
    · obtain ⟨row, hn, v, hb⟩ := hbn
      have hv := hnew row hn key v hb
      rw [hlook] at hv
      rw [Option.some.inj hv]
      exact ⟨pk, row, by rw [Function.update_self, hn], hb⟩
    · have hnone : ∀ row, new = some row → ∀ v, ¬ tdef.Binds row key v := fun row hn v hb =>
        hbn ⟨row, hn, v, hb⟩
      by_cases hbo : ∃ old, rows pk = some old ∧ ∃ v, tdef.Binds old key v
      · obtain ⟨old, ho', v, hb⟩ := hbo
        rw [hold old ho' key v hb hnone] at hlook
        cases hlook
      · rw [hother key ho fun row h v hb => ?_] at hlook
        · obtain ⟨pk', row, hrow, hb⟩ := (hrep.lookup_iff hs ho).mp hlook
          have hne : pk' ≠ pk := fun he => hbo ⟨row, he ▸ hrow, val, hb⟩
          exact ⟨pk', row, by rw [Function.update_of_ne hne, hrow], hb⟩
        · rcases h with hn | ho'
          · exact hnone row hn v hb
          · exact hbo ⟨row, ho', v, hb⟩
  · intro h
    obtain ⟨pk', row', hrow', hb⟩ := h
    rcases hupdate hrow' with ⟨_, hn⟩ | ⟨hne, hr⟩
    · exact hnew row' hn key val hb
    · rw [hother key ho fun row h v hb' => ?_]
      · exact (hrep.lookup_iff hs ho).mpr ⟨pk', row', hr, hb⟩
      · -- the rows that change have another primary key
        have hkey : ∀ (htyped : tdef.Typed row) (hpk : pk = row.take tdef.npkeys), False := by
          intro htyped hpk
          have := hs.key_of_binds (hrep.fit.typed hr) htyped hb hb'
          rw [← hrep.fit.key hr, ← hpk] at this
          exact hne this
        rcases h with hn | ho'
        · exact hkey (hfit row hn).1 (hfit row hn).2
        · exact hkey (hrep.fit.typed ho') (hrep.fit.key ho')

end TableDef

/-! ## What a write leaves alone

Of any definition whatever, and however the write ends. -/

section Frame

variable {σ : Type} [PageManager σ] {I : σ → Multiset Nat → Prop} (hI : LawfulPages I Stops)
  {tdef : TableDef}

theorem inSpace_encodeKey {p : Nat} {values : List Value} {key : Bytes}
    (h : encodeKey p values = .ok key) : InSpace p key := by
  have hends := encodeKey_ends p values
  rw [h] at hends
  rw [hends.2]
  exact inSpace_keyOf p values

include hI

theorem indexDone_writes {K : Bytes → Prop} (op : IndexOp) {key : Bytes} (hk : K key) :
    (indexDone op key : Tx σ Bool).Writes I K := by
  cases op with
  | add => exact .bind (.update hI hk) fun _ => .pure _
  | del => exact .del hI hk

theorem indexOpLoop_writes (rec : Record) (op : IndexOp) {indexes : List (List Bytes × Nat)}
    (h : ∀ index ∈ indexes, index.2 ∈ tdef.indexPrefixes) :
    (indexOpLoop rec op indexes : Tx σ Unit).Writes I tdef.Owns := by
  induction indexes with
  | nil => exact .pure ()
  | cons index indexes ih =>
      obtain ⟨hp, hrest⟩ := List.forall_mem_cons.mp h
      refine .bind (.lift _) fun values => .bind_lift fun key hkey => ?_
      have ho : tdef.Owns key := ⟨index.2, List.mem_cons_of_mem _ hp, inSpace_encodeKey hkey⟩
      exact .bind (indexDone_writes hI op ho) fun _ => .bind (.assert _ _) fun _ => ih hrest

theorem indexOp_writes (rec : Record) (op : IndexOp) :
    (indexOp tdef rec op : Tx σ Unit).Writes I tdef.Owns :=
  .bind (.assert _ _) fun _ => indexOpLoop_writes hI rec op fun _ h => (List.of_mem_zip h).2

theorem updateIndexes_writes (rec : Record) (key : Bytes) (req : InsertReq) :
    (updateIndexes tdef rec key req : Tx σ Unit).Writes I tdef.Owns := by
  unfold updateIndexes
  split
  · exact indexOp_writes hI rec .add
  · exact .bind (.lift _) fun old => .bind (indexOp_writes hI old .del) fun _ =>
      indexOp_writes hI rec .add

/-- **An update writes in the table's spaces only.** -/
theorem dbUpdate_writes (rec : Record) (mode : UpdateMode) :
    (dbUpdate tdef rec mode : Tx σ (Except Bytes Unit)).Writes I tdef.Owns := by
  unfold dbUpdate
  split
  · exact .pure _
  · refine .bind_lift fun key hkey => .bind (.lift _) fun val => .bind (.update hI ?_) fun r => ?_
    · exact ⟨tdef.keyPrefix, List.mem_cons_self, inSpace_encodeKey hkey⟩
    · obtain ⟨wrote, req⟩ := r
      dsimp only
      split
      · exact .pure _
      · split
        · exact .pure _
        · exact .bind (updateIndexes_writes hI rec key req) fun _ => .pure _

/-- **A delete writes in the table's spaces only.** -/
theorem dbDelete_writes (rec : Record) :
    (dbDelete tdef rec : Tx σ (Answer Unit)).Writes I tdef.Owns := by
  unfold dbDelete
  split
  · exact .pure _
  · refine .bind_lift fun key hkey => .bind (.delete hI ?_) fun r => ?_
    · exact ⟨tdef.keyPrefix, List.mem_cons_self, inSpace_encodeKey hkey⟩
    · obtain ⟨found, req⟩ := r
      dsimp only
      split
      · exact .pure _
      · split
        · exact .pure _
        · exact .bind (.lift _) fun old => .bind (indexOp_writes hI old .del) fun _ => .pure _

end Frame

end SqlDb
