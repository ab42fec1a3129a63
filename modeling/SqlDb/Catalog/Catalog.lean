import SqlDb.Catalog.Check
import SqlDb.Catalog.KeySpace
import SqlDb.Storage.Program

/-!
# The catalog

Table definitions are rows of a table of the database's own, by name, and the next space
to give out is kept in another. A new table takes one space for its rows and one for each
index, and its definition is written after the counter, through one transaction: what
throws in between leaves the counter ahead.

Definitions that were looked up are cached, past the transaction that looked.
-/

namespace SqlDb

open Outcome OrdMap

/-! ## The code -/

/-- `key = 4-byte big-endian prefix + primary-key bytes` -/
def internalKey (keyPrefix : Nat) (pk : Bytes) : Bytes := Bytes.be keyPrefixSize keyPrefix ++ pk

def tdefMeta : TableDef where
  name := .ofString "@meta"
  cols := [.ofString "key", .ofString "val"]
  types := [.bytes, .bytes]
  pkeys := 1
  keyPrefix := 1

def tdefTable : TableDef where
  name := .ofString "@table"
  cols := [.ofString "name", .ofString "def"]
  types := [.bytes, .bytes]
  pkeys := 1
  keyPrefix := 2

/-- 1 and 2 are reserved for `@meta` and `@table`. -/
def tablePrefixMin : Nat := 3

/-- Wraps as `uint32_t` does. -/
def u32 (n : Nat) : Nat := n % 2 ^ 32

/-- The cached definitions. -/
structure Catalog where
  cache : Bytes → Option TableDef := fun _ => none

def Catalog.clearCache (_ : Catalog) : Catalog := {}

section Code

variable {σ : Type} [PageManager σ]

def internalGet (t : BTree σ) (tdef : TableDef) (pk : Bytes) : Except Fault (Option Bytes) :=
  t.get (internalKey tdef.keyPrefix pk)

def internalSet (tdef : TableDef) (pk val : Bytes) : Tx σ Unit :=
  Tx.set (internalKey tdef.keyPrefix pk) val

/-- Reads a definition past the cache, as readers do. -/
def getTableDefFromKv (t : BTree σ) (name : Bytes) : Except Fault (Option TableDef) := do
  match ← internalGet t tdefTable name with
  | none => return none
  | some encoded => return decodeTableDef encoded

def Catalog.getTableDef (cat : Catalog) (name : Bytes) : Tx σ (Option TableDef × Catalog) :=
  match cat.cache name with
  | some tdef => return (some tdef, cat)
  | none => do
      match ← Tx.look fun t => getTableDefFromKv t name with
      | none => return (none, cat)
      | some tdef =>
          return (some tdef, { cat with cache := Function.update cat.cache name (some tdef) })

/-- The key of the counter in `@meta`. -/
def nextPrefixName : Bytes := .ofString "next_prefix"

/-- The counter as it is stored, four bytes most significant first. -/
def readPrefix (stored : Option Bytes) : Nat :=
  match stored with
  | some s => if s.length = 4 then Bytes.toNatBe 0 s else tablePrefixMin
  | none => tablePrefixMin

/-- Takes `n` spaces in a row; the first of them. -/
def allocPrefix (n : Nat) : Tx σ Nat := do
  let stored ← Tx.look fun t => internalGet t tdefMeta nextPrefixName
  internalSet tdefMeta nextPrefixName (Bytes.be 4 (u32 (readPrefix stored + n)))
  return readPrefix stored

/-- The definition with its spaces: one for the rows, then one for each index. -/
def TableDef.numbered (tdef : TableDef) (first : Nat) : TableDef :=
  { tdef with
    keyPrefix := first
    indexPrefixes := (List.range tdef.indexes.length).map fun i => u32 (first + 1 + i) }

def tableNew (tdef : TableDef) : Tx σ (Except Bytes Unit) :=
  match tableDefCheck tdef with
  | .error err => return .error err
  | .ok tdef =>
      if tdef.keyPrefix ≠ 0 ∨ tdef.indexPrefixes ≠ [] then
        return .error (.ofString "prefixes must not be set by the caller")
      else do
        let found ← Tx.look fun t => internalGet t tdefTable tdef.name
        if found.isSome then
          return .error (.ofString "table already exists: " ++ tdef.name)
        else
          let first ← allocPrefix (u32 (1 + tdef.indexes.length))
          let tdef := tdef.numbered first
          internalSet tdefTable tdef.name (encodeTableDef tdef)
          return .ok ()

end Code

/-! ## What is stored -/

/-- The key of a table's definition. -/
def tableKey (name : Bytes) : Bytes := internalKey tdefTable.keyPrefix name

/-- The key of the counter. -/
def counterKey : Bytes := internalKey tdefMeta.keyPrefix nextPrefixName

/-- The next space to give out. -/
def nextPrefix (m : Contents) : Nat := readPrefix (lookup m counterKey)

/-- The text of a table's definition. -/
def tableText (m : Contents) (name : Bytes) : Option Bytes := lookup m (tableKey name)

theorem inSpace_tableKey (name : Bytes) : InSpace 2 (tableKey name) := inSpace_append 2 name

theorem inSpace_counterKey : InSpace 1 counterKey := inSpace_append 1 _

theorem tableKey_ne_counterKey (name : Bytes) : tableKey name ≠ counterKey := by
  intro h
  have h1 := inSpace_tableKey name
  rw [h] at h1
  have := InSpace.unique (by decide) (by decide) h1 inSpace_counterKey
  omega

theorem tableKey_inj {name name' : Bytes} (h : tableKey name = tableKey name') : name = name' :=
  List.append_cancel_left h

theorem readPrefix_be (n : Nat) : readPrefix (some (Bytes.be 4 (u32 n))) = u32 n := by
  unfold readPrefix u32
  dsimp only
  rw [if_pos (Bytes.length_be _ _), Bytes.toNatBe_be, Nat.zero_mul, Nat.zero_add]
  exact Nat.mod_mod n (2 ^ 32)

/-- The bindings after the counter was moved on by `n`. -/
def counted (m : Contents) (n : Nat) : Contents :=
  OrdMap.insert m counterKey (Bytes.be 4 (u32 (nextPrefix m + n)))

theorem nextPrefix_counted {m : Contents} (hm : Sorted m) (n : Nat) :
    nextPrefix (counted m n) = u32 (nextPrefix m + n) := by
  rw [counted, nextPrefix, lookup_insert_self hm, readPrefix_be]

theorem tableText_counted {m : Contents} (hm : Sorted m) (n : Nat) (name : Bytes) :
    tableText (counted m n) name = tableText m name :=
  lookup_insert_of_ne hm _ (tableKey_ne_counterKey name)

/-- The bindings after a definition was stored. -/
def stored (m : Contents) (tdef : TableDef) : Contents :=
  OrdMap.insert m (tableKey tdef.name) (encodeTableDef tdef)

theorem nextPrefix_stored {m : Contents} (hm : Sorted m) (tdef : TableDef) :
    nextPrefix (stored m tdef) = nextPrefix m := by
  rw [stored, nextPrefix, lookup_insert_of_ne hm _ (tableKey_ne_counterKey _).symm]
  rfl

theorem tableText_stored {m : Contents} (hm : Sorted m) (tdef : TableDef) (name : Bytes) :
    tableText (stored m tdef) name =
      if name = tdef.name then some (encodeTableDef tdef) else tableText m name := by
  rw [tableText, stored]
  by_cases h : name = tdef.name
  · rw [if_pos h, h, lookup_insert_self hm]
  · rw [if_neg h, lookup_insert_of_ne hm _ fun he => h (tableKey_inj he)]
    rfl

/-- The spaces a new table takes. -/
def TableDef.width (tdef : TableDef) : Nat := u32 (1 + tdef.indexes.length)

/-- The definition that `table_new` stores. -/
def TableDef.created (tdef : TableDef) (m : Contents) : TableDef := tdef.numbered (nextPrefix m)

section Specs

variable {σ : Type} [PageManager σ] {I : σ → Multiset Nat → Prop} {E : Fault → Prop}
  {m : Contents} (hI : LawfulPages I E) (hE : ∀ what, ¬ E (.throws what))

/-- What a definition read from the store is. -/
theorem getTableDefFromKv_eq {t : BTree σ} (hread : t.Readable m) (name : Bytes) :
    getTableDefFromKv t name =
      if ValidKey (tableKey name) then .ok ((tableText m name).bind decodeTableDef)
      else .error (limitFault (tableKey name)) := by
  unfold getTableDefFromKv internalGet
  by_cases hk : ValidKey (tableKey name)
  · rw [if_pos hk, show t.get (internalKey tdefTable.keyPrefix name) = .ok (tableText m name) from
      hread.get hk, ok_bind]
    cases tableText m name <;> rfl
  · rw [if_neg hk, show t.get (internalKey tdefTable.keyPrefix name) = .error (limitFault _) from
      BTree.get_invalid t hk, error_bind]
    rfl

include hI in
/-- Looking leaves the bindings as they are. -/
theorem Spec.look_internal (tdef : TableDef) (pk : Bytes) :
    Spec I E (Tx.look fun t => internalGet t tdef pk : Tx σ (Option Bytes)) m fun r m' =>
      m = m' ∧ ∀ found, r = .ok found → found = lookup m (internalKey tdef.keyPrefix pk) := by
  refine Spec.get hI ?_ ?_
  · exact fun _ => ⟨rfl, fun _ he => (Except.ok.inj he).symm⟩
  · exact fun _ => ⟨rfl, fun _ he => nomatch he⟩

include hI hE in
/-- **`alloc_prefix`** moves the counter on and gives what it was at. -/
theorem allocPrefix_spec (n : Nat) : Spec I E (allocPrefix n : Tx σ Nat) m fun r m' =>
    (∃ what, r = .error what ∧ m' = m) ∨ r = .ok (nextPrefix m) ∧ m' = counted m n := by
  refine Spec.bind (Spec.look_internal hI tdefMeta nextPrefixName) ?_ ?_
  · rintro found _ ⟨rfl, hfound⟩
    rw [hfound found rfl]
    refine Spec.bind (Q := fun r m' => (∃ what, r = .error what ∧ m' = m) ∨
      r = .ok () ∧ m' = counted m n) (Spec.set hI hE ?_ ?_) ?_ ?_
    · exact fun _ _ => Or.inr ⟨rfl, rfl⟩
    · exact fun _ => Or.inl ⟨_, rfl, rfl⟩
    · intro _ m' hq
      rcases hq with ⟨_, he, _⟩ | ⟨_, rfl⟩
      · cases he
      · exact Spec.pure (Or.inr ⟨rfl, rfl⟩)
    · intro what m' hq
      rcases hq with ⟨_, _, rfl⟩ | ⟨he, _⟩
      · exact Or.inl ⟨what, rfl, rfl⟩
      · cases he
  · rintro what _ ⟨rfl, _⟩
    exact Or.inl ⟨what, rfl, rfl⟩

/-- What `table_new` says of a definition that it refuses, there being tables of these names. -/
inductive TableDef.Refused (tdef : TableDef) (taken : Bytes → Prop) : Bytes → Prop where
  | check {err : Bytes} : tableDefCheck tdef = .error err → Refused tdef taken err
  | prefixes {d : TableDef} : tableDefCheck tdef = .ok d →
      d.keyPrefix ≠ 0 ∨ d.indexPrefixes ≠ [] →
      Refused tdef taken (.ofString "prefixes must not be set by the caller")
  | name {d : TableDef} : tableDefCheck tdef = .ok d →
      ¬ (d.keyPrefix ≠ 0 ∨ d.indexPrefixes ≠ []) → taken d.name →
      Refused tdef taken (.ofString "table already exists: " ++ d.name)

/-- How `table_new` can end. -/
inductive TableNew (m : Contents) (tdef : TableDef) :
    Except String (Except Bytes Unit) → Contents → Prop where
  | refused {err : Bytes} : tdef.Refused (fun name => tableText m name ≠ none) err →
      TableNew m tdef (.ok (.error err)) m
  | threw {what : String} : TableNew m tdef (.error what) m
  /-- The definition cannot be stored. The counter is ahead. -/
  | threwLate {what : String} {d : TableDef} : tableDefCheck tdef = .ok d →
      TableNew m tdef (.error what) (counted m d.width)
  | created {d : TableDef} : tableDefCheck tdef = .ok d → tableText m d.name = none →
      ValidKey (tableKey d.name) → ValidVal (encodeTableDef (d.created m)) →
      TableNew m tdef (.ok (.ok ())) (stored (counted m d.width) (d.created m))

include hI hE in
/-- **`table_new`** ends in one of four ways. -/
theorem tableNew_spec (tdef : TableDef) :
    Spec I E (tableNew tdef : Tx σ (Except Bytes Unit)) m (TableNew m tdef) := by
  unfold tableNew
  cases hcheck : tableDefCheck tdef with
  | error err => exact Spec.pure (.refused (.check hcheck))
  | ok d =>
      dsimp only
      by_cases hset : d.keyPrefix ≠ 0 ∨ d.indexPrefixes ≠ []
      · rw [if_pos hset]
        exact Spec.pure (.refused (.prefixes hcheck hset))
      · rw [if_neg hset]
        refine Spec.bind (Spec.look_internal hI tdefTable d.name) ?_ ?_
        · rintro found _ ⟨rfl, hfound⟩
          by_cases hsome : found.isSome = true
          · rw [if_pos hsome]
            refine Spec.pure (.refused (.name hcheck hset fun hnone => ?_))
            rw [hfound found rfl] at hsome
            cases hsome.symm.trans (congrArg Option.isSome hnone)
          · rw [if_neg hsome]
            have hnone : tableText m d.name = none := by
              rw [hfound found rfl] at hsome
              exact Option.not_isSome_iff_eq_none.mp hsome
            refine Spec.bind (allocPrefix_spec hI hE _) ?_ ?_
            · intro first m1 hq
              rcases hq with ⟨_, he, _⟩ | ⟨he, rfl⟩
              · cases he
              · rw [Except.ok.inj he]
                -- the definition is stored, or the counter has moved and nothing else
                refine Spec.bind (Q := fun r m' => (∃ what, r = .error what ∧ m' = counted m d.width) ∨
                  r = .ok () ∧ m' = stored (counted m d.width) (d.created m) ∧
                    ValidKey (tableKey d.name) ∧ ValidVal (encodeTableDef (d.created m)))
                  (Spec.set hI hE ?_ ?_) ?_ ?_
                · exact fun hk hv => Or.inr ⟨rfl, rfl, hk, hv⟩
                · exact fun _ => Or.inl ⟨_, rfl, rfl⟩
                · intro _ m' hq
                  rcases hq with ⟨_, he, _⟩ | ⟨_, rfl, hk, hv⟩
                  · cases he
                  · exact Spec.pure (.created hcheck hnone hk hv)
                · intro what m' hq
                  rcases hq with ⟨_, _, rfl⟩ | ⟨he, _⟩
                  · exact .threwLate hcheck
                  · cases he
            · intro what m1 hq
              rcases hq with ⟨_, _, rfl⟩ | ⟨he, _⟩
              · exact .threw
              · cases he
        · rintro what _ ⟨rfl, _⟩
          exact .threw

end Specs

end SqlDb
