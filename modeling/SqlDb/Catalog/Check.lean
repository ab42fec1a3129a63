import SqlDb.Base.Outcome
import SqlDb.Catalog.Record
import SqlDb.Catalog.TableDef

/-!
# Table definitions that are accepted

`table_def_check` turns down what it cannot store, and appends to every index the primary
key columns it lacks, so that an index key belongs to one row. `Checked` says what it
accepts, after that.
-/

namespace SqlDb

open Outcome

/-! ## The code -/

/-- `static_cast<size_t>(tdef.pkeys)` -/
def TableDef.npkeys (tdef : TableDef) : Nat := tdef.pkeys.toNat

/-- The primary key columns. -/
def TableDef.keyCols (tdef : TableDef) : List Bytes := tdef.cols.take tdef.npkeys

/-- Position of `col` in the columns; `none` for the source's -1. The source's is an `int`: a stored
definition has a text of at most 1000 bytes, and so fewer columns than that. -/
def colIndex (tdef : TableDef) (col : Bytes) : Option Nat := tdef.cols.findIdx? (· = col)

/-- The first loop of `check_index_keys`: the index's own columns, after those in `out`. -/
def checkIndexCols (tdef : TableDef) : List Bytes → List Bytes → Except Bytes (List Bytes)
  | [], out => .ok out
  | col :: index, out => do
      require (colIndex tdef col ≠ none) (.ofString "unknown index column: " ++ col)
      require (col ∉ out) (.ofString "duplicate index column: " ++ col)
      checkIndexCols tdef index (out ++ [col])

/-- The second loop: the primary key columns that are missing. -/
def appendMissing (out : List Bytes) : List Bytes → List Bytes
  | [] => out
  | col :: cols => appendMissing (if col ∈ out then out else out ++ [col]) cols

def checkIndexKeys (tdef : TableDef) (index : List Bytes) : Except Bytes (List Bytes) := do
  require (index ≠ []) (.ofString "index must have at least one column")
  let out ← checkIndexCols tdef index []
  let out := appendMissing out tdef.keyCols
  require (out.length < tdef.cols.length)
    (.ofString "index plus primary key must not cover every column")
  return out

/-- The loop of `table_def_check`. -/
def checkIndexes (tdef : TableDef) : List (List Bytes) → Except Bytes (List (List Bytes))
  | [] => .ok []
  | index :: indexes => do
      let normalized ← checkIndexKeys tdef index
      let rest ← checkIndexes tdef indexes
      return normalized :: rest

/-- The definition as the check leaves it. -/
def tableDefCheck (tdef : TableDef) : Except Bytes TableDef := do
  require (tdef.name ≠ []) (.ofString "table name must not be empty")
  require (tdef.cols.length = tdef.types.length)
    (.ofString "cols and types must have the same size")
  require (0 < tdef.pkeys ∧ tdef.npkeys ≤ tdef.cols.length)
    (.ofString "pkeys must be in (0, cols.size()]")
  let indexes ← checkIndexes tdef tdef.indexes
  return { tdef with indexes := indexes }

/-! ## What it accepts -/

theorem colIndex_ne_none {tdef : TableDef} {col : Bytes} :
    colIndex tdef col ≠ none ↔ col ∈ tdef.cols := by
  rw [colIndex, ne_eq, List.findIdx?_eq_none_iff]
  simp

/-- An index after the check. -/
structure IndexChecked (tdef : TableDef) (index : List Bytes) : Prop where
  ne : index ≠ []
  nodup : index.Nodup
  known : ∀ col ∈ index, col ∈ tdef.cols
  key : ∀ col ∈ tdef.keyCols, col ∈ index
  partial' : index.length < tdef.cols.length

/-- A definition after the check. -/
structure TableDef.Checked (tdef : TableDef) : Prop where
  name : tdef.name ≠ []
  types : tdef.cols.length = tdef.types.length
  pkeys : 0 < tdef.pkeys
  width : tdef.npkeys ≤ tdef.cols.length
  index : ∀ index ∈ tdef.indexes, IndexChecked tdef index

theorem nodup_concat {cols : List Bytes} {col : Bytes} (h : cols.Nodup) (hnot : col ∉ cols) :
    (cols ++ [col]).Nodup := by
  rw [List.nodup_append]
  refine ⟨h, List.pairwise_singleton _ _, fun a ha b hb he => ?_⟩
  rw [he, List.mem_singleton.mp hb] at ha
  exact hnot ha

theorem checkIndexCols_eq_ok {tdef : TableDef} {index out out' : List Bytes} (hout : out.Nodup) :
    checkIndexCols tdef index out = .ok out' ↔
      out' = out ++ index ∧ (out ++ index).Nodup ∧ ∀ col ∈ index, col ∈ tdef.cols := by
  induction index generalizing out with
  | nil =>
      rw [checkIndexCols, List.append_nil, Except.ok.injEq]
      simp [hout, eq_comm]
  | cons col index ih =>
      have hsplit : out ++ col :: index = out ++ [col] ++ index := by simp
      rw [checkIndexCols, bind_eq_ok]
      simp only [require_eq_ok, bind_eq_ok, colIndex_ne_none, List.forall_mem_cons]
      constructor
      · intro h
        obtain ⟨_, hcol, _, hnot, h⟩ := h
        obtain ⟨he, hnodup, hknown⟩ := (ih (nodup_concat hout hnot)).mp h
        rw [hsplit]
        exact ⟨he, hnodup, hcol, hknown⟩
      · intro h
        obtain ⟨he, hnodup, hcol, hknown⟩ := h
        rw [hsplit] at he hnodup
        have hout' := (List.nodup_append.mp hnodup).1
        refine ⟨(), hcol, (), fun hmem => ?_, (ih hout').mpr ⟨he, hnodup, hknown⟩⟩
        exact (List.nodup_append.mp hout').2.2 col hmem col (by simp) rfl

theorem appendMissing_spec {out cols : List Bytes} (hout : out.Nodup) :
    out <+: appendMissing out cols ∧ (appendMissing out cols).Nodup ∧
      ∀ col, col ∈ appendMissing out cols ↔ col ∈ out ∨ col ∈ cols := by
  induction cols generalizing out with
  | nil => exact ⟨List.prefix_refl out, hout, by simp [appendMissing]⟩
  | cons c cols ih =>
      rw [appendMissing]
      by_cases hc : c ∈ out
      · rw [if_pos hc]
        obtain ⟨hp, hn, hm⟩ := ih hout
        refine ⟨hp, hn, fun col => ?_⟩
        rw [hm, List.mem_cons]
        constructor
        · exact fun h => h.imp_right Or.inr
        · intro h
          rcases h with h | rfl | h
          · exact Or.inl h
          · exact Or.inl hc
          · exact Or.inr h
      · rw [if_neg hc]
        obtain ⟨hp, hn, hm⟩ := ih (nodup_concat hout hc)
        refine ⟨(List.prefix_append out [c]).trans hp, hn, fun col => ?_⟩
        rw [hm, List.mem_append, List.mem_singleton, List.mem_cons, or_assoc]

theorem appendMissing_of_subset {out cols : List Bytes} (h : ∀ col ∈ cols, col ∈ out) :
    appendMissing out cols = out := by
  induction cols with
  | nil => rfl
  | cons c cols ih =>
      rw [appendMissing, if_pos (h c (by simp))]
      exact ih fun col hcol => h col (List.mem_cons_of_mem _ hcol)

/-- **A checked index** has distinct columns of the table, the primary key's among them. -/
theorem checkIndexKeys_checked {tdef : TableDef} {index out : List Bytes}
    (h : checkIndexKeys tdef index = .ok out) : IndexChecked tdef out := by
  simp only [checkIndexKeys, bind_eq_ok, require_eq_ok] at h
  obtain ⟨_, hne, own, hown, _, hlen, h⟩ := h
  obtain rfl : appendMissing own tdef.keyCols = out := Except.ok.inj h
  obtain ⟨rfl, hnodup, hknown⟩ := (checkIndexCols_eq_ok List.nodup_nil).mp hown
  rw [List.nil_append] at hnodup
  obtain ⟨hp, hn, hm⟩ : own <+: appendMissing own tdef.keyCols ∧ _ := appendMissing_spec hnodup
  refine ⟨?_, hn, fun col hcol => ?_, fun col hcol => (hm col).mpr (Or.inr hcol), hlen⟩
  · intro hnil
    rw [hnil] at hp
    exact hne (List.prefix_nil.mp hp)
  · rcases (hm col).mp hcol with hcol | hcol
    · exact hknown col hcol
    · exact List.mem_of_mem_take hcol

theorem checkIndexKeys_of_checked {tdef : TableDef} {index : List Bytes}
    (h : IndexChecked tdef index) : checkIndexKeys tdef index = .ok index := by
  have hown : checkIndexCols tdef index [] = .ok index :=
    (checkIndexCols_eq_ok List.nodup_nil).mpr ⟨rfl, h.nodup, h.known⟩
  rw [checkIndexKeys, require_pos h.ne, ok_bind, hown, ok_bind]
  dsimp only
  rw [appendMissing_of_subset h.key, require_pos h.partial']
  rfl

theorem checkIndexes_checked {tdef : TableDef} {indexes out : List (List Bytes)}
    (h : checkIndexes tdef indexes = .ok out) : ∀ index ∈ out, IndexChecked tdef index := by
  induction indexes generalizing out with
  | nil =>
      obtain rfl : [] = out := Except.ok.inj h
      exact fun _ hindex => nomatch hindex
  | cons index indexes ih =>
      simp only [checkIndexes, bind_eq_ok] at h
      obtain ⟨normalized, h1, rest, h2, h⟩ := h
      obtain rfl : normalized :: rest = out := Except.ok.inj h
      exact List.forall_mem_cons.mpr ⟨checkIndexKeys_checked h1, ih h2⟩

theorem checkIndexes_of_checked {tdef : TableDef} {indexes : List (List Bytes)}
    (h : ∀ index ∈ indexes, IndexChecked tdef index) : checkIndexes tdef indexes = .ok indexes := by
  induction indexes with
  | nil => rfl
  | cons index indexes ih =>
      obtain ⟨h1, h2⟩ := List.forall_mem_cons.mp h
      rw [checkIndexes, checkIndexKeys_of_checked h1, ok_bind, ih h2]
      rfl

/-- **What the check accepts** it leaves `Checked`, and changes in its indexes only. -/
theorem tableDefCheck_checked {tdef tdef' : TableDef} (h : tableDefCheck tdef = .ok tdef') :
    tdef'.Checked ∧ tdef' = { tdef with indexes := tdef'.indexes } := by
  simp only [tableDefCheck, bind_eq_ok, require_eq_ok] at h
  obtain ⟨_, hname, _, htypes, _, hwidth, indexes, hindexes, h⟩ := h
  obtain rfl : { tdef with indexes := indexes } = tdef' := Except.ok.inj h
  refine ⟨⟨hname, htypes, hwidth.1, hwidth.2, fun index hindex => ?_⟩, rfl⟩
  have hchecked := checkIndexes_checked hindexes index hindex
  exact ⟨hchecked.ne, hchecked.nodup, hchecked.known, hchecked.key, hchecked.partial'⟩

/-- **The check is idempotent.** -/
theorem tableDefCheck_of_checked {tdef : TableDef} (h : tdef.Checked) :
    tableDefCheck tdef = .ok tdef := by
  rw [tableDefCheck, require_pos h.name, ok_bind, require_pos h.types, ok_bind,
    require_pos ⟨h.pkeys, h.width⟩, ok_bind, checkIndexes_of_checked h.index]
  rfl

end SqlDb
