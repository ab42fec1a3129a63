import SqlDb.Catalog.Check
import SqlDb.Catalog.KeySpace
import SqlDb.Encoding.RoundTrip
import SqlDb.Storage.BTreeIter

/-!
# Rows as keys and values

A key is a number of four bytes, which says whose it is, and the encoding of some of the
row's values. A table's own keys have its primary key and are bound to the rest of the row.

A bound of a range has the values of some leading columns only. A relation that goes on
past every key with those values needs one that is above them all: the missing columns are
padded with the largest encoding there is.
-/

namespace SqlDb

open Outcome Lex

/-! ## The code -/

def encodeKey (keyPrefix : Nat) (pkValues : List Value) : Except Fault Bytes := do
  let out ← encodeValues pkValues
  return Bytes.be keyPrefixSize keyPrefix ++ out

/-- The loop of `encode_key_partial`, over the columns without a value. -/
def padColumns (tdef : TableDef) : List Bytes → Except Fault Bytes
  | [] => .ok []
  | col :: cols =>
      match colIndex tdef col with
      | none => .error (.asserts .padColumn)
      | some i =>
          match tdef.types[i]? with
          | none => .error .outOfBounds
          | some .int64 => do
              let out ← padColumns tdef cols
              return List.replicate 8 0xff ++ out
          | some .bytes => .ok [0xff]
          | some .error => .error (.throws "row_codec: cannot pad an ERROR column")

def encodeKeyPartial (keyPrefix : Nat) (values : List Value) (tdef : TableDef)
    (indexCols : List Bytes) (cmp : CMP) : Except Fault Bytes := do
  let out ← encodeKey keyPrefix values
  if cmp ≠ .gt ∧ cmp ≠ .le then
    return out
  else
    let pad ← padColumns tdef (indexCols.drop values.length)
    return out ++ pad

def decodeKey (key : Bytes) (types : List ValueType) : Except Fault (List Value) := do
  require (keyPrefixSize ≤ key.length) (.throws "row_codec: key is shorter than its table prefix")
  decodeValues (key.drop keyPrefixSize) types

/-- Slots typed like the columns from `first` up to `stop`. -/
def typedSlots (tdef : TableDef) (first stop : Nat) : List ValueType :=
  (tdef.types.drop first).take (stop - first)

def decodeRow (tdef : TableDef) (key val : Bytes) : Except Fault Record := do
  let pkValues ← decodeKey key (typedSlots tdef 0 tdef.npkeys)
  let colValues ← decodeValues val (typedSlots tdef tdef.npkeys tdef.cols.length)
  return .ofCols tdef.cols (pkValues ++ colValues)

/-- The first loop of `check_record`. -/
def checkCols (rec : Record) : List (Bytes × ValueType) → Except Bytes (List Value)
  | [] => .ok []
  | (col, type) :: cols =>
      match rec.get col with
      | none => .error (.ofString "missing column: " ++ col)
      | some v => do
          require (v.type = type) (.ofString "type mismatch for column: " ++ col)
          let out ← checkCols rec cols
          return v :: out

/-- The second loop: no column but the expected ones. -/
def checkExpected (expected : List Bytes) : List Bytes → Except Bytes Unit
  | [] => .ok ()
  | col :: cols => do
      require (col ∈ expected) (.ofString "unexpected column: " ++ col)
      checkExpected expected cols

def checkRecord (tdef : TableDef) (rec : Record) (n : Nat) : Except Bytes (List Value) := do
  let out ← checkCols rec ((tdef.cols.zip tdef.types).take n)
  checkExpected (tdef.cols.take n) rec.cols
  return out

/-! ## Columns by name -/

/-- What stands under a column name, the columns being `cols`. -/
def cellAt {α : Type} (cols : List Bytes) (cells : List α) (col : Bytes) : Option α :=
  (cols.findIdx? (· = col)).bind fun i => cells[i]?

theorem cellAt_cons {α : Type} (c : Bytes) (cols : List Bytes) (x : α) (cells : List α)
    (col : Bytes) :
    cellAt (c :: cols) (x :: cells) col = if c = col then some x else cellAt cols cells col := by
  unfold cellAt
  rw [List.findIdx?_cons]
  by_cases hc : c = col
  · simp [hc]
  · simp [hc, Option.bind_map]

theorem cellAt_nil {α : Type} (cols : List Bytes) (col : Bytes) :
    cellAt cols ([] : List α) col = none := by
  unfold cellAt
  cases cols.findIdx? (· = col) <;> rfl

theorem cellAt_map {α β : Type} (f : α → β) (cols : List Bytes) (cells : List α) (col : Bytes) :
    cellAt cols (cells.map f) col = (cellAt cols cells col).map f := by
  unfold cellAt
  cases cols.findIdx? (· = col) with
  | none => rfl
  | some i => exact List.getElem?_map

theorem get_ofCols (cols : List Bytes) (vals : List Value) (col : Bytes) :
    (Record.ofCols cols vals).get col = cellAt cols vals col := by
  induction cols generalizing vals with
  | nil => rfl
  | cons c cols ih =>
      cases vals with
      | nil =>
          rw [cellAt_nil]
          rfl
      | cons v vals =>
          have ih := ih vals
          unfold Record.get Record.ofCols at ih ⊢
          rw [cellAt_cons, List.zip_cons_cons, List.find?_cons]
          by_cases hc : c = col
          · simp [hc]
          · simp only [hc, decide_false, if_false]
            exact ih

theorem cellAt_isSome {α : Type} {cols : List Bytes} {cells : List α} {col : Bytes}
    (hlen : cols.length ≤ cells.length) : (cellAt cols cells col).isSome ↔ col ∈ cols := by
  induction cols generalizing cells with
  | nil => simp [cellAt]
  | cons c cols ih =>
      cases cells with
      | nil => simp at hlen
      | cons x cells =>
          rw [cellAt_cons]
          by_cases hc : c = col
          · simp [hc]
          · rw [if_neg hc, ih (by simpa using hlen), List.mem_cons]
            exact ⟨Or.inr, fun h => h.resolve_left (Ne.symm hc)⟩

/-- **Every column has its own cell**, if the names are distinct. -/
theorem map_cellAt {α : Type} {cols : List Bytes} {cells : List α} (hd : cols.Nodup)
    (hlen : cols.length = cells.length) : cols.map (cellAt cols cells) = cells.map some := by
  induction cols generalizing cells with
  | nil =>
      rw [List.length_nil, eq_comm, List.length_eq_zero_iff] at hlen
      rw [hlen]
      rfl
  | cons c cols ih =>
      obtain ⟨hnot, hd⟩ := List.nodup_cons.mp hd
      cases cells with
      | nil => simp at hlen
      | cons x cells =>
          rw [List.map_cons, List.map_cons, cellAt_cons, if_pos rfl, ← ih hd (by simpa using hlen)]
          refine congrArg (some x :: ·) (List.map_congr_left fun col hcol => ?_)
          rw [cellAt_cons, if_neg fun he : c = col => hnot (he ▸ hcol)]

theorem map_cellAt_getD {α : Type} {cols : List Bytes} {cells : List α} (hd : cols.Nodup)
    (hlen : cols.length = cells.length) (x : α) :
    cols.map (fun col => (cellAt cols cells col).getD x) = cells := by
  have h := congrArg (List.map fun c : Option α => c.getD x) (map_cellAt hd hlen)
  simpa [Function.comp_def] using h

/-- The row's values in some columns. -/
def TableDef.pick (tdef : TableDef) (row : List Value) (cols : List Bytes) : List Value :=
  cols.map fun col => (cellAt tdef.cols row col).getD .error

/-- The types of some columns. -/
def TableDef.typesOf (tdef : TableDef) (cols : List Bytes) : List ValueType :=
  cols.map fun col => (cellAt tdef.cols tdef.types col).getD .error

theorem TableDef.type_pick {tdef : TableDef} {row : List Value}
    (hrow : row.map Value.type = tdef.types) (cols : List Bytes) :
    (tdef.pick row cols).map Value.type = tdef.typesOf cols := by
  rw [pick, typesOf, List.map_map]
  refine List.map_congr_left fun col _ => ?_
  rw [← hrow, cellAt_map, Function.comp_apply]
  cases cellAt tdef.cols row col <;> rfl

theorem TableDef.pick_keyCols {tdef : TableDef} {row : List Value} (hd : tdef.cols.Nodup)
    (hlen : tdef.cols.length = row.length) : tdef.pick row tdef.keyCols = row.take tdef.npkeys := by
  rw [keyCols, pick, List.map_take, map_cellAt_getD hd hlen]

theorem TableDef.typesOf_keyCols {tdef : TableDef} (hd : tdef.cols.Nodup)
    (hlen : tdef.cols.length = tdef.types.length) :
    tdef.typesOf tdef.keyCols = tdef.types.take tdef.npkeys := by
  rw [keyCols, typesOf, List.map_take, map_cellAt_getD hd hlen]

theorem TableDef.plain_typesOf {tdef : TableDef} (hplain : Plain tdef.types)
    (hlen : tdef.cols.length = tdef.types.length) {cols : List Bytes}
    (hcols : ∀ col ∈ cols, col ∈ tdef.cols) : Plain (tdef.typesOf cols) := by
  intro type htype
  obtain ⟨col, hcol, rfl⟩ := List.mem_map.mp htype
  obtain ⟨t, ht⟩ := Option.isSome_iff_exists.mp
    ((cellAt_isSome (le_of_eq hlen)).mpr (hcols col hcol))
  rw [ht]
  unfold cellAt at ht
  obtain ⟨i, _, hi⟩ := Option.bind_eq_some_iff.mp ht
  exact hplain t (List.mem_of_getElem? hi)

/-! ## Records that name some columns -/

/-- The record names the first `n` columns, each with a value of its type first, and no other. -/
structure Record.Names (rec : Record) (tdef : TableDef) (n : Nat) (values : List Value) : Prop where
  types : values.map Value.type = tdef.types.take n
  cells : (tdef.cols.take n).map rec.get = values.map some
  cols : ∀ col ∈ rec.cols, col ∈ tdef.cols.take n

theorem checkCols_eq_ok {rec : Record} {cols : List Bytes} {types : List ValueType}
    (hlen : cols.length = types.length) {values : List Value} :
    checkCols rec (cols.zip types) = .ok values ↔
      values.map Value.type = types ∧ cols.map rec.get = values.map some := by
  induction cols generalizing types values with
  | nil =>
      rw [List.length_nil, eq_comm, List.length_eq_zero_iff] at hlen
      rw [hlen, List.zip_nil_left, checkCols, Except.ok.injEq, List.map_nil, List.map_eq_nil_iff]
      constructor
      · rintro rfl
        exact ⟨rfl, rfl⟩
      · exact fun h => h.1.symm
  | cons col cols ih =>
      cases types with
      | nil => simp at hlen
      | cons type types =>
          rw [List.zip_cons_cons, checkCols, List.map_cons]
          cases hget : rec.get col with
          | none =>
              constructor
              · intro h
                cases h
              · intro h
                cases values <;> simp at h
          | some v =>
              -- the column is there: its type is checked, then the others
              simp only [bind_eq_ok, require_eq_ok, ih (by simpa using hlen)]
              constructor
              · intro h
                obtain ⟨_, htype, out, hout, h⟩ := h
                obtain rfl : v :: out = values := Except.ok.inj h
                simp [htype, hout]
              · intro h
                cases values with
                | nil => simp at h
                | cons w values =>
                    simp only [List.map_cons, List.cons.injEq, Option.some.injEq] at h
                    obtain ⟨⟨htype, htypes⟩, rfl, hcells⟩ := h
                    exact ⟨(), htype, values, ⟨htypes, hcells⟩, rfl⟩

theorem checkExpected_eq_ok {expected cols : List Bytes} {u : Unit} :
    checkExpected expected cols = .ok u ↔ ∀ col ∈ cols, col ∈ expected := by
  induction cols with
  | nil => simp [checkExpected]
  | cons col cols ih =>
      rw [checkExpected, bind_eq_ok, List.forall_mem_cons, ← ih]
      simp

/-- **`check_record`** accepts exactly the records that name the columns. -/
theorem checkRecord_eq_ok {tdef : TableDef} (hlen : tdef.cols.length = tdef.types.length)
    {rec : Record} {n : Nat} {values : List Value} :
    checkRecord tdef rec n = .ok values ↔ rec.Names tdef n values := by
  have htake : (tdef.cols.take n).length = (tdef.types.take n).length := by
    rw [List.length_take, List.length_take, hlen]
  have hcols : checkCols rec _ = .ok values ↔ _ := checkCols_eq_ok htake
  unfold checkRecord
  rw [List.zip, List.take_zipWith, ← List.zip]
  simp only [bind_eq_ok, checkExpected_eq_ok]
  constructor
  · intro h
    obtain ⟨out, hout, _, hexp, h⟩ := h
    obtain rfl : out = values := Except.ok.inj h
    exact ⟨(hcols.mp hout).1, (hcols.mp hout).2, hexp⟩
  · intro h
    exact ⟨values, hcols.mpr ⟨h.types, h.cells⟩, (), h.cols, rfl⟩

/-- A record names columns with one list of values only. -/
theorem Record.Names.unique {rec : Record} {tdef : TableDef} {n : Nat} {values values' : List Value}
    (h : rec.Names tdef n values) (h' : rec.Names tdef n values') : values = values' :=
  List.map_injective_iff.mpr (Option.some_injective _) (h.cells.symm.trans h'.cells)

theorem Record.Names.length {rec : Record} {tdef : TableDef} {n : Nat} {values : List Value}
    (h : rec.Names tdef n values) (hn : n ≤ tdef.cols.length) : values.length = n := by
  have := congrArg List.length h.cells
  rw [List.length_map, List.length_map, List.length_take] at this
  omega

end SqlDb
