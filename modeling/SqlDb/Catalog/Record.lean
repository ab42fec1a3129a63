import SqlDb.Catalog.Value

/-!
# Records

A name/value view of a row, in whatever column order the caller built it in. The source
keeps two parallel vectors; here each name stands with its value.
-/

namespace SqlDb

structure Record where
  cells : List (Bytes × Value) := []
deriving DecidableEq

namespace Record

def cols (rec : Record) : List Bytes := rec.cells.map Prod.fst

def vals (rec : Record) : List Value := rec.cells.map Prod.snd

/-- Columns and their values, given apart. -/
def ofCols (cols : List Bytes) (vals : List Value) : Record := ⟨cols.zip vals⟩

def add (rec : Record) (col : Bytes) (val : Value) : Record := ⟨rec.cells ++ [(col, val)]⟩

/-- The first value under this name. -/
def get (rec : Record) (col : Bytes) : Option Value :=
  (rec.cells.find? fun cell => cell.1 = col).map Prod.snd

theorem cols_ofCols {cols : List Bytes} {vals : List Value} (h : cols.length = vals.length) :
    (ofCols cols vals).cols = cols := List.map_fst_zip (le_of_eq h)

theorem vals_ofCols {cols : List Bytes} {vals : List Value} (h : cols.length = vals.length) :
    (ofCols cols vals).vals = vals := List.map_snd_zip (le_of_eq h.symm)

theorem length_vals (rec : Record) : rec.vals.length = rec.cols.length := by
  rw [vals, cols, List.length_map, List.length_map]

end Record

end SqlDb
