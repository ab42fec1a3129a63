import SqlDb.Db.DBTX
import SqlDb.Ql.Range

/-!
# Executing UPDATE and DELETE

A statement that writes collects its rows first, as a scan does not outlive a write. The
filter narrows the scan and then runs on every row that is read; OFFSET and LIMIT count the
rows it keeps. The scan of a statement is a template, for a transaction as well as a reader.
-/

namespace SqlDb

open Outcome

/-- The row source of a statement. -/
structure QLScan where
  table : Bytes
  /-- `INDEX BY`, which is always absent. -/
  key1 : QLNode := .uninit
  key2 : QLNode := .uninit
  filter : QLNode := .uninit
  offset : Int64 := 0
  /-- -1: unlimited -/
  limit : Int64 := -1

structure QLUpdate where
  scan : QLScan
  /-- Parallel to `values`, one entry for each assignment. -/
  names : List Bytes
  values : List QLNode

structure QLDelete where
  scan : QLScan

def QLNode.isUninit : QLNode → Bool
  | .uninit => true
  | _ => false

/-- Does WHERE keep the row? -/
def QLScan.keeps (req : QLScan) (rec : Record) : Except Bytes Bool :=
  if req.filter.isUninit then .ok true
  else
    match qlEval req.filter rec with
    | .error err => .error err
    | .ok (.int64 keep) => .ok (keep ≠ 0)
    | .ok _ => .error (.ofString "WHERE is not a boolean")

section Scan

variable {σ : Type} [PageManager σ]

/-- The loop of `scan_rows`: the rows it takes from here on. -/
def scanLoop (t : BTree σ) (tdef : TableDef) (req : QLScan) :
    Nat → Scanner → Nat → Nat → Except Fault (Except Bytes (List Record))
  | fuel, sc, skipped, taken => do
      let valid ← sc.valid
      if valid then
        match fuel with
        | 0 => .error .diverges
        | fuel + 1 => do
            let rec ← sc.deref t tdef
            match req.keeps rec with
            | .error err => return .error err
            | .ok false => do
                let sc ← sc.next t
                scanLoop t tdef req fuel sc skipped taken
            | .ok true =>
                if (skipped : Int) < req.offset.toInt then do
                  let sc ← sc.next t
                  scanLoop t tdef req fuel sc (skipped + 1) taken
                else if 0 ≤ req.limit.toInt ∧ req.limit.toInt ≤ taken then
                  return .ok []
                else do
                  let sc ← sc.next t
                  match ← scanLoop t tdef req fuel sc skipped (taken + 1) with
                  | .error err => return .error err
                  | .ok rows => return .ok (rec :: rows)
      else
        return .ok []

end Scan

/-- The names of an UPDATE are columns, and none of the primary key. -/
def checkNames (tdef : TableDef) : List Bytes → Except Bytes Unit
  | [] => .ok ()
  | name :: names =>
      match colIndex tdef name with
      | none => .error (.ofString "unknown column: " ++ name)
      | some i =>
          if (i : Int) < tdef.pkeys then
            .error (.ofString "cannot update a primary key column: " ++ name)
          else checkNames tdef names

/-- `next`: every assignment's value, of the row as it was. -/
def evalValues (row : Record) : List QLNode → Except Bytes (List Value)
  | [] => .ok []
  | expr :: values => do
      let v ← qlEval expr row
      let next ← evalValues row values
      return v :: next

/-- Gives the first column of this name the value. -/
def setCell (name : Bytes) (v : Value) : List (Bytes × Value) → List (Bytes × Value)
  | [] => []
  | cell :: cells => if cell.1 = name then (name, v) :: cells else cell :: setCell name v cells

/-- The assignments, in order. -/
def assign : List Bytes → List Value → Record → Except Fault Record
  | [], _, row => .ok row
  | name :: names, v :: next, row => assign names next ⟨setCell name v row.cells⟩
  | name :: names, [], row => if name ∈ row.cols then .error .outOfBounds else assign names [] row

/-- `primary_key`: the columns after those in `out`. -/
def primaryKey (row : Record) : List Bytes → Record → Except Bytes Record
  | [], out => .ok out
  | col :: pk, out =>
      match row.get col with
      | none => .error (.ofString "row is missing primary key column: " ++ col)
      | some v => primaryKey row pk (out.add col v)

/-! ## The templates -/

/-- What a call on a transaction of either kind returned or threw, and what it leaves. -/
abbrev TableCall (τ α : Type) := τ → Except Fault (Except String α × τ)

/-- The `TX` of a template. -/
class TableTx (τ : Type) (σ : outParam Type) where
  look {α : Type} : (BTree σ → Except Fault α) → TableCall τ α
  tableDef : Bytes → TableCall τ (Except Bytes TableDef)
  scan : Bytes → ScanReq → TableCall τ (Except Bytes Scanner)

instance (σ : Type) [PageManager σ] : TableTx (DBTX σ) σ where
  look f := DBTX.onTree (Tx.look f)
  tableDef := DBTX.tableDef
  scan := DBTX.scan

namespace TableTx

variable {τ σ α β ε ε' : Type}

def answer (r : Except ε α) : TableCall τ (Except ε α) := fun tx => .ok (.ok r, tx)

/-- `if (!c(..., err)) return false;`, and what follows. -/
def andThen (say : ε → ε') (c : TableCall τ (Except ε α)) (f : α → TableCall τ (Except ε' β)) :
    TableCall τ (Except ε' β) := fun tx =>
  match c tx with
  | .error e => .error e
  | .ok (.error what, tx) => .ok (.error what, tx)
  | .ok (.ok (.error err), tx) => .ok (.ok (.error (say err)), tx)
  | .ok (.ok (.ok a), tx) => f a tx

variable [TableTx τ σ]

/-- A computation without the tree, which can throw but not say no. -/
def compute (r : Except Fault α) : TableCall τ (Except ε α) := look fun _ => Except.ok <$> r

variable [PageManager σ]

def scanRows (fuel : Nat) (req : QLScan) : TableCall τ (Except Bytes (List Record)) :=
  if ¬ req.key1.isUninit ∨ ¬ req.key2.isUninit then
    answer (.error (.ofString "INDEX BY is not supported; this query language filters with WHERE"))
  else
    andThen id (tableDef req.table) fun tdef =>
    andThen id (compute (qlRange req.filter tdef)) fun range =>
    andThen id (scan req.table range.req) fun sc =>
    look fun t => scanLoop t tdef req fuel sc 0 0

end TableTx

/-! ## UPDATE and DELETE -/

namespace DBTX

open TableTx (answer andThen compute scanRows)

variable {σ : Type} [PageManager σ]

/-- The loop of `ql_update`. -/
def updateRows (req : QLUpdate) : List Record → Nat → Call σ (Except Bytes Nat)
  | [], count => answer (.ok count)
  | row :: rows, count =>
      andThen id (answer (evalValues row req.values)) fun next =>
      andThen id (compute (assign req.names next row)) fun row =>
      andThen id (update req.scan.table row) fun _ =>
      updateRows req rows (count + 1)

/-- `ql_update`: the number of rows. -/
def qlUpdate (fuel : Nat) (req : QLUpdate) : Call σ (Except Bytes Nat) :=
  andThen id (tableDef req.scan.table) fun tdef =>
  andThen id (answer (checkNames tdef req.names)) fun _ =>
  andThen id (scanRows fuel req.scan) fun rows =>
  updateRows req rows 0

/-- The loop of `ql_delete`. -/
def deleteRows (req : QLDelete) (pk : List Bytes) : List Record → Nat → Call σ (Answer Nat)
  | [], count => answer (.ok count)
  | row :: rows, count =>
      andThen some (answer (primaryKey row pk {})) fun key =>
      andThen id (del req.scan.table key) fun _ =>
      deleteRows req pk rows (count + 1)

/-- `ql_delete`: the number of rows. -/
def qlDelete (fuel : Nat) (req : QLDelete) : Call σ (Answer Nat) :=
  andThen some (tableDef req.scan.table) fun tdef =>
  andThen some (scanRows fuel req.scan) fun rows =>
  deleteRows req tdef.keyCols rows 0

end DBTX

end SqlDb
