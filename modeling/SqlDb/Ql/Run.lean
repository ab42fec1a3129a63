import SqlDb.Db.DBReader
import SqlDb.Ql.Parser

/-!
# Running statements

The rest of the executor: SELECT, which runs on a reader or on a transaction, INSERT and
CREATE TABLE, and the dispatch over a statement that was parsed. A statement that stops half
way leaves the rows it has written.
-/

namespace SqlDb

open Outcome

/-- What a statement produced. -/
structure QLResult where
  rows : List Record := []
  count : Nat := 0

instance (σ : Type) [PageManager σ] : TableTx (DBReader σ) σ where
  look := DBReader.look
  tableDef := DBReader.tableDef
  scan := DBReader.scan

def QLNode.isStar : QLNode → Bool
  | .star => true
  | _ => false

/-- The loop over the SELECT list: one row's output record, after the columns in `orec`. -/
def outputRow (row : Record) :
    List QLNode → List Bytes → Record → Except Fault (Except Bytes Record)
  | [], _, orec => .ok (.ok orec)
  | expr :: output, names, orec =>
      if expr.isStar then outputRow row output names.tail ⟨orec.cells ++ row.cells⟩
      else
        match qlEval expr row with
        | .error err => .ok (.error err)
        | .ok v =>
            match names with
            | [] => .error .outOfBounds
            | name :: names => outputRow row output names (orec.add name v)

/-- The loop of `select_rows`. -/
def outputRows (req : QLSelect) : List Record → Except Fault (Except Bytes (List Record))
  | [] => .ok (.ok [])
  | row :: rows => do
      match ← outputRow row req.output req.names {} with
      | .error err => return .error err
      | .ok orec =>
          match ← outputRows req rows with
          | .error err => return .error err
          | .ok orecs => return .ok (orec :: orecs)

/-- `ql_select` -/
def TableTx.selectRows {τ σ : Type} [PageManager σ] [TableTx τ σ] (fuel : Nat) (req : QLSelect) :
    TableCall τ (Except Bytes (List Record)) :=
  andThen id (scanRows fuel req.scan) fun rows => look fun _ => outputRows req rows

/-! ## On a transaction -/

namespace DBTX

open TableTx (answer andThen)

variable {σ : Type} [PageManager σ]

def qlSelect (fuel : Nat) (req : QLSelect) : Call σ (Except Bytes (List Record)) :=
  TableTx.selectRows fuel req

def qlCreateTable (req : QLCreateTable) : Call σ (Except Bytes Unit) := tableNew req.tdef

/-- The call of `ql_insert`. -/
def write (mode : UpdateMode) : Bytes → Record → Call σ (Except Bytes Unit) :=
  match mode with
  | .insertOnly => insert
  | .updateOnly => update
  | .upsert => upsert

def countText (values names : Nat) : Bytes :=
  .ofString "row has " ++ decimal values ++ .ofString " values but " ++ decimal names ++
    .ofString " columns were named"

/-- The loop of `ql_insert`. No row is in scope. -/
def insertRows (req : QLInsert) : List (List QLNode) → Nat → Call σ (Except Bytes Nat)
  | [], count => answer (.ok count)
  | values :: rows, count =>
      if values.length ≠ req.names.length then
        answer (.error (countText values.length req.names.length))
      else
        andThen id (answer (evalValues {} values)) fun vals =>
        andThen id (write req.mode req.table (.ofCols req.names vals)) fun _ =>
        insertRows req rows (count + 1)

/-- `ql_insert`: the number of rows. -/
def qlInsert (req : QLInsert) : Call σ (Except Bytes Nat) := insertRows req req.values 0

/-- `ql_exec` -/
def qlExec (fuel : Nat) : QLStatement → Call σ (Answer QLResult)
  | .createTable stmt => andThen some (qlCreateTable stmt) fun _ => answer (.ok {})
  | .select stmt => andThen some (qlSelect fuel stmt) fun rows => answer (.ok { rows := rows })
  | .insert stmt => andThen some (qlInsert stmt) fun count => answer (.ok { count := count })
  | .update stmt => andThen some (qlUpdate fuel stmt) fun count => answer (.ok { count := count })
  | .delete stmt => andThen id (qlDelete fuel stmt) fun count => answer (.ok { count := count })

/-- `ql_run`; `none` for a text that is not parsed. -/
def qlRun (fuel : Nat) (sql : Bytes) : Call σ (Option (Answer QLResult)) := fun tx =>
  match parseStatement sql with
  | none => .ok (.ok none, tx)
  | some stmt =>
      match qlExec fuel stmt tx with
      | .error e => .error e
      | .ok (.error what, tx) => .ok (.error what, tx)
      | .ok (.ok r, tx) => .ok (.ok (some r), tx)

end DBTX

/-! ## On a reader -/

namespace DBReader

variable {σ : Type} [PageManager σ]

def qlSelect (fuel : Nat) (req : QLSelect) : Call σ (Except Bytes (List Record)) :=
  TableTx.selectRows fuel req

/-- `ql_exec` -/
def qlExec (fuel : Nat) : QLStatement → Call σ (Answer QLResult)
  | .select stmt =>
      TableTx.andThen some (qlSelect fuel stmt) fun rows => TableTx.answer (.ok { rows := rows })
  | _ => TableTx.answer (.error (some
      (.ofString "only SELECT can run on a reader; this statement needs a write transaction")))

/-- `ql_run` -/
def qlRun (fuel : Nat) (sql : Bytes) : Call σ (Option (Answer QLResult)) := fun rd =>
  match parseStatement sql with
  | none => .ok (.ok none, rd)
  | some stmt =>
      match qlExec fuel stmt rd with
      | .error e => .error e
      | .ok (.error what, rd) => .ok (.error what, rd)
      | .ok (.ok r, rd) => .ok (.ok (some r), rd)

end DBReader

end SqlDb
