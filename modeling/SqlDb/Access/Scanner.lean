import SqlDb.Access.RowKey
import SqlDb.Storage.Program

/-!
# Range scans and point lookups

A scan picks the primary key or an index by the columns of its first bound, seeks that
bound and walks toward the second. A lookup is the scan from a key to itself. A scan of an
index looks every row up by its primary key, so the two call each other: a lookup's own
scan is always of the primary key, where reading a row needs no lookup.

What is read is read from a tree, a reader's or a transaction's.
-/

namespace SqlDb

open Outcome

/-- Does `longCols` start with `shortCols`? -/
def isPrefix (longCols shortCols : List Bytes) : Bool := shortCols.isPrefixOf longCols

/-- The loop of `find_index`, from index `i` on; the shortest so far and its size. -/
def findIndexLoop (keys : List Bytes) :
    List (List Bytes) → Nat → Option (Nat × Nat) → Option (Nat × Nat)
  | [], _, winner => winner
  | index :: indexes, i, winner =>
      if ¬ isPrefix index keys then findIndexLoop keys indexes (i + 1) winner
      else
        match winner with
        | none => findIndexLoop keys indexes (i + 1) (some (i, index.length))
        | some (w, size) =>
            if index.length < size then findIndexLoop keys indexes (i + 1) (some (i, index.length))
            else findIndexLoop keys indexes (i + 1) (some (w, size))

/-- The tree to scan for keys over these columns: an index, or `none` for the primary key. -/
def findIndex (tdef : TableDef) (keys : List Bytes) : Except Bytes (Option Nat) :=
  if isPrefix tdef.keyCols keys then .ok none
  else
    match findIndexLoop keys tdef.indexes 0 none with
    | none =>
        .error (.ofString "no index starts with the range key's columns in table: " ++ tdef.name)
    | some (i, _) => .ok (some i)

/-- `tdef.types[col_index(tdef, col)]` -/
def columnType (tdef : TableDef) (col : Bytes) : Except Fault ValueType :=
  match cellAt tdef.cols tdef.types col with
  | some type => .ok type
  | none => .error .outOfBounds

def columnTypes (tdef : TableDef) : List Bytes → Except Fault (List ValueType)
  | [] => .ok []
  | col :: cols => do
      let type ← columnType tdef col
      let types ← columnTypes tdef cols
      return type :: types

/-- The loop of `check_bound`. -/
def checkBoundTypes (tdef : TableDef) : List (Bytes × Value) → Except Fault (Except Bytes Unit)
  | [] => .ok (.ok ())
  | (col, v) :: cells => do
      let type ← columnType tdef col
      if v.type ≠ type then
        return .error (.ofString "type mismatch for column: " ++ col)
      else
        checkBoundTypes tdef cells

def checkBound (tdef : TableDef) (indexCols : List Bytes) (key : Record) :
    Except Fault (Except Bytes Unit) :=
  if ¬ isPrefix indexCols key.cols then
    return .error (.ofString "range key columns must be a prefix of the scanned index")
  else
    checkBoundTypes tdef key.cells

/-- The number and the columns of the tree that is scanned. -/
def scannedTree (tdef : TableDef) : Option Nat → Except Fault (Nat × List Bytes)
  | none => .ok (tdef.keyPrefix, tdef.keyCols)
  | some i =>
      match tdef.indexPrefixes[i]?, tdef.indexes[i]? with
      | some p, some cols => .ok (p, cols)
      | _, _ => .error .outOfBounds

/-- What a caller asks for. -/
structure ScanReq where
  cmp1 : CMP
  cmp2 : CMP
  key1 : Record
  key2 : Record

structure Scanner extends ScanReq where
  /-- The index that is scanned; `none` for the primary key. -/
  indexNo : Option Nat
  iter : BIter
  /-- `key2`, encoded. -/
  keyEnd : Bytes

section Calls

variable {σ : Type} [PageManager σ]

def dbScan (t : BTree σ) (tdef : TableDef) (req : ScanReq) :
    Except Fault (Except Bytes Scanner) := do
  if ¬ (req.cmp1.positive ∧ ¬ req.cmp2.positive) ∧ ¬ (¬ req.cmp1.positive ∧ req.cmp2.positive) then
    return .error (.ofString "bad range: cmp1 and cmp2 must point in opposite directions")
  else
    match findIndex tdef req.key1.cols with
    | .error err => return .error err
    | .ok indexNo => do
        let (keyPrefix, indexCols) ← scannedTree tdef indexNo
        match ← checkBound tdef indexCols req.key1 with
        | .error err => return .error err
        | .ok () =>
            match ← checkBound tdef indexCols req.key2 with
            | .error err => return .error err
            | .ok () => do
                let keyEnd ← encodeKeyPartial keyPrefix req.key2.vals tdef indexCols req.cmp2
                let key ← encodeKeyPartial keyPrefix req.key1.vals tdef indexCols req.cmp1
                let iter ← t.seek key req.cmp1
                return .ok { req with indexNo := indexNo, iter := iter, keyEnd := keyEnd }

namespace Scanner

/-- Is the current row within the range? -/
def valid (sc : Scanner) : Except Fault Bool :=
  if sc.iter.valid then do
    let (key, _) ← sc.iter.deref
    return cmpOk key sc.cmp2 sc.keyEnd
  else
    return false

def assertValid (sc : Scanner) : Except Fault Unit := do
  let valid ← sc.valid
  require (valid = true) (.asserts .scanValid)

/-- Moves toward `key2`. -/
def next (sc : Scanner) (t : BTree σ) : Except Fault Scanner := do
  sc.assertValid
  let iter ← if sc.cmp1.positive then sc.iter.next t.pages else sc.iter.prev t.pages
  return { sc with iter := iter }

/-- `deref` in a scan of the primary key. -/
def derefRow (sc : Scanner) (tdef : TableDef) : Except Fault Record := do
  sc.assertValid
  let (key, val) ← sc.iter.deref
  decodeRow tdef key val

end Scanner

/-- What a call answers that can say no: a text, or `none` where it leaves the caller's alone. -/
abbrev Answer (α : Type) := Except (Option Bytes) α

/-- The scan of a lookup is of the primary key, by `dbScan_keyCols`. -/
def dbGet (t : BTree σ) (tdef : TableDef) (rec : Record) : Except Fault (Answer Record) :=
  match checkRecord tdef rec tdef.npkeys with
  | .error err => return .error (some err)
  | .ok vals => do
      let key := Record.ofCols tdef.keyCols vals
      match ← dbScan t tdef ⟨.ge, .le, key, key⟩ with
      | .error err => return .error (some err)
      | .ok sc => do
          let valid ← sc.valid
          if valid then
            let rec ← sc.derefRow tdef
            return .ok rec
          else
            return .error none

/-- The loop of `deref`: the primary key columns of an index key. -/
def keyCells (indexRec : Record) : List Bytes → Except Fault (List (Bytes × Value))
  | [] => .ok []
  | col :: cols =>
      match indexRec.get col with
      | none => .error (.asserts .scanColumn)
      | some v => do
          let cells ← keyCells indexRec cols
          return (col, v) :: cells

/-- What `deref` does with a key of index `i`, which holds the indexed columns and no value: the row
is fetched by its primary key. -/
def fetchRow (t : BTree σ) (tdef : TableDef) (i : Nat) (key val : Bytes) : Except Fault Record := do
  require (val = []) (.asserts .scanIndexVal)
  let (_, cols) ← scannedTree tdef (some i)
  let types ← columnTypes tdef cols
  let vals ← decodeKey key types
  let cells ← keyCells (.ofCols cols vals) tdef.keyCols
  match ← dbGet t tdef ⟨cells⟩ with
  | .error _ => .error (.asserts .scanFound)
  | .ok row => return row

/-- The current row, in the table's column order. -/
def Scanner.deref (sc : Scanner) (t : BTree σ) (tdef : TableDef) : Except Fault Record :=
  match sc.indexNo with
  | none => sc.derefRow tdef
  | some i => do
      sc.assertValid
      let (key, val) ← sc.iter.deref
      fetchRow t tdef i key val

/-- `while (sc.valid()) { sc.deref(&rec); sc.next(); }`, as a caller reads a range. -/
def Scanner.collect (t : BTree σ) (tdef : TableDef) : Nat → Scanner → Except Fault (List Record)
  | fuel, sc => do
      let valid ← sc.valid
      if valid then
        match fuel with
        | 0 => .error .diverges
        | fuel + 1 => do
            let rec ← sc.deref t tdef
            let sc ← sc.next t
            let rest ← sc.collect t tdef fuel
            return rec :: rest
      else
        return []

end Calls

end SqlDb
