import SqlDb.Access.Scanner
import SqlDb.Ql.Expr

/-!
# The range of a filter

A filter narrows what a scan reads. The comparisons it ANDs together, of a column with an
expression that needs no row, bound the column; the index that most of these bounds fit is
taken, and its leading columns make the two keys. The filter still runs on every row that
is read.
-/

namespace SqlDb

/-- What the AND-ed comparisons pin down for one column. -/
structure ColBound where
  hasEq : Bool := false
  hasLo : Bool := false
  hasHi : Bool := false
  /-- `>` rather than `>=` -/
  loOpen : Bool := false
  /-- `<` rather than `<=` -/
  hiOpen : Bool := false
  eq : Value := .error
  lo : Value := .error
  hi : Value := .error
deriving DecidableEq

/-- By column. Nothing depends on the order. -/
abbrev Bounds := List (Bytes × ColBound)

namespace Bounds

def find (bounds : Bounds) (col : Bytes) : Option ColBound :=
  (bounds.find? fun b => b.1 = col).map Prod.snd

/-- `at` -/
def fetch (bounds : Bounds) (col : Bytes) : Except Fault ColBound :=
  match bounds.find col with
  | some b => .ok b
  | none => .error (.throws "map::at")

/-- Changes `(*out)[col]`, which is made if it is not there. -/
def modify (col : Bytes) (f : ColBound → ColBound) : Bounds → Bounds
  | [] => [(col, f {})]
  | b :: bounds => if b.1 = col then (col, f b.2) :: bounds else b :: modify col f bounds

end Bounds

/-- Of two values of one type. -/
def valueLess (a b : Value) : Bool := a.compare b = .lt

/-- The operator with its sides swapped, so `5 < a` reads as `a > 5`. -/
def QLCmp.flip : QLCmp → QLCmp
  | .lt => .gt
  | .le => .ge
  | .gt => .lt
  | .ge => .le
  | type => type

/-- A comparison that can bound a column. -/
def QLCmp.isComparison (type : QLCmp) : Bool :=
  type = .eq ∨ type = .lt ∨ type = .le ∨ type = .gt ∨ type = .ge

/-- The first equality counts, and the tightest of the bounds on a side. -/
def ColBound.add (op : QLCmp) (v : Value) (b : ColBound) : ColBound :=
  match op with
  | .eq => if ¬ b.hasEq then { b with hasEq := true, eq := v } else b
  | .gt | .ge =>
      if ¬ b.hasLo ∨ valueLess b.lo v then { b with hasLo := true, loOpen := op = .gt, lo := v }
      else b
  | .lt | .le =>
      if ¬ b.hasHi ∨ valueLess v b.hi then { b with hasHi := true, hiOpen := op = .lt, hi := v }
      else b
  | .ne => b

def addBound (op : QLCmp) (col : Bytes) (v : Value) (out : Bounds) : Bounds :=
  out.modify col (ColBound.add op v)

/-- A comparison of a column with a constant. -/
structure Pin where
  op : QLCmp
  col : Bytes
  v : Value
deriving DecidableEq

/-- A comparison with the constant `val`, of the column's type. A constant is whatever evaluates
against no row at all. -/
def pinColumn (tdef : TableDef) (op : QLCmp) (name : Bytes) (val : QLNode) : Option Pin :=
  match colIndex tdef name with
  | none => none
  | some i =>
      match qlEval val {} with
      | .error _ => none
      | .ok v => if tdef.types[i]? ≠ some v.type then none else some ⟨op, name, v⟩

/-- What `collect` reads in one comparison, the column being on the left or else on the right. -/
def pin (tdef : TableDef) (op : QLCmp) (lhs rhs : QLNode) : Option Pin :=
  if ¬ op.isComparison then none
  else
    match lhs, rhs with
    | .sym name, val => pinColumn tdef op name val
    | val, .sym name => pinColumn tdef op.flip name val
    | _, _ => none

/-- Collects the comparisons the filter ANDs together. -/
def collect (tdef : TableDef) : QLNode → Bounds → Bounds
  | .logic .and lhs rhs, out => collect tdef rhs (collect tdef lhs out)
  | .cmp type lhs rhs, out =>
      match pin tdef type lhs rhs with
      | none => out
      | some p => addBound p.op p.col p.v out
  | _, out => out

/-- How much of an index the bounds pin down: a run of equality columns, then at most one range
column. -/
structure Fit where
  eq : Nat := 0
  range : Bool := false
deriving DecidableEq, Repr

def Fit.score (f : Fit) : Nat := f.eq * 2 + if f.range then 1 else 0

def fitCols (bounds : Bounds) : List Bytes → Fit
  | [] => {}
  | col :: cols =>
      match bounds.find col with
      | none => {}
      | some b =>
          if b.hasEq then
            let f := fitCols bounds cols
            { f with eq := f.eq + 1 }
          else { range := b.hasLo ∨ b.hasHi }

/-- The columns that fit best so far. -/
structure BestFit where
  cols : List Bytes
  fit : Fit
  isPk : Bool

/-- The loop over the indexes. A tie keeps what came first, the primary key before all. -/
def bestFitLoop (bounds : Bounds) : List (List Bytes) → BestFit → BestFit
  | [], best => best
  | index :: indexes, best =>
      let f := fitCols bounds index
      if f.score > best.fit.score then bestFitLoop bounds indexes ⟨index, f, false⟩
      else bestFitLoop bounds indexes best

/-- The bounds a scanner is built from. Empty keys mean a full scan of the primary key. -/
structure QLRange where
  cmp1 : CMP := .ge
  cmp2 : CMP := .le
  key1 : Record := {}
  key2 : Record := {}
deriving DecidableEq

/-- The scanner's request. -/
def QLRange.req (range : QLRange) : ScanReq := ⟨range.cmp1, range.cmp2, range.key1, range.key2⟩

/-- The equality columns, which both keys start with. -/
def eqCells (bounds : Bounds) : List Bytes → Except Fault (List (Bytes × Value))
  | [] => .ok []
  | col :: cols => do
      let b ← bounds.fetch col
      let cells ← eqCells bounds cols
      return (col, b.eq) :: cells

/-- What the range column adds to each key. -/
def rangeEnds (out : QLRange) (col : Bytes) (b : ColBound) : QLRange :=
  let out :=
    if b.hasLo then
      { out with key1 := out.key1.add col b.lo, cmp1 := if b.loOpen then .gt else .ge }
    else out
  if b.hasHi then
    { out with key2 := out.key2.add col b.hi, cmp2 := if b.hiOpen then .lt else .le }
  else out

/-- The two keys of an index that fits. -/
def planKeys (bounds : Bounds) (cols : List Bytes) (fit : Fit) : Except Fault QLRange := do
  let cells ← eqCells bounds (cols.take fit.eq)
  let out : QLRange := { key1 := ⟨cells⟩, key2 := ⟨cells⟩ }
  if fit.range then
    match cols[fit.eq]? with
    | none => .error .outOfBounds
    | some col => do
        let b ← bounds.fetch col
        return rangeEnds out col b
  else
    return out

/-- The best of the primary key and the indexes. -/
def bestFit (bounds : Bounds) (tdef : TableDef) : BestFit :=
  bestFitLoop bounds tdef.indexes ⟨tdef.keyCols, fitCols bounds tdef.keyCols, true⟩

/-- The index that is scanned is read off the first key alone, so a first key without columns always
selects the primary key. -/
def planRange (bounds : Bounds) (tdef : TableDef) : Except Fault QLRange :=
  if bounds.isEmpty then .ok {}
  else
    let best := bestFit bounds tdef
    if best.fit.score = 0 then .ok {}
    else do
      let out ← planKeys bounds best.cols best.fit
      if out.key1.cells = [] ∧ ¬ best.isPk then return {} else return out

def qlRange (filter : QLNode) (tdef : TableDef) : Except Fault QLRange :=
  match filter with
  | .uninit => .ok {}
  | filter => planRange (collect tdef filter []) tdef

end SqlDb
