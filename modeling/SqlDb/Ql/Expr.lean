import SqlDb.Catalog.Record

/-!
# Expressions

What a statement is parsed to: literals and column names at the leaves, and above them one
constructor for each shape a node can have. An expression is evaluated against a row, and
the answer is a value or a text. A boolean is the integer 0 or 1, and both sides of AND
and OR are always evaluated.
-/

namespace SqlDb

inductive QLCmp where
  | ge
  | gt
  | lt
  | le
  | eq
  | ne
deriving DecidableEq, Repr

inductive QLArith where
  | add
  | sub
  | mul
  | div
  | mod
deriving DecidableEq, Repr

inductive QLLogic where
  | and
  | or
deriving DecidableEq, Repr

/-- An expression. What has kids has as many as its tag wants. -/
inductive QLNode where
  /-- An absent clause. -/
  | uninit
  | int64 (v : Int64)
  | str (v : Bytes)
  /-- A column's name. -/
  | sym (name : Bytes)
  /-- `*` in a SELECT list. -/
  | star
  | tup (kids : List QLNode)
  | cmp (type : QLCmp) (lhs rhs : QLNode)
  | arith (type : QLArith) (lhs rhs : QLNode)
  | logic (type : QLLogic) (lhs rhs : QLNode)
  | not (kid : QLNode)
  | neg (kid : QLNode)

def makeBool (v : Bool) : Value := .int64 (if v then 1 else 0)

/-- `compare`: strings order lexicographically. -/
def qlCompare (lhs rhs : Value) : Except Bytes Ordering :=
  if lhs.type ≠ rhs.type then .error (.ofString "cannot compare a number with a string")
  else .ok (lhs.compare rhs)

/-- `cmp_holds` -/
def QLCmp.holds : QLCmp → Ordering → Bool
  | .eq, c => c = .eq
  | .ne, c => c ≠ .eq
  | .lt, c => c = .lt
  | .le, c => c ≠ .gt
  | .gt, c => c = .gt
  | .ge, c => c ≠ .lt

/-- The exact result, where it is an `int64_t`. -/
def inInt64 (r : Int) : Except Bytes Int64 :=
  if Int64.minValue.toInt ≤ r ∧ r ≤ Int64.maxValue.toInt then .ok (.ofInt r)
  else .error (.ofString "integer overflow")

/-- `arith`: division rounds toward zero. -/
def QLArith.apply (type : QLArith) (a b : Int64) : Except Bytes Int64 :=
  match type with
  | .add => inInt64 (a.toInt + b.toInt)
  | .sub => inInt64 (a.toInt - b.toInt)
  | .mul => inInt64 (a.toInt * b.toInt)
  | .div =>
      if b = 0 then .error (.ofString "division by zero")
      else if a = .minValue ∧ b = -1 then .error (.ofString "integer overflow")
      else .ok (a / b)
  | .mod =>
      if b = 0 then .error (.ofString "modulo by zero")
      else if a = .minValue ∧ b = -1 then .error (.ofString "integer overflow")
      else .ok (a % b)

def QLLogic.name : QLLogic → Bytes
  | .and => .ofString "AND"
  | .or => .ofString "OR"

def QLLogic.apply : QLLogic → Bool → Bool → Bool
  | .and, lhs, rhs => lhs && rhs
  | .or, lhs, rhs => lhs || rhs

/-- The number in a value, where the expression needs one. -/
def Value.number (v : Value) (err : Bytes) : Except Bytes Int64 :=
  match v with
  | .int64 n => .ok n
  | _ => .error err

/-- The numbers in two values, where the expression needs both. -/
def numbers (a b : Value) (err : Bytes) : Except Bytes (Int64 × Int64) :=
  match a, b with
  | .int64 n, .int64 k => .ok (n, k)
  | _, _ => .error err

/-- `ql_eval`: the value, or the text it sets. -/
def qlEval : QLNode → Record → Except Bytes Value
  | .int64 v, _ => .ok (.int64 v)
  | .str v, _ => .ok (.bytes v)
  | .sym name, env =>
      match env.get name with
      | some v => .ok v
      | none => .error (.ofString "unknown column: " ++ name)
  | .neg kid, env => do
      let v ← qlEval kid env
      let n ← v.number (.ofString "unary minus needs a number")
      let r ← QLArith.sub.apply 0 n
      return .int64 r
  | .not kid, env => do
      let v ← qlEval kid env
      let n ← v.number (.ofString "NOT needs a boolean")
      return makeBool (n = 0)
  | .logic type lhs rhs, env => do
      let a ← qlEval lhs env
      let b ← qlEval rhs env
      let (n, k) ← numbers a b (type.name ++ .ofString " needs booleans")
      return makeBool (type.apply (n ≠ 0) (k ≠ 0))
  | .cmp type lhs rhs, env => do
      let a ← qlEval lhs env
      let b ← qlEval rhs env
      let c ← qlCompare a b
      return makeBool (type.holds c)
  | .arith type lhs rhs, env => do
      let a ← qlEval lhs env
      let b ← qlEval rhs env
      let (n, k) ← numbers a b (.ofString "arithmetic needs numbers")
      let r ← type.apply n k
      return .int64 r
  | .tup _, _ => .error (.ofString "a tuple is not a value")
  | .star, _ => .error (.ofString "* is only valid in a SELECT list")
  | .uninit, _ => .error (.ofString "empty expression")

@[simp] theorem qlEval_int64 (v : Int64) (env : Record) : qlEval (.int64 v) env = .ok (.int64 v) := by
  rw [qlEval]

end SqlDb
