import SqlDb.Base.Bytes

/-!
# Values

A column's type and a cell's value. Only the field that matches a value's type means
anything, so a value is one of three things.
-/

namespace SqlDb

inductive ValueType where
  | error
  | int64
  | bytes
deriving DecidableEq, Repr

inductive Value where
  | error
  | int64 (v : Int64)
  | bytes (str : Bytes)
deriving DecidableEq

def Value.type : Value → ValueType
  | .error => .error
  | .int64 _ => .int64
  | .bytes _ => .bytes

/-- Integers by number, strings as unsigned bytes with a proper prefix first. -/
def Value.compare : Value → Value → Ordering
  | .int64 v, .int64 w => cmp v.toInt w.toInt
  | .bytes s, .bytes t => cmp s t
  | _, _ => .eq

theorem Value.compare_swap (v w : Value) : (v.compare w).swap = w.compare v := by
  cases v <;> cases w <;> first | rfl | exact cmp_swap _ _

/-- Column by column. -/
def compareValues : List Value → List Value → Ordering
  | x :: xs, y :: ys => (x.compare y).then (compareValues xs ys)
  | _, _ => .eq

end SqlDb
