import SqlDb.Base.Fault
import SqlDb.Base.Outcome
import SqlDb.Catalog.Value

/-!
# The order-preserving encoding

Values of the same types are ordered as their encodings are, so that keys sort in the
tree as rows do. Integers have their sign bit flipped and are stored big-endian; strings
are escaped so that no byte of them is the terminator, and so that none starts with
`0xff`, which is reserved.

The decoders read at a position of the whole string, and check before they read.
-/

namespace SqlDb

open Outcome

def signBit : UInt64 := 0x8000000000000000

/-! ## Integers -/

def encodeInt64 (v : Int64) : Bytes := Bytes.be 8 (v.toUInt64 + signBit).toNat

/-- `data[i]` -/
def byteAt (data : Bytes) (i : Nat) : Except Fault UInt8 :=
  match data[i]? with
  | some b => .ok b
  | none => .error .outOfBounds

/-- The loop of `decode_int64`: `n` more bytes from `pos` on. -/
def decodeDigits (data : Bytes) : Nat → Nat → Nat → Except Fault Nat
  | 0, _, u => .ok u
  | n + 1, pos, u => do
      let b ← byteAt data pos
      decodeDigits data n (pos + 1) (u * 256 + b.toNat)

/-- The value, and the position after it. -/
def decodeInt64 (data : Bytes) (pos : Nat) : Except Fault (Int64 × Nat) := do
  require (pos + 8 ≤ data.length) (.throws "order_preserving: truncated int64")
  let u ← decodeDigits data 8 pos 0
  return ((UInt64.ofNat u - signBit).toInt64, pos + 8)

/-! ## Strings -/

/-- Does `s` start with `0xfe` or `0xff`? -/
def startsHigh (s : Bytes) : Bool :=
  match s with
  | [] => false
  | c :: _ => 0xfe ≤ c

def escapeByte (c : UInt8) : Bytes := if c ≤ 1 then [1, c + 1] else [c]

def escapeString (s : Bytes) : Bytes :=
  (if startsHigh s then [0xfe] else []) ++ s.flatMap escapeByte

def badEscape : Fault := .throws "order_preserving: bad escape sequence"

/-- The loop of `unescape_string`. -/
def unescapeLoop : Bytes → Except Fault Bytes
  | [] => .ok []
  | c :: s =>
      if c ≠ 1 then do
        let out ← unescapeLoop s
        return c :: out
      else
        match s with
        | [] => .error badEscape
        | d :: s =>
            if d ≠ 1 ∧ d ≠ 2 then .error badEscape
            else do
              let out ← unescapeLoop s
              return (d - 1) :: out

def unescapeString (s : Bytes) : Except Fault Bytes :=
  if startsHigh s then do
    require (s.head? = some 0xfe ∧ startsHigh s.tail = true) badEscape
    unescapeLoop s.tail
  else
    unescapeLoop s

def encodeBytes (s : Bytes) : Bytes := escapeString s ++ [0]

/-- `data.find(c, pos)` -/
def findFrom (data : Bytes) (c : UInt8) (pos : Nat) : Option Nat :=
  ((data.drop pos).findIdx? fun b => b = c).map fun i => pos + i

/-- `data.substr(pos, n)` -/
def substr (data : Bytes) (pos n : Nat) : Bytes := (data.drop pos).take n

def decodeBytes (data : Bytes) (pos : Nat) : Except Fault (Bytes × Nat) :=
  match findFrom data 0 pos with
  | none => .error (.throws "order_preserving: unterminated bytes")
  | some stop => do
      let s ← unescapeString (substr data pos (stop - pos))
      return (s, stop + 1)

/-! ## Tuples -/

def encodeValue : Value → Except Fault Bytes
  | .int64 v => .ok (encodeInt64 v)
  | .bytes s => .ok (encodeBytes s)
  | .error => .error (.throws "order_preserving: cannot encode an ERROR value")

def encodeValues : List Value → Except Fault Bytes
  | [] => .ok []
  | v :: values => do
      let out ← encodeValue v
      let rest ← encodeValues values
      return out ++ rest

/-- One value for a slot of this type. -/
def decodeValue (data : Bytes) (type : ValueType) (pos : Nat) : Except Fault (Value × Nat) :=
  match type with
  | .int64 => do
      let (v, pos) ← decodeInt64 data pos
      return (.int64 v, pos)
  | .bytes => do
      let (s, pos) ← decodeBytes data pos
      return (.bytes s, pos)
  | .error => .error (.throws "order_preserving: cannot decode into an ERROR slot")

/-- The loop of `decode_values`, over the slots' types. -/
def decodeSlots (data : Bytes) : List ValueType → Nat → Except Fault (List Value × Nat)
  | [], pos => .ok ([], pos)
  | type :: types, pos => do
      let (v, pos) ← decodeValue data type pos
      let (values, pos) ← decodeSlots data types pos
      return (v :: values, pos)

def decodeValues (data : Bytes) (types : List ValueType) : Except Fault (List Value) := do
  let (values, pos) ← decodeSlots data types 0
  require (pos = data.length) (.throws "order_preserving: trailing bytes after the last value")
  return values

end SqlDb
