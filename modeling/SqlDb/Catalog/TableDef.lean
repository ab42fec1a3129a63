import Mathlib.Data.Nat.Digits.Defs
import SqlDb.Catalog.Value

/-!
# Table definitions and their text

A definition is stored as text: the name on a line of its own, then numbers and names
set apart by spaces and newlines, each list after its length. It is read back token by
token, the way an input stream reads: `>>` skips white space, takes what fits the type
and leaves the rest, and a failed read is final.

A stream is the text that is left of it.
-/

namespace SqlDb

structure TableDef where
  name : Bytes := []
  /-- Column types, parallel to `cols`. -/
  types : List ValueType := []
  cols : List Bytes := []
  /-- The first `pkeys` columns form the primary key. -/
  pkeys : Int := 0
  /-- Secondary index columns. -/
  indexes : List (List Bytes) := []
  /-- The number that the keys of the table's rows start with. -/
  keyPrefix : Nat := 0
  /-- Parallel to `indexes`. -/
  indexPrefixes : List Nat := []
deriving DecidableEq

/-- The number of a type in the source's enumeration. -/
def ValueType.raw : ValueType → Nat
  | .error => 0
  | .int64 => 1
  | .bytes => 2

/-- The cast back. A number that is no type's is undefined in the source; here it is `ERROR`. -/
def ValueType.ofRaw (raw : Nat) : ValueType :=
  if raw = 1 then .int64 else if raw = 2 then .bytes else .error

theorem ValueType.ofRaw_raw (type : ValueType) : ofRaw type.raw = type := by
  cases type <;> rfl

/-! ## Building -/

def TableDef.addCol (tdef : TableDef) (name : Bytes) (type : ValueType) : TableDef :=
  { tdef with cols := tdef.cols ++ [name], types := tdef.types ++ [type] }

def TableDef.setPkeys (tdef : TableDef) (pkeys : Int) : TableDef := { tdef with pkeys := pkeys }

/-! ## Writing -/

def newline : UInt8 := 10
def space : UInt8 := 32

def digit (d : Nat) : UInt8 := UInt8.ofNat (48 + d)

/-- A number as `<<` writes it. -/
def decimal (n : Nat) : Bytes :=
  if n = 0 then [digit 0] else ((Nat.digits 10 n).map digit).reverse

def decimalInt (n : Int) : Bytes :=
  if n < 0 then 45 :: decimal n.natAbs else decimal n.toNat

def colText (col : Bytes × ValueType) : Bytes := col.1 ++ [space] ++ decimal col.2.raw

/-- Words in a row, each after a space. -/
def wordsText (words : List Bytes) : Bytes := words.flatMap fun word => space :: word

def indexText (index : List Bytes) : Bytes := decimal index.length ++ wordsText index

/-- Lines in a row, each with its end. -/
def linesText (lines : List Bytes) : Bytes := lines.flatMap fun line => line ++ [newline]

def encodeTableDef (tdef : TableDef) : Bytes :=
  linesText [tdef.name, decimalInt tdef.pkeys, decimal tdef.keyPrefix, decimal tdef.cols.length] ++
    linesText ((tdef.cols.zip tdef.types).map colText) ++
    linesText [decimal tdef.indexes.length] ++
    linesText (tdef.indexes.map indexText) ++
    linesText [decimal tdef.indexPrefixes.length ++ wordsText (tdef.indexPrefixes.map decimal)]

/-! ## Reading -/

/-- White space, as `>>` skips it. -/
def isSpace (c : UInt8) : Bool := c = 32 ∨ (9 ≤ c ∧ c ≤ 13)

theorem isSpace_of_ge {c : UInt8} (h : 48 ≤ c.toNat) : isSpace c = false := by
  have h32 : (32 : UInt8).toNat = 32 := rfl
  have h13 : (13 : UInt8).toNat = 13 := rfl
  rw [isSpace, decide_eq_false_iff_not, ← UInt8.toNat_inj, UInt8.le_iff_toNat_le,
    UInt8.le_iff_toNat_le]
  omega

def isDigit (c : UInt8) : Bool := 48 ≤ c ∧ c ≤ 57

/-- A read: what was read and what is left, or nothing and the stream has failed. -/
abbrev Reader (α : Type) := Bytes → Option (α × Bytes)

/-- `std::getline` -/
def readLine : Reader Bytes := fun s =>
  if s = [] then none
  else some (s.takeWhile (· ≠ newline), (s.dropWhile (· ≠ newline)).drop 1)

/-- `>>` into a string: the next word. -/
def readWord : Reader Bytes := fun s =>
  let s := s.dropWhile isSpace
  let word := s.takeWhile fun c => !isSpace c
  if word = [] then none else some (word, s.dropWhile fun c => !isSpace c)

def digitsValue (digits : Bytes) : Nat := digits.foldl (fun u c => u * 10 + (c.toNat - 48)) 0

/-- A sign, if there is one, and the digits. -/
def readDigits : Reader (Bool × Nat) := fun s =>
  let s := s.dropWhile isSpace
  let negative := s.head? = some 45
  let s := if s.head? = some 45 ∨ s.head? = some 43 then s.drop 1 else s
  let digits := s.takeWhile isDigit
  if digits = [] then none else some ((negative, digitsValue digits), s.dropWhile isDigit)

/-- `>>` into an unsigned integer of `bits` bits; a minus sign wraps. -/
def readUnsigned (bits : Nat) : Reader Nat := fun s => do
  let ((negative, n), s) ← readDigits s
  if n < 2 ^ bits then
    return (if negative then (2 ^ bits - n) % 2 ^ bits else n, s)
  else
    none

/-- `>>` into an `int`. -/
def readInt : Reader Int := fun s => do
  let ((negative, n), s) ← readDigits s
  let n : Int := if negative then -n else n
  if -2147483648 ≤ n ∧ n ≤ 2147483647 then return (n, s) else none

/-- A loop of `n` reads. -/
def readMany {α : Type} (read : Reader α) : Nat → Reader (List α)
  | 0, s => some ([], s)
  | n + 1, s => do
      let (x, s) ← read s
      let (xs, s) ← readMany read n s
      return (x :: xs, s)

def readCol : Reader (Bytes × Nat) := fun s => do
  let (col, s) ← readWord s
  let (raw, s) ← readUnsigned 32 s
  return ((col, raw), s)

def readIndex : Reader (List Bytes) := fun s => do
  let (n, s) ← readUnsigned 64 s
  readMany readWord n s

def decodeTableDef (data : Bytes) : Option TableDef := do
  let (name, s) ← readLine data
  let (pkeys, s) ← readInt s
  let (keyPrefix, s) ← readUnsigned 32 s
  let (ncols, s) ← readUnsigned 64 s
  let s := s.drop 1 -- the trailing newline
  let (cols, s) ← readMany readCol ncols s
  let (nindexes, s) ← readUnsigned 64 s
  let (indexes, s) ← readMany readIndex nindexes s
  let (nprefixes, s) ← readUnsigned 64 s
  let (indexPrefixes, _) ← readMany (readUnsigned 32) nprefixes s
  return {
    name := name
    types := cols.map fun col => .ofRaw col.2
    cols := cols.map Prod.fst
    pkeys := pkeys
    indexes := indexes
    keyPrefix := keyPrefix
    indexPrefixes := indexPrefixes }

end SqlDb
