import SqlDb.Base.Bytes
import SqlDb.Base.Fault
import SqlDb.Base.Outcome

/-!
# The B+tree node, byte by byte

A node is one buffer of bytes: a header (type and key count), the child pointers,
a table of end offsets, and the packed key-value records. Every accessor computes
its position from the key count and reads the buffer; every node is built by
setting the header and appending its entries in order.

The functions here are the source's, in its order. What they mean as operations
on lists of entries is proved in `SqlDb/Storage/NodeProof.lean`.
-/

namespace SqlDb

open Outcome

/-- An internal node, with child page pointers. -/
def bnodeNode : Nat := 1

/-- A leaf, with values. -/
def bnodeLeaf : Nat := 2

def btreePageSize : Nat := 4096
def btreeMaxKeySize : Nat := 1000
def btreeMaxValSize : Nat := 1000

/-- A node's buffer. Usually one page, two while an insert builds it. -/
structure BNode where
  data : Bytes
deriving DecidableEq

namespace BNode

/-- A buffer of zeros. -/
def zeroed (size : Nat) : BNode := ⟨List.replicate size 0⟩

def size (n : BNode) : Nat := n.data.length

/-! ## Header -/

def btype (n : BNode) : Nat := Bytes.readU16 n.data 0

def nkeys (n : BNode) : Nat := Bytes.readU16 n.data 2

def setHeader (n : BNode) (type nkeys : Nat) : BNode :=
  ⟨Bytes.writeU16 (Bytes.writeU16 n.data 0 type) 2 nkeys⟩

/-! ## Layout helpers -/

def ptrsOffset : Nat := 4

def offsetsOffset (n : BNode) : Nat := ptrsOffset + n.nkeys * 8

def kvBaseOffset (n : BNode) : Nat := n.offsetsOffset + n.nkeys * 2

/-! ## Child pointers -/

def getPtr (n : BNode) (idx : Nat) : Nat := Bytes.readU64 n.data (ptrsOffset + idx * 8)

def setPtr (n : BNode) (idx ptr : Nat) : BNode :=
  ⟨Bytes.writeU64 n.data (ptrsOffset + idx * 8) ptr⟩

/-! ## The offset table -/

/-- Where the record at `idx` starts; the slot before it holds the number, and slot 0 needs none. -/
def getOffset (n : BNode) (idx : Nat) : Nat :=
  if idx = 0 then 0 else Bytes.readU16 n.data (n.offsetsOffset + (idx - 1) * 2)

def setOffset (n : BNode) (idx offset : Nat) : BNode :=
  ⟨Bytes.writeU16 n.data (n.offsetsOffset + (idx - 1) * 2) offset⟩

/-! ## Records -/

def kvPos (n : BNode) (idx : Nat) : Nat := n.kvBaseOffset + n.getOffset idx

def getKey (n : BNode) (idx : Nat) : Bytes :=
  let pos := n.kvPos idx
  let klen := Bytes.readU16 n.data pos
  Bytes.readAt n.data (pos + 4) klen

def getVal (n : BNode) (idx : Nat) : Bytes :=
  let pos := n.kvPos idx
  let klen := Bytes.readU16 n.data pos
  let vlen := Bytes.readU16 n.data (pos + 2)
  Bytes.readAt n.data (pos + 4 + klen) vlen

/-- The bytes in use, as a `uint16_t`. -/
def nbytes (n : BNode) : Nat := n.kvPos n.nkeys % 2 ^ 16

/-- Writes the record at `idx`, which must follow the ones before it. -/
def nodeAppendKv (n : BNode) (idx ptr : Nat) (key val : Bytes) : Except Fault BNode := do
  let n := n.setPtr idx ptr
  let pos := n.kvPos idx
  let klen := key.length % 2 ^ 16
  let vlen := val.length % 2 ^ 16
  require (key.length ≤ btreeMaxKeySize) (.asserts .appendKey)
  require (val.length ≤ btreeMaxValSize) (.asserts .appendVal)
  require (pos + 4 + klen + vlen ≤ n.size) (.asserts .appendSize)
  let n : BNode := ⟨Bytes.writeU16 n.data (pos + 0) klen⟩
  let n : BNode := ⟨Bytes.writeU16 n.data (pos + 2) vlen⟩
  let n : BNode := ⟨Bytes.writeAt n.data (pos + 4) key⟩
  let n : BNode := ⟨Bytes.writeAt n.data (pos + 4 + klen) val⟩
  return n.setOffset (idx + 1) (n.getOffset idx + 4 + klen + vlen)

end BNode

/-! ## encode / decode -/

/-- The used part of a node, padded to a page. -/
def encode (node : BNode) : Except Fault Bytes := do
  let used := node.nbytes
  require (used ≤ btreePageSize) (.asserts .encodeUsed)
  return Bytes.writeAt (List.replicate btreePageSize 0) 0 (Bytes.readAt node.data 0 used)

/-- A page as a node. -/
def decode (page : Bytes) : Except Fault BNode := do
  require (page.length = btreePageSize) (.asserts .decodeSize)
  return ⟨page⟩

/-! ## Leaf insert / update / delete -/

/-- Copies `n` entries from `old`, one at a time. -/
def nodeAppendRange (newNode old : BNode) (dstNew srcOld : Nat) : Nat → Except Fault BNode
  | 0 => return newNode
  | n + 1 => do
      let newNode ← newNode.nodeAppendKv dstNew (old.getPtr srcOld) (old.getKey srcOld)
        (old.getVal srcOld)
      nodeAppendRange newNode old (dstNew + 1) (srcOld + 1) n

def leafInsert (newNode old : BNode) (idx : Nat) (key val : Bytes) : Except Fault BNode := do
  let newNode := newNode.setHeader bnodeLeaf (old.nkeys + 1)
  let newNode ← nodeAppendRange newNode old 0 0 idx
  let newNode ← newNode.nodeAppendKv idx 0 key val
  nodeAppendRange newNode old (idx + 1) idx (old.nkeys - idx)

def leafUpdate (newNode old : BNode) (idx : Nat) (key val : Bytes) : Except Fault BNode := do
  let newNode := newNode.setHeader bnodeLeaf old.nkeys
  let newNode ← nodeAppendRange newNode old 0 0 idx
  let newNode ← newNode.nodeAppendKv idx 0 key val
  nodeAppendRange newNode old (idx + 1) (idx + 1) (old.nkeys - (idx + 1))

def leafDelete (newNode old : BNode) (idx : Nat) : Except Fault BNode := do
  let newNode := newNode.setHeader bnodeLeaf (old.nkeys - 1)
  let newNode ← nodeAppendRange newNode old 0 0 idx
  nodeAppendRange newNode old idx (idx + 1) (old.nkeys - (idx + 1))

/-! ## Merge -/

def nodeMerge (newNode left right : BNode) : Except Fault BNode := do
  let newNode := newNode.setHeader left.btype (left.nkeys + right.nkeys)
  let newNode ← nodeAppendRange newNode left 0 0 left.nkeys
  nodeAppendRange newNode right left.nkeys 0 right.nkeys

def nodeReplace2Child (newNode old : BNode) (idx ptr : Nat) (key : Bytes) :
    Except Fault BNode := do
  let newNode := newNode.setHeader bnodeNode (old.nkeys - 1)
  let newNode ← nodeAppendRange newNode old 0 0 idx
  let newNode ← newNode.nodeAppendKv idx ptr key []
  nodeAppendRange newNode old (idx + 1) (idx + 2) (old.nkeys - (idx + 2))

/-! ## Lookup -/

/-- The `while (lo <= hi)` loop; each round shortens `[lo, hi]`, so `fuel` its length suffices. -/
def nodeLookupLeLoop (node : BNode) (key : Bytes) : Nat → Int → Int → Int → Int
  | 0, _, _, result => result
  | fuel + 1, lo, hi, result =>
      if lo ≤ hi then
        let mid := lo + (hi - lo) / 2
        let cur := node.getKey mid.toNat
        if cur = key then mid
        else if cur < key then nodeLookupLeLoop node key fuel (mid + 1) hi mid
        else nodeLookupLeLoop node key fuel lo (mid - 1) result
      else result

/-- The last position whose key is at or below `key`, or -1. -/
def nodeLookupLe (node : BNode) (key : Bytes) : Int :=
  nodeLookupLeLoop node key node.nkeys 0 (node.nkeys - 1) (-1)

/-! ## Split -/

/-- The bytes of the first `nleft` entries as a node of their own. -/
def leftBytes (old : BNode) (nleft : Nat) : Nat :=
  (4 + 8 * nleft + 2 * nleft + old.getOffset nleft) % 2 ^ 16

/-- The bytes of the other entries. -/
def rightBytes (old : BNode) (nleft : Nat) : Nat :=
  (old.nbytes + 2 ^ 16 - leftBytes old nleft + 4) % 2 ^ 16

/-- `while (left_bytes > BTREE_PAGE_SIZE) --nleft` -/
def splitShrink (old : BNode) : Nat → Nat
  | 0 => 0
  | nleft + 1 =>
      if leftBytes old (nleft + 1) > btreePageSize then splitShrink old nleft else nleft + 1

/-- `while (right_bytes > BTREE_PAGE_SIZE) ++nleft` -/
def splitGrow (old : BNode) : Nat → Nat → Except Fault Nat
  | 0, _ => .error .diverges
  | fuel + 1, nleft =>
      if rightBytes old nleft > btreePageSize then splitGrow old fuel (nleft + 1) else .ok nleft

def nodeSplit (left right old : BNode) : Except Fault (BNode × BNode) := do
  require (old.nkeys ≥ 2) (.asserts .splitKeys)
  let nleft := splitShrink old (old.nkeys / 2)
  require (nleft ≥ 1) (.asserts .splitNleft)
  let nleft ← splitGrow old (old.nkeys + 1) nleft
  require (nleft < old.nkeys) (.asserts .splitNright)
  let nright := old.nkeys - nleft
  let left := left.setHeader old.btype nleft
  let right := right.setHeader old.btype nright
  let left ← nodeAppendRange left old 0 0 nleft
  let right ← nodeAppendRange right old 0 nleft nright
  require (left.nbytes ≤ btreePageSize) (.asserts .splitLeftBytes)
  require (right.nbytes ≤ btreePageSize) (.asserts .splitRightBytes)
  return (left, right)

def nodeSplitIfNeeded (node : BNode) : Except Fault (List BNode) := do
  if node.nbytes ≤ btreePageSize then
    return [node]
  let (left, right) ← nodeSplit (.zeroed btreePageSize) (.zeroed btreePageSize) node
  return [left, right]

end SqlDb
