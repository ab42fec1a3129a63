import SqlDb.Base.Bytes
import SqlDb.Base.Fault
import SqlDb.Base.Outcome
import SqlDb.Storage.Node

/-!
# The free list

Page numbers that are free to reuse, in an unrolled linked list that lives in the
pages it manages. A node is one page: the number of the next node, then slots of a
page number and the version that freed it. Positions in the list are counters that
never fall; a counter modulo the node capacity is the slot.

A buffer handed out by `write_page` is modelled by the function that updates it.
The counters are natural numbers, and a call that would push one out of `uint64_t`
is an `overflow`.
-/

namespace SqlDb

open Outcome

def freeListHeader : Nat := 8
def freeListItemSize : Nat := 16
def freeListCap : Nat := (btreePageSize - freeListHeader) / freeListItemSize

/-- Is version `a` older than `b`? The signed distance between them decides, as in the source. -/
def versionBefore (a b : Nat) : Bool := (a + 2 ^ 64 - b % 2 ^ 64) % 2 ^ 64 ≥ 2 ^ 63

/-! ## A list node -/

namespace LNode

def slot (idx : Nat) : Nat := freeListHeader + idx * freeListItemSize

def next (page : Bytes) : Nat := Bytes.readU64 page 0

def getPtr (page : Bytes) (idx : Nat) : Nat := Bytes.readU64 page (slot idx)

def getVersion (page : Bytes) (idx : Nat) : Nat := Bytes.readU64 page (slot idx + 8)

def setNext (page : Bytes) (ptr : Nat) : Bytes := Bytes.writeU64 page 0 ptr

def setPtr (page : Bytes) (idx ptr : Nat) : Bytes := Bytes.writeU64 page (slot idx) ptr

def setVersion (page : Bytes) (idx version : Nat) : Bytes :=
  Bytes.writeU64 page (slot idx + 8) version

end LNode

/-! ## The list -/

/-- The part of the list that the meta page holds. -/
structure FreeListState where
  headPage : Nat := 0
  headSeq : Nat := 0
  tailPage : Nat := 0
  tailSeq : Nat := 0
deriving DecidableEq, Repr

/-- `IFreeListPages`: how the list reaches its own pages. -/
class FreeListPages (σ : Type) where
  readPage : σ → Nat → Except Fault Bytes
  writePage : σ → Nat → (Bytes → Bytes) → Except Fault σ
  appendPage : σ → Except Fault (Nat × σ)

/-- The list and the pages it works on. -/
structure FreeList (σ : Type) where
  pages : σ
  state : FreeListState
  /-- The running update's version. -/
  version : Nat := 0
  /-- Pages freed before this version are reusable. -/
  minReader : Nat := 0

/-- A popped item, and the head node it drained; 0 for none. -/
structure Popped where
  ptr : Nat := 0
  drainedHead : Nat := 0

def seqToIdx (seq : Nat) : Nat := seq % freeListCap

variable {σ : Type} [FreeListPages σ]

namespace FreeList

/-- Takes the item `head_seq` points at, if no reader can still see it. -/
def pop (fl : FreeList σ) : Except Fault (Popped × FreeList σ) := do
  if fl.state.headSeq = fl.state.tailSeq then
    return ({}, fl)
  else
    let node ← FreeListPages.readPage fl.pages fl.state.headPage
    let idx := seqToIdx fl.state.headSeq
    if !versionBefore (LNode.getVersion node idx) fl.minReader then
      return ({}, fl)
    else
      let ptr := LNode.getPtr node idx
      let headSeq := fl.state.headSeq + 1
      if seqToIdx headSeq = 0 then
        let headPage := LNode.next node
        require (headPage ≠ 0) (.asserts .popHead)
        return (⟨ptr, fl.state.headPage⟩,
          { fl with state := { fl.state with headPage := headPage, headSeq := headSeq } })
      else
        return (⟨ptr, 0⟩, { fl with state := { fl.state with headSeq := headSeq } })

/-- Writes `(ptr, version)` at the tail slot. -/
def appendItem (fl : FreeList σ) (ptr : Nat) : Except Fault (FreeList σ) := do
  let idx := seqToIdx fl.state.tailSeq
  let pages ← FreeListPages.writePage fl.pages fl.state.tailPage fun node =>
    LNode.setVersion (LNode.setPtr node idx ptr) idx fl.version
  require (fl.state.tailSeq + 1 < 2 ^ 64) .overflow
  return { fl with pages := pages, state := { fl.state with tailSeq := fl.state.tailSeq + 1 } }

/-- The page to link as the new tail: one the list itself gave out, or a new one. -/
def nextNode (fl : FreeList σ) (popped : Popped) : Except Fault (Nat × FreeList σ) :=
  if popped.ptr ≠ 0 then
    return (popped.ptr, fl)
  else do
    let (ptr, pages) ← FreeListPages.appendPage fl.pages
    return (ptr, { fl with pages := pages })

def pushTail (fl : FreeList σ) (ptr : Nat) : Except Fault (FreeList σ) := do
  require (ptr ≠ 0) (.asserts .pushPtr)
  require (versionBefore fl.version fl.minReader = false) (.asserts .pushVersion)
  let fl ← fl.appendItem ptr
  if seqToIdx fl.state.tailSeq ≠ 0 then
    return fl
  else
    -- the tail node is full, and a new one is linked right away
    let (popped, fl) ← fl.pop
    let (next, fl) ← fl.nextNode popped
    let pages ← FreeListPages.writePage fl.pages fl.state.tailPage fun node =>
      LNode.setNext node next
    let fl := { fl with pages := pages, state := { fl.state with tailPage := next } }
    if popped.drainedHead ≠ 0 then
      fl.appendItem popped.drainedHead
    else
      return fl

def popHead (fl : FreeList σ) : Except Fault (Nat × FreeList σ) := do
  let (popped, fl) ← fl.pop
  if popped.drainedHead ≠ 0 then
    let fl ← fl.pushTail popped.drainedHead
    return (popped.ptr, fl)
  else
    return (popped.ptr, fl)

/-- Rolls back to a saved state; what the pages hold past it is not read. -/
def revert (fl : FreeList σ) (state : FreeListState) : FreeList σ := { fl with state := state }

end FreeList

end SqlDb
