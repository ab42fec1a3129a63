import SqlDb.Storage.Node

/-!
# The B+tree

The tree is a root page number and a page manager, and it never writes a page in
place: an update rebuilds every node on its path, stores the new ones through
`newPage` and gives the old ones back through `del`. What the pages are — an
in-memory map, a transaction's view of the file — is the page manager's business,
so the code is written against the class.

The source recurses along child pointers without a bound. Here the bound is the
manager's page count: a descent longer than that would visit a page twice, and a
tree has no cycles.
-/

namespace SqlDb

open Outcome

/-- `IPageManager`: how the tree reaches its nodes. -/
class PageManager (σ : Type) where
  get : σ → Nat → Except Fault BNode
  newPage : σ → BNode → Except Fault (Nat × σ)
  del : σ → Nat → Except Fault σ
  /-- How many pages there may be. Only bounds recursions. -/
  pageCount : σ → Nat

structure BTree (σ : Type) where
  root : Nat
  pages : σ

variable {σ : Type} [PageManager σ]

/-! ## Tree insertion -/

/-- The loop of `node_replace_child_n`: each child is stored and linked. -/
def appendChildren (s : σ) (newNode : BNode) (idx : Nat) :
    List BNode → Except Fault (BNode × σ)
  | [] => return (newNode, s)
  | child :: children => do
      let (ptr, s) ← PageManager.newPage s child
      let newNode ← newNode.nodeAppendKv idx ptr (child.getKey 0) []
      appendChildren s newNode (idx + 1) children

/-- `old` with the child link at `idx` replaced by links to `children`. -/
def nodeReplaceChildN (s : σ) (newNode old : BNode) (idx : Nat) (children : List BNode) :
    Except Fault (BNode × σ) := do
  let inc := children.length
  let newNode := newNode.setHeader bnodeNode (old.nkeys + inc - 1)
  let newNode ← nodeAppendRange newNode old 0 0 idx
  let (newNode, s) ← appendChildren s newNode idx children
  let newNode ← nodeAppendRange newNode old (idx + inc) (idx + 1) (old.nkeys - (idx + 1))
  return (newNode, s)

/-- Inserts into the child at `idx`; `insertBelow` is `tree_insert`, one level down. -/
def nodeInsert (insertBelow : σ → BNode → Except Fault (BNode × σ)) (s : σ)
    (newNode old : BNode) (idx : Nat) : Except Fault (BNode × σ) := do
  let childPtr := old.getPtr idx
  let child ← PageManager.get s childPtr
  let (updatedChild, s) ← insertBelow s child
  let split ← nodeSplitIfNeeded updatedChild
  let s ← PageManager.del s childPtr
  nodeReplaceChildN s newNode old idx split

/-- The node with `(key, val)` inserted below it, not yet stored and possibly oversized. -/
def treeInsert (key val : Bytes) : Nat → σ → BNode → Except Fault (BNode × σ)
  | 0, _, _ => .error .diverges
  | fuel + 1, s, node => do
      let newNode := BNode.zeroed (2 * btreePageSize)
      let idx := nodeLookupLe node key
      if node.btype = bnodeLeaf then
        if idx ≥ 0 ∧ node.getKey idx.toNat = key then
          let newNode ← leafUpdate newNode node idx.toNat key val
          return (newNode, s)
        else
          let newNode ← leafInsert newNode node (idx + 1).toNat key val
          return (newNode, s)
      else if node.btype = bnodeNode then
        require (idx ≥ 0) (.asserts .insertIdx)
        nodeInsert (treeInsert key val fuel) s newNode node idx.toNat
      else
        .error (.asserts .insertType)

/-! ## Merge conditions -/

inductive MergeDirection where
  | none
  | left
  | right
deriving DecidableEq

/-- The sibling at `ptr`, if `updated` can be merged with it. -/
def mergeSibling (s : σ) (ptr : Nat) (updated : BNode) : Except Fault (Option BNode) := do
  let sibling ← PageManager.get s ptr
  let merged := sibling.nbytes + updated.nbytes - BNode.ptrsOffset
  return if merged ≤ btreePageSize then some sibling else none

def leftSibling (s : σ) (node : BNode) (idx : Nat) (updated : BNode) :
    Except Fault (Option BNode) :=
  if idx > 0 then mergeSibling s (node.getPtr (idx - 1)) updated else .ok none

def rightSibling (s : σ) (node : BNode) (idx : Nat) (updated : BNode) :
    Except Fault (Option BNode) :=
  if idx + 1 < node.nkeys then mergeSibling s (node.getPtr (idx + 1)) updated else .ok none

/-- Which sibling `updated`, the new child at `idx`, should be merged with: the left one if it
fits, else the right one. Only a node below a quarter page is merged. -/
def shouldMerge (s : σ) (node : BNode) (idx : Nat) (updated : BNode) :
    Except Fault (MergeDirection × BNode) := do
  if updated.nbytes > btreePageSize / 4 then
    return (.none, .zeroed btreePageSize)
  else
    match ← leftSibling s node idx updated with
    | some sibling => return (.left, sibling)
    | none =>
        match ← rightSibling s node idx updated with
        | some sibling => return (.right, sibling)
        | none => return (.none, .zeroed btreePageSize)

/-! ## Tree deletion

A deletion that finds nothing returns `none`, where the source returns a node without bytes. The
pages come back either way, as the deletion leaves them. -/

/-- Deletes from the child at `idx`; `deleteBelow` is `tree_delete`, one level down. -/
def nodeDelete (deleteBelow : σ → BNode → Except Fault (Option BNode × σ)) (s : σ)
    (old : BNode) (idx : Nat) : Except Fault (Option BNode × σ) := do
  let childPtr := old.getPtr idx
  let child ← PageManager.get s childPtr
  match ← deleteBelow s child with
  | (none, s) => return (none, s)
  | (some updated, s) => do
      let s ← PageManager.del s childPtr
      let newNode := BNode.zeroed btreePageSize
      let (mergeDir, sibling) ← shouldMerge s old idx updated
      match mergeDir with
      | .left => do
          let merged ← nodeMerge (.zeroed btreePageSize) sibling updated
          let s ← PageManager.del s (old.getPtr (idx - 1))
          let (ptr, s) ← PageManager.newPage s merged
          let newNode ← nodeReplace2Child newNode old (idx - 1) ptr (merged.getKey 0)
          return (some newNode, s)
      | .right => do
          let merged ← nodeMerge (.zeroed btreePageSize) updated sibling
          let s ← PageManager.del s (old.getPtr (idx + 1))
          let (ptr, s) ← PageManager.newPage s merged
          let newNode ← nodeReplace2Child newNode old idx ptr (merged.getKey 0)
          return (some newNode, s)
      | .none =>
          if updated.nkeys = 0 then do
            require (old.nkeys = 1 ∧ idx = 0) (.asserts .deleteLone)
            return (some (newNode.setHeader bnodeNode 0), s)
          else do
            let (newNode, s) ← nodeReplaceChildN s newNode old idx [updated]
            return (some newNode, s)

/-- The node with `key` deleted below it, not yet stored. -/
def treeDelete (key : Bytes) : Nat → σ → BNode → Except Fault (Option BNode × σ)
  | 0, _, _ => .error .diverges
  | fuel + 1, s, node => do
      let idx := nodeLookupLe node key
      if node.btype = bnodeLeaf then
        if idx ≥ 0 ∧ node.getKey idx.toNat = key then
          let newNode ← leafDelete (.zeroed btreePageSize) node idx.toNat
          return (some newNode, s)
        else
          return (none, s)
      else if node.btype = bnodeNode then
        require (idx ≥ 0) (.asserts .deleteIdx)
        nodeDelete (treeDelete key fuel) s node idx.toNat
      else
        .error (.asserts .deleteType)

/-! ## The calls

An exception leaves the tree as it is when it is thrown: `tryInsert` and `tryRemove` hand that tree
back with it. `insert` and `remove` are the same two calls for a caller who lets the exception pass. -/

def checkKeyLimit (key : Bytes) : Except String Unit := do
  require (key ≠ []) "empty key"
  require (key.length ≤ btreeMaxKeySize) "key too large"

def checkLimit (key val : Bytes) : Except String Unit := do
  checkKeyLimit key
  require (val.length ≤ btreeMaxValSize) "value too large"

/-- An exception that is let pass. -/
def rethrow {α : Type} (r : Except String α) : Except Fault α := r.mapError .throws

namespace BTree

/-- Stores a root's two halves under a new root node. -/
def newRoot (s : σ) (split : List BNode) : Except Fault (BTree σ) := do
  let newRoot := (BNode.zeroed btreePageSize).setHeader bnodeNode split.length
  let (newRoot, s) ← appendChildren s newRoot 0 split
  let (ptr, s) ← PageManager.newPage s newRoot
  return ⟨ptr, s⟩

/-- `BTree::insert` once the limits are checked. -/
def insertChecked (t : BTree σ) (key val : Bytes) : Except Fault (BTree σ) := do
  if t.root = 0 then
    -- the sentinel empty key goes first, so that a lookup always finds a position
    let newRoot := (BNode.zeroed btreePageSize).setHeader bnodeLeaf 2
    let newRoot ← newRoot.nodeAppendKv 0 0 [] []
    let newRoot ← newRoot.nodeAppendKv 1 0 key val
    let (ptr, s) ← PageManager.newPage t.pages newRoot
    return ⟨ptr, s⟩
  else
    let node ← PageManager.get t.pages t.root
    let (updated, s) ← treeInsert key val (PageManager.pageCount t.pages) t.pages node
    let split ← nodeSplitIfNeeded updated
    let s ← PageManager.del s t.root
    match split with
    | [one] =>
        let (ptr, s) ← PageManager.newPage s one
        return ⟨ptr, s⟩
    | split => newRoot s split

def tryInsert (t : BTree σ) (key val : Bytes) : Except Fault (Except String Unit × BTree σ) :=
  match checkLimit key val with
  | .error what => .ok (.error what, t)
  | .ok () => do
      let t ← t.insertChecked key val
      return (.ok (), t)

def insert (t : BTree σ) (key val : Bytes) : Except Fault (BTree σ) := do
  let (res, t) ← t.tryInsert key val
  rethrow res
  return t

/-- `BTree::remove` once the limit is checked: whether the key was found, and the tree without
it. -/
def removeChecked (t : BTree σ) (key : Bytes) : Except Fault (Bool × BTree σ) := do
  if t.root = 0 then
    return (false, t)
  else
    let node ← PageManager.get t.pages t.root
    match ← treeDelete key (PageManager.pageCount t.pages) t.pages node with
    | (none, s) => return (false, ⟨t.root, s⟩)
    | (some updated, s) => do
        let s ← PageManager.del s t.root
        if updated.btype = bnodeNode ∧ updated.nkeys = 1 then
          return (true, ⟨updated.getPtr 0, s⟩)
        else
          let (ptr, s) ← PageManager.newPage s updated
          return (true, ⟨ptr, s⟩)

def tryRemove (t : BTree σ) (key : Bytes) : Except Fault (Except String Bool × BTree σ) :=
  match checkKeyLimit key with
  | .error what => .ok (.error what, t)
  | .ok () => do
      let (found, t) ← t.removeChecked key
      return (.ok found, t)

def remove (t : BTree σ) (key : Bytes) : Except Fault (Bool × BTree σ) := do
  let (res, t) ← t.tryRemove key
  let found ← rethrow res
  return (found, t)

/-- The `while (true)` of `BTree::get`. -/
def getLoop (s : σ) (key : Bytes) : Nat → BNode → Except Fault (Option Bytes)
  | 0, _ => .error .diverges
  | fuel + 1, node => do
      let idx := nodeLookupLe node key
      if idx < 0 then
        return none
      else if node.btype = bnodeLeaf then
        if node.getKey idx.toNat = key then
          return some (node.getVal idx.toNat)
        else
          return none
      else
        let node ← PageManager.get s (node.getPtr idx.toNat)
        getLoop s key fuel node

def get (t : BTree σ) (key : Bytes) : Except Fault (Option Bytes) := do
  rethrow (checkKeyLimit key)
  if t.root = 0 then
    return none
  else
    let node ← PageManager.get t.pages t.root
    getLoop t.pages key (PageManager.pageCount t.pages) node

/-- A call let pass is its checks and then the rest. -/
theorem insert_eq (t : BTree σ) (key val : Bytes) : t.insert key val = (do
    rethrow (checkLimit key val)
    t.insertChecked key val) := by
  unfold insert tryInsert
  cases checkLimit key val with
  | error what => rfl
  | ok u =>
      dsimp only [rethrow, Except.mapError]
      rw [ok_bind]
      cases t.insertChecked key val <;> rfl

theorem remove_eq (t : BTree σ) (key : Bytes) : t.remove key = (do
    rethrow (checkKeyLimit key)
    t.removeChecked key) := by
  unfold remove tryRemove
  cases checkKeyLimit key with
  | error what => rfl
  | ok u =>
      dsimp only [rethrow, Except.mapError]
      rw [ok_bind]
      cases t.removeChecked key <;> rfl

end BTree

end SqlDb
