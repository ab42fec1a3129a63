import SqlDb.Storage.BTree

/-!
# Iterators

An iterator is the path from the root to one key of a leaf: a node and a position
in it for every level. A step moves the position in the leaf, and borrows from
the level above when the leaf is used up. Two positions are outside the keys: the
sentinel's, before the first, and `nkeys` in the last leaf, after the last.

The source keeps the path root first and recurses on an index. Here it is a list
with the leaf in front, so that the recursion is the list's.
-/

namespace SqlDb

open Outcome

/-- Relations for `seek` and for range scans. -/
inductive CMP where
  | ge
  | gt
  | lt
  | le
deriving DecidableEq, Repr

/-- `cmp > 0`: the sign of a relation is the direction of its scan. -/
def CMP.positive : CMP → Bool
  | .ge => true
  | .gt => true
  | .lt => false
  | .le => false

/-- Does `key` satisfy `cmp` relative to `ref`? -/
def cmpOk (key : Bytes) (cmp : CMP) (ref : Bytes) : Bool :=
  match cmp with
  | .ge => ref ≤ key
  | .gt => ref < key
  | .lt => key < ref
  | .le => key ≤ ref

/-- Each level's node and the position in it, the leaf first. -/
abbrev TreePath := List (BNode × Nat)

structure BIter where
  path : TreePath

variable {σ : Type} [PageManager σ]

/-- The path one level further down, at its node's first or last key. -/
def reloadKid (s : σ) (atLast : Bool) : TreePath → Except Fault TreePath
  | [] => return []
  | (node, pos) :: upper => do
      let kid ← PageManager.get s (node.getPtr pos)
      return (kid, if atLast then kid.nkeys - 1 else 0) :: (node, pos) :: upper

/-- Steps a path back; `none` at the tree's first position. -/
def iterPrev (s : σ) : TreePath → Except Fault (Option TreePath)
  | [] => return none
  | (node, pos) :: upper =>
      if pos > 0 then
        return some ((node, pos - 1) :: upper)
      else do
        match ← iterPrev s upper with
        | none => return none
        | some upper => return some (← reloadKid s true upper)

/-- Steps a path forward; `none` at the tree's last position. -/
def iterNext (s : σ) : TreePath → Except Fault (Option TreePath)
  | [] => return none
  | (node, pos) :: upper =>
      if pos + 1 < node.nkeys then
        return some ((node, pos + 1) :: upper)
      else do
        match ← iterNext s upper with
        | none => return none
        | some upper => return some (← reloadKid s false upper)

namespace BIter

def valid (iter : BIter) : Bool :=
  match iter.path with
  | [] => false
  | (leaf, pos) :: _ =>
      if pos ≥ leaf.nkeys then false
      else pos > 0 || leaf.getKey 0 ≠ []

def deref (iter : BIter) : Except Fault (Bytes × Bytes) :=
  match iter.path with
  | [] => .error (.asserts .iterValid)
  | (leaf, pos) :: _ => do
      require (iter.valid = true) (.asserts .iterValid)
      return (leaf.getKey pos, leaf.getVal pos)

theorem valid_cons (leaf : BNode) (pos : Nat) (upper : TreePath) :
    valid ⟨(leaf, pos) :: upper⟩ =
      if pos ≥ leaf.nkeys then false else pos > 0 || leaf.getKey 0 ≠ [] := rfl

theorem deref_cons (leaf : BNode) (pos : Nat) (upper : TreePath) :
    deref ⟨(leaf, pos) :: upper⟩ = (do
      require (valid ⟨(leaf, pos) :: upper⟩ = true) (.asserts .iterValid)
      return (leaf.getKey pos, leaf.getVal pos)) := rfl

def prev (s : σ) (iter : BIter) : Except Fault BIter := do
  match ← iterPrev s iter.path with
  | some path => return ⟨path⟩
  | none => return iter

def next (s : σ) (iter : BIter) : Except Fault BIter := do
  match ← iterNext s iter.path with
  | some path => return ⟨path⟩
  | none =>
      match iter.path with
      | [] => return iter
      | (leaf, _) :: upper => return ⟨(leaf, leaf.nkeys) :: upper⟩

end BIter

namespace BTree

/-- The `for (ptr = root; ptr != 0;)` of `seek_le`. -/
def seekLeLoop (s : σ) (key : Bytes) : Nat → Nat → TreePath → Except Fault TreePath
  | fuel, ptr, path =>
      if ptr = 0 then
        return path
      else
        match fuel with
        | 0 => .error .diverges
        | fuel + 1 => do
            let node ← PageManager.get s ptr
            let idx := nodeLookupLe node key
            require (idx ≥ 0) (.asserts .seekIdx)
            let ptr := if node.btype = bnodeNode then node.getPtr idx.toNat else 0
            seekLeLoop s key fuel ptr ((node, idx.toNat) :: path)

theorem seekLeLoop_zero (s : σ) (key : Bytes) (fuel : Nat) (path : TreePath) :
    seekLeLoop s key fuel 0 path = .ok path := by
  cases fuel <;> rfl

theorem seekLeLoop_succ (s : σ) (key : Bytes) (fuel : Nat) {ptr : Nat} (path : TreePath)
    (hptr : ptr ≠ 0) : seekLeLoop s key (fuel + 1) ptr path = (do
      let node ← PageManager.get s ptr
      let idx := nodeLookupLe node key
      require (idx ≥ 0) (.asserts .seekIdx)
      let ptr := if node.btype = bnodeNode then node.getPtr idx.toNat else 0
      seekLeLoop s key fuel ptr ((node, idx.toNat) :: path)) := if_neg hptr

/-- The last key at or below `key`, or before the first if there is none. -/
def seekLe (t : BTree σ) (key : Bytes) : Except Fault BIter := do
  let path ← seekLeLoop t.pages key (PageManager.pageCount t.pages) t.root []
  return ⟨path⟩

/-- `iter.valid() && cmp_ok(iter.deref().first, cmp, key)` -/
def seekOk (iter : BIter) (key : Bytes) (cmp : CMP) : Except Fault Bool :=
  if iter.valid then do
    let (k, _) ← iter.deref
    return cmpOk k cmp key
  else
    return false

/-- The closest key to `key` satisfying `cmp`. -/
def seek (t : BTree σ) (key : Bytes) (cmp : CMP) : Except Fault BIter := do
  let iter ← t.seekLe key
  let ok ← seekOk iter key cmp
  if !ok && cmp.positive then
    iter.next t.pages
  else if !ok && iter.valid then
    iter.prev t.pages
  else
    return iter

end BTree

end SqlDb
