import SqlDb.Base.Follow
import SqlDb.Storage.BTree

/-!
# Watching a page manager

A page manager can be put in front of another one, to look at what the tree asks of it and
to stop the tree if that is not as it should be. A tree over the watching manager does what
it does over the other, unless it is stopped, as the code knows its page manager by the
three calls alone.
-/

namespace SqlDb

open Outcome

variable {σ σ' : Type} [PageManager σ] [PageManager σ']

/-- `σ'` passes every call on to the manager in it, or stops with a failure of `G`. -/
structure Watches (π : σ' → σ) (G : Fault → Prop) : Prop where
  get : ∀ s p, Follows G id (PageManager.get s p) (PageManager.get (π s) p)
  newPage : ∀ s n, Follows G (Prod.map id π) (PageManager.newPage s n) (PageManager.newPage (π s) n)
  del : ∀ s p, Follows G π (PageManager.del s p) (PageManager.del (π s) p)
  count : ∀ s, PageManager.pageCount s = PageManager.pageCount (π s)

/-- The tree over the manager that is watched. -/
def BTree.under (π : σ' → σ) (t : BTree σ') : BTree σ := ⟨t.root, π t.pages⟩

section Watches

variable {π : σ' → σ} {G : Fault → Prop} (h : Watches π G)

include h

/-! ## Inserting -/

theorem Watches.appendChildren (children : List BNode) : ∀ (s : σ') (new : BNode) (idx : Nat),
    Follows G (Prod.map id π) (SqlDb.appendChildren s new idx children)
      (SqlDb.appendChildren (π s) new idx children) := by
  induction children with
  | nil => exact fun s new _ => .ok (new, s)
  | cons child children ih =>
      intro s new idx
      exact (h.newPage s child).bind fun r => .same fun new => ih r.2 new (idx + 1)

theorem Watches.nodeReplaceChildN (s : σ') (new old : BNode) (idx : Nat) (children : List BNode) :
    Follows G (Prod.map id π) (SqlDb.nodeReplaceChildN s new old idx children)
      (SqlDb.nodeReplaceChildN (π s) new old idx children) := by
  refine .same fun new => (h.appendChildren children s new idx).bind fun r => .same fun new => ?_
  exact .ok (new, r.2)

theorem Watches.treeInsert (key val : Bytes) : ∀ (fuel : Nat) (s : σ') (node : BNode),
    Follows G (Prod.map id π) (SqlDb.treeInsert key val fuel s node)
      (SqlDb.treeInsert key val fuel (π s) node) := by
  intro fuel
  induction fuel with
  | zero => exact fun s node => .error _
  | succ fuel ih =>
      intro s node
      refine .ite (.ite (.same fun new => .ok (new, s)) (.same fun new => .ok (new, s)))
        (.ite (.same fun _ => ?_) (.error _))
      refine (h.get s _).bind fun child => (ih s child).bind fun r => .same fun split => ?_
      exact (h.del r.2 _).bind fun s => h.nodeReplaceChildN s _ _ _ split

theorem Watches.newRoot (s : σ') (split : List BNode) :
    Follows G (BTree.under π) (BTree.newRoot s split) (BTree.newRoot (π s) split) := by
  refine (h.appendChildren split s _ 0).bind fun r => (h.newPage r.2 r.1).bind fun r => ?_
  exact .ok (⟨r.1, r.2⟩ : BTree σ')

/-- **Inserting** is the same. -/
theorem Watches.insert (t : BTree σ') (key val : Bytes) :
    Follows G (BTree.under π) (t.insert key val) ((t.under π).insert key val) := by
  rw [BTree.insert_eq, BTree.insert_eq]
  refine .same fun _ => .ite ?_ ?_
  · refine .same fun _ => .same fun new => (h.newPage t.pages new).bind fun r => ?_
    exact .ok (⟨r.1, r.2⟩ : BTree σ')
  · refine (h.get t.pages t.root).bind fun node => ?_
    rw [h.count t.pages]
    refine (h.treeInsert key val _ t.pages node).bind fun r => .same fun split => ?_
    refine (h.del r.2 t.root).bind fun s => ?_
    match split with
    | [] => exact h.newRoot s []
    | [one] => exact (h.newPage s one).bind fun r => .ok (⟨r.1, r.2⟩ : BTree σ')
    | one :: two :: rest => exact h.newRoot s (one :: two :: rest)

/-! ## Deleting -/

theorem Watches.mergeSibling (s : σ') (ptr : Nat) (updated : BNode) :
    Follows G id (SqlDb.mergeSibling s ptr updated) (SqlDb.mergeSibling (π s) ptr updated) :=
  (h.get s ptr).bind fun sibling =>
    .ok (if sibling.nbytes + updated.nbytes - BNode.ptrsOffset ≤ btreePageSize then some sibling
      else none)

theorem Watches.shouldMerge (s : σ') (node : BNode) (idx : Nat) (updated : BNode) :
    Follows G id (SqlDb.shouldMerge s node idx updated)
      (SqlDb.shouldMerge (π s) node idx updated) := by
  refine .ite (.ok (MergeDirection.none, BNode.zeroed btreePageSize)) ?_
  refine (Follows.ite (h.mergeSibling s _ updated) (.ok none)).bind fun left => ?_
  cases left with
  | some sibling => exact .ok (MergeDirection.left, sibling)
  | none =>
      refine (Follows.ite (h.mergeSibling s _ updated) (.ok none)).bind fun right => ?_
      cases right with
      | some sibling => exact .ok (MergeDirection.right, sibling)
      | none => exact .ok (MergeDirection.none, BNode.zeroed btreePageSize)

theorem Watches.nodeDelete {below' : σ' → BNode → Except Fault (Option BNode × σ')}
    {below : σ → BNode → Except Fault (Option BNode × σ)}
    (hbelow : ∀ s node, Follows G (Prod.map id π) (below' s node) (below (π s) node)) (s : σ')
    (old : BNode) (idx : Nat) :
    Follows G (Prod.map id π) (SqlDb.nodeDelete below' s old idx)
      (SqlDb.nodeDelete below (π s) old idx) := by
  refine (h.get s _).bind fun child => (hbelow s child).bind fun found => ?_
  obtain ⟨_ | updated, s⟩ := found
  · exact .ok (none, s)
  · refine (h.del s _).bind fun s => (h.shouldMerge s old idx updated).bind fun merge => ?_
    obtain ⟨dir, sibling⟩ := merge
    cases dir with
    | left =>
        refine .same fun merged => (h.del s _).bind fun s => (h.newPage s merged).bind fun r => ?_
        exact .same fun new => .ok (some new, r.2)
    | right =>
        refine .same fun merged => (h.del s _).bind fun s => (h.newPage s merged).bind fun r => ?_
        exact .same fun new => .ok (some new, r.2)
    | none =>
        refine .ite (.same fun _ => .ok (some _, s)) ?_
        exact (h.nodeReplaceChildN s _ old idx [updated]).bind fun r => .ok (some r.1, r.2)

theorem Watches.treeDelete (key : Bytes) : ∀ (fuel : Nat) (s : σ') (node : BNode),
    Follows G (Prod.map id π) (SqlDb.treeDelete key fuel s node)
      (SqlDb.treeDelete key fuel (π s) node) := by
  intro fuel
  induction fuel with
  | zero => exact fun s node => .error _
  | succ fuel ih =>
      intro s node
      refine .ite (.ite (.same fun new => .ok (some new, s)) (.ok (none, s)))
        (.ite (.same fun _ => ?_) (.error _))
      exact h.nodeDelete ih s node _

/-- **Deleting** is the same. -/
theorem Watches.remove (t : BTree σ') (key : Bytes) :
    Follows G (Prod.map id (BTree.under π)) (t.remove key) ((t.under π).remove key) := by
  rw [BTree.remove_eq, BTree.remove_eq]
  refine .same fun _ => .ite (.ok (false, t)) ?_
  refine (h.get t.pages t.root).bind fun node => ?_
  rw [h.count t.pages]
  refine (h.treeDelete key _ t.pages node).bind fun found => ?_
  obtain ⟨_ | updated, s⟩ := found
  · exact .ok (false, (⟨t.root, s⟩ : BTree σ'))
  · refine (h.del s t.root).bind fun s => .ite ?_ ?_
    · exact .ok (true, (⟨updated.getPtr 0, s⟩ : BTree σ'))
    · exact (h.newPage s updated).bind fun r => .ok (true, (⟨r.1, r.2⟩ : BTree σ'))

end Watches

end SqlDb
