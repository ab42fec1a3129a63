import SqlDb.Storage.BTreeDelete

/-!
# Page numbers

A tree can run out of page numbers. How soon is a matter of counting: a call stores at most
two nodes for each level it goes down and three at the root, it frees one or two nodes for
each, and the levels are bounded by the pages there are.
-/

namespace SqlDb

open Outcome

/-! ## Nodes need no numbers -/

/-- A computation that stores nothing. -/
abbrev Quiet {α : Type} (r : Except Fault α) : Prop := Ends (· ≠ .overflow) (fun _ => True) r

section Quiet

theorem quiet_require (p : Prop) [Decidable p] {f : Fault} (hf : f ≠ .overflow) :
    Quiet (require p f) := by
  unfold require
  split
  · trivial
  · exact hf

theorem quiet_nodeAppendKv (n : BNode) (idx ptr : Nat) (key val : Bytes) :
    Quiet (n.nodeAppendKv idx ptr key val) := by
  unfold BNode.nodeAppendKv
  refine Ends.bind (quiet_require _ (by decide)) fun _ _ => ?_
  refine Ends.bind (quiet_require _ (by decide)) fun _ _ => ?_
  exact Ends.bind (quiet_require _ (by decide)) fun _ _ => trivial

theorem quiet_nodeAppendRange (old : BNode) (cnt : Nat) : ∀ (new : BNode) (dst src : Nat),
    Quiet (nodeAppendRange new old dst src cnt) := by
  induction cnt with
  | zero => exact fun _ _ _ => trivial
  | succ cnt ih =>
      intro new dst src
      exact (quiet_nodeAppendKv _ _ _ _ _).bind fun new _ => ih new _ _

theorem quiet_leafInsert (new old : BNode) (idx : Nat) (key val : Bytes) :
    Quiet (leafInsert new old idx key val) :=
  (quiet_nodeAppendRange _ _ _ _ _).bind fun _ _ => (quiet_nodeAppendKv _ _ _ _ _).bind
    fun _ _ => quiet_nodeAppendRange _ _ _ _ _

theorem quiet_leafUpdate (new old : BNode) (idx : Nat) (key val : Bytes) :
    Quiet (leafUpdate new old idx key val) :=
  (quiet_nodeAppendRange _ _ _ _ _).bind fun _ _ => (quiet_nodeAppendKv _ _ _ _ _).bind
    fun _ _ => quiet_nodeAppendRange _ _ _ _ _

theorem quiet_leafDelete (new old : BNode) (idx : Nat) : Quiet (leafDelete new old idx) :=
  (quiet_nodeAppendRange _ _ _ _ _).bind fun _ _ => quiet_nodeAppendRange _ _ _ _ _

theorem quiet_nodeMerge (new l r : BNode) : Quiet (nodeMerge new l r) :=
  (quiet_nodeAppendRange _ _ _ _ _).bind fun _ _ => quiet_nodeAppendRange _ _ _ _ _

theorem quiet_nodeReplace2Child (new old : BNode) (idx ptr : Nat) (key : Bytes) :
    Quiet (nodeReplace2Child new old idx ptr key) :=
  (quiet_nodeAppendRange _ _ _ _ _).bind fun _ _ => (quiet_nodeAppendKv _ _ _ _ _).bind
    fun _ _ => quiet_nodeAppendRange _ _ _ _ _

theorem quiet_splitGrow (old : BNode) : ∀ fuel nleft, Quiet (splitGrow old fuel nleft)
  | 0, _ => by
      show Fault.diverges ≠ .overflow
      decide
  | fuel + 1, nleft => by
      rw [splitGrow]
      split
      · exact quiet_splitGrow old fuel (nleft + 1)
      · trivial

/-- A node is split in two at most. -/
theorem quiet_nodeSplitIfNeeded (node : BNode) :
    Ends (· ≠ .overflow) (fun split => split.length ≤ 2) (nodeSplitIfNeeded node) := by
  unfold nodeSplitIfNeeded
  split
  · show 1 ≤ 2
    decide
  · unfold nodeSplit
    refine Ends.bind (P := fun _ => True) ?_ fun _ _ => show 2 ≤ 2 from le_refl _
    refine Ends.bind (quiet_require _ (by decide)) fun _ _ => ?_
    refine Ends.bind (quiet_require _ (by decide)) fun _ _ => ?_
    refine Ends.bind (quiet_splitGrow _ _ _) fun _ _ => ?_
    refine Ends.bind (quiet_require _ (by decide)) fun _ _ => ?_
    refine Ends.bind (quiet_nodeAppendRange _ _ _ _ _) fun _ _ => ?_
    refine Ends.bind (quiet_nodeAppendRange _ _ _ _ _) fun _ _ => ?_
    refine Ends.bind (quiet_require _ (by decide)) fun _ _ => ?_
    exact Ends.bind (quiet_require _ (by decide)) fun _ _ => trivial

end Quiet

/-! ## What is stored -/

/-- What it takes to bound the numbers: of those up to `N` none is left, and storing or freeing a
node takes `c` more at most. -/
structure Counts {σ : Type} [PageManager σ] (W : Nat → σ → Prop) (c : Nat) : Prop where
  mono : ∀ {N N' s}, W N s → N ≤ N' → W N' s
  count : ∀ {N s}, W N s → PageManager.pageCount s ≤ N
  get : ∀ (s : σ) (ptr : Nat), Quiet (PageManager.get s ptr)
  newPage : ∀ {N s}, W N s → N + c < 2 ^ 64 → ∀ node,
    Ends (· ≠ .overflow) (fun r => W (N + c) r.2) (PageManager.newPage s node)
  del : ∀ {N s}, W N s → N + c < 2 ^ 64 → ∀ ptr,
    Ends (· ≠ .overflow) (W (N + c)) (PageManager.del s ptr)

namespace Counts

variable {σ : Type} [PageManager σ] {W : Nat → σ → Prop} {c N M : Nat} {s : σ}

theorem appendChildren (hW : Counts W c) (hlt : M < 2 ^ 64) : ∀ (children : List BNode) {N : Nat}
    {s : σ} (_ : W N s) (_ : N + c * children.length ≤ M) (new : BNode) (idx : Nat),
    Ends (· ≠ .overflow) (fun r => W M r.2) (SqlDb.appendChildren s new idx children)
  | [], _, _, h, hM, _, _ => hW.mono h (by simpa using hM)
  | child :: children, N, s, h, hM, new, idx => by
      rw [List.length_cons, Nat.mul_succ] at hM
      refine Ends.bind (hW.newPage h (by omega) child) fun r hr => ?_
      refine Ends.bind (quiet_nodeAppendKv _ _ _ _ _) fun new _ => ?_
      exact appendChildren hW hlt children hr (by omega) new (idx + 1)

theorem nodeReplaceChildN (hW : Counts W c) (h : W N s) {children : List BNode}
    (hM : N + c * children.length ≤ M) (hlt : M < 2 ^ 64) (new old : BNode) (idx : Nat) :
    Ends (· ≠ .overflow) (fun r => W M r.2) (SqlDb.nodeReplaceChildN s new old idx children) := by
  refine Ends.bind (quiet_nodeAppendRange _ _ _ _ _) fun new _ => ?_
  refine Ends.bind (hW.appendChildren hlt children h hM new idx) fun r hr => ?_
  exact Ends.bind (quiet_nodeAppendRange _ _ _ _ _) fun _ _ => hr

/-- Two nodes are stored for every level, and one is freed. -/
theorem treeInsert (hW : Counts W c) (key val : Bytes) : ∀ (fuel : Nat) {N M : Nat} {s : σ}
    (_ : W N s) (_ : N + c * (3 * fuel) ≤ M) (_ : M < 2 ^ 64) (node : BNode),
    Ends (· ≠ .overflow) (fun r => W M r.2) (SqlDb.treeInsert key val fuel s node)
  | 0, _, _, _, _, _, _, _ => by
      show Fault.diverges ≠ .overflow
      decide
  | fuel + 1, N, M, s, h, hM, hlt, node => by
      rw [SqlDb.treeInsert]
      rw [Nat.mul_succ, Nat.mul_add] at hM
      have hleaf := hW.mono h (show N ≤ M by omega)
      split
      · split
        · exact Ends.bind (quiet_leafUpdate _ _ _ _ _) fun _ _ => hleaf
        · exact Ends.bind (quiet_leafInsert _ _ _ _ _) fun _ _ => hleaf
      · split
        · refine Ends.bind (quiet_require _ (by decide)) fun _ _ => ?_
          refine Ends.bind (hW.get s _) fun child _ => ?_
          have hbelow := treeInsert hW key val fuel h (le_refl _) (by omega) child
          refine Ends.bind hbelow fun r hr => ?_
          refine Ends.bind (quiet_nodeSplitIfNeeded _) fun split hsplit => ?_
          refine Ends.bind (hW.del hr (by omega) _) fun s hs => ?_
          have hchildren : c * split.length ≤ c * 2 := Nat.mul_le_mul_left c hsplit
          exact hW.nodeReplaceChildN hs (by omega) hlt _ _ _
        · show Fault.asserts _ ≠ .overflow
          exact fun h => by cases h

theorem newRoot (hW : Counts W c) (h : W N s) {split : List BNode}
    (hM : N + c * (split.length + 1) ≤ M) (hlt : M < 2 ^ 64) :
    Ends (· ≠ .overflow) (fun t => W M t.pages) (BTree.newRoot s split) := by
  rw [Nat.mul_succ] at hM
  refine Ends.bind (hW.appendChildren (M := N + c * split.length) (by omega) split h (le_refl _) _ 0)
    fun r hr => ?_
  exact Ends.bind (hW.newPage hr (by omega) _) fun r hr => hW.mono hr (by omega)

/-- **An insert** with the numbers up to `N` gone takes those up to `N + c * (3 * N + 4)`. -/
theorem insert (hW : Counts W c) {t : BTree σ} (h : W N t.pages) (hM : N + c * (3 * N + 4) ≤ M)
    (hlt : M < 2 ^ 64) {key val : Bytes} (hk : ValidKey key) (hv : ValidVal val) :
    Ends (· ≠ .overflow) (fun t' => W M t'.pages) (t.insert key val) := by
  have hpages : c * (3 * PageManager.pageCount t.pages) ≤ c * (3 * N) :=
    Nat.mul_le_mul_left c (Nat.mul_le_mul_left 3 (hW.count h))
  rw [Nat.mul_add] at hM
  rw [BTree.insert_valid t hk hv, BTree.insertChecked]
  split
  · generalize BNode.zeroed btreePageSize = page
    refine Ends.bind (quiet_nodeAppendKv _ _ _ _ _) fun new _ => ?_
    refine Ends.bind (quiet_nodeAppendKv _ _ _ _ _) fun new _ => ?_
    exact Ends.bind (hW.newPage h (by omega) _) fun r hr => hW.mono hr (by omega)
  · refine Ends.bind (hW.get _ _) fun node _ => ?_
    have hbelow := hW.treeInsert key val (PageManager.pageCount t.pages) h
      (show _ ≤ N + c * (3 * N) by omega) (by omega) node
    refine Ends.bind hbelow fun r hr => ?_
    refine Ends.bind (quiet_nodeSplitIfNeeded _) fun split hsplit => ?_
    refine Ends.bind (hW.del hr (by omega) _) fun s hs => ?_
    have hroot : c * (split.length + 1) ≤ c * 3 := Nat.mul_le_mul_left c (by omega)
    rcases split with _ | ⟨one, _ | ⟨two, rest⟩⟩
    · exact hW.newRoot hs (by omega) hlt
    · exact Ends.bind (hW.newPage hs (by omega) one) fun r hr => hW.mono hr (by omega)
    · exact hW.newRoot hs (by omega) hlt

/-- So each insert takes the numbers up to eight times as many at most, and 64 bits hold twenty. -/
theorem insert_pow (hW : Counts W c) (hc : c ≤ 2) {t : BTree σ} {k : Nat} (hk : k ≤ 19)
    (h : W (8 ^ (k + 1)) t.pages) {key val : Bytes} (hkey : ValidKey key) (hval : ValidVal val) :
    Ends (· ≠ .overflow) (fun t' => W (8 ^ (k + 2)) t'.pages) (t.insert key val) := by
  have hpow : 8 ^ 1 ≤ 8 ^ (k + 1) := Nat.pow_le_pow_right (by omega) (by omega)
  have hlast : 8 ^ (k + 2) ≤ 8 ^ 21 := Nat.pow_le_pow_right (by omega) (by omega)
  have hmax : 8 ^ 21 < 2 ^ 64 := by decide
  have hsucc : 8 ^ (k + 2) = 8 * 8 ^ (k + 1) := by rw [pow_succ, Nat.mul_comm]
  have htwice : c * (3 * 8 ^ (k + 1) + 4) ≤ 2 * (3 * 8 ^ (k + 1) + 4) := Nat.mul_le_mul_right _ hc
  exact hW.insert h (by omega) (by omega) hkey hval

theorem mergeSibling (hW : Counts W c) (s : σ) (ptr : Nat) (updated : BNode) :
    Quiet (SqlDb.mergeSibling s ptr updated) := (hW.get s ptr).bind fun _ _ => trivial

theorem shouldMerge (hW : Counts W c) (s : σ) (node : BNode) (idx : Nat) (updated : BNode) :
    Quiet (SqlDb.shouldMerge s node idx updated) := by
  have hleft : Quiet (leftSibling s node idx updated) := by
    unfold leftSibling
    split
    · exact hW.mergeSibling s _ updated
    · trivial
  have hright : Quiet (rightSibling s node idx updated) := by
    unfold rightSibling
    split
    · exact hW.mergeSibling s _ updated
    · trivial
  unfold SqlDb.shouldMerge
  split
  · trivial
  · refine Ends.bind hleft fun left _ => ?_
    cases left with
    | some sibling => trivial
    | none =>
        refine Ends.bind hright fun right _ => ?_
        cases right <;> trivial

/-- One node is stored for every level, and two are freed. -/
theorem treeDelete (hW : Counts W c) (key : Bytes) : ∀ (fuel : Nat) {N M : Nat} {s : σ} (_ : W N s)
    (_ : N + c * (3 * fuel) ≤ M) (_ : M < 2 ^ 64) (node : BNode),
    Ends (· ≠ .overflow) (fun r => W M r.2) (SqlDb.treeDelete key fuel s node)
  | 0, _, _, _, _, _, _, _ => by
      show Fault.diverges ≠ .overflow
      decide
  | fuel + 1, N, M, s, h, hM, hlt, node => by
      rw [SqlDb.treeDelete]
      rw [Nat.mul_succ, Nat.mul_add] at hM
      have hsame := hW.mono h (show N ≤ M by omega)
      split
      · split
        · exact Ends.bind (quiet_leafDelete _ _ _) fun new _ => hsame
        · exact hsame
      · split
        · refine Ends.bind (quiet_require _ (by decide)) fun _ _ => ?_
          refine Ends.bind (hW.get s _) fun child _ => ?_
          refine Ends.bind (treeDelete hW key fuel h (le_refl _) (by omega) child)
            fun found hs => ?_
          obtain ⟨_ | updated, s⟩ := found
          · exact hW.mono hs (by omega)
          · -- the child took its numbers; a merge or a new link takes two more
            refine Ends.bind (hW.del hs (by omega) _) fun s hs => ?_
            refine Ends.bind (hW.shouldMerge s _ _ updated) fun merge _ => ?_
            obtain ⟨dir, sibling⟩ := merge
            cases dir with
            | left =>
                refine Ends.bind (quiet_nodeMerge _ _ _) fun merged _ => ?_
                refine Ends.bind (hW.del hs (by omega) _) fun s hs => ?_
                refine Ends.bind (hW.newPage hs (by omega) merged) fun r hr => ?_
                exact Ends.bind (quiet_nodeReplace2Child _ _ _ _ _)
                  fun new _ => hW.mono hr (by omega)
            | right =>
                refine Ends.bind (quiet_nodeMerge _ _ _) fun merged _ => ?_
                refine Ends.bind (hW.del hs (by omega) _) fun s hs => ?_
                refine Ends.bind (hW.newPage hs (by omega) merged) fun r hr => ?_
                exact Ends.bind (quiet_nodeReplace2Child _ _ _ _ _)
                  fun new _ => hW.mono hr (by omega)
            | none =>
                dsimp only
                split
                · refine Ends.bind (quiet_require _ (by decide)) fun _ _ => ?_
                  exact hW.mono hs (by omega)
                · have hlen : N + c * (3 * fuel) + c + c * [updated].length ≤ M := by
                    rw [List.length_singleton]; omega
                  exact Ends.bind (hW.nodeReplaceChildN hs hlen hlt _ _ _) fun r hr => hr
        · show Fault.asserts _ ≠ .overflow
          exact fun h => by cases h

/-- **A delete** takes no more. -/
theorem remove (hW : Counts W c) {t : BTree σ} (h : W N t.pages)
    (hlt : N + c * (3 * N + 2) < 2 ^ 64) {key : Bytes} (hk : ValidKey key) :
    Quiet (t.remove key) := by
  have hpages : c * (3 * PageManager.pageCount t.pages) ≤ c * (3 * N) :=
    Nat.mul_le_mul_left c (Nat.mul_le_mul_left 3 (hW.count h))
  rw [Nat.mul_add] at hlt
  rw [BTree.remove_valid t hk, BTree.removeChecked]
  split
  · trivial
  · refine Ends.bind (hW.get _ _) fun node _ => ?_
    refine Ends.bind (hW.treeDelete key (PageManager.pageCount t.pages) h
      (show _ ≤ N + c * (3 * N) by omega) (by omega) node) fun found hs => ?_
    obtain ⟨_ | updated, s⟩ := found
    · trivial
    · refine Ends.bind (hW.del hs (by omega) _) fun s hs => ?_
      split
      · trivial
      · exact Ends.bind (hW.newPage hs (by omega) updated) fun _ _ => trivial

end Counts

end SqlDb
