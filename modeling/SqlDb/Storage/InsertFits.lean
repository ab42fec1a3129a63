import SqlDb.Storage.BTreeMap
import SqlDb.Storage.Watch

/-!
# Inserts never overflow a page

An insert builds every node on its path in two pages and splits what is larger than one.
The nodes it builds are those of its own recursion, `InsertBuilds`; the nodes it stores
are seen by a page manager that asserts the size of each, and lets the tree go on only if
it fits.
-/

namespace SqlDb

open Outcome OrdMap

/-! ## Asserting what is stored -/

/-- A page manager that asserts of every node it is given that it fits a page, as `encode` does. -/
structure SizeChecked (σ : Type) where
  pages : σ

namespace SizeChecked

variable {σ : Type} [PageManager σ]

def newPage (s : SizeChecked σ) (node : BNode) : Except Fault (Nat × SizeChecked σ) := do
  require (node.kvPos node.nkeys ≤ btreePageSize) (.asserts .encodeUsed)
  let (ptr, pages) ← PageManager.newPage s.pages node
  return (ptr, ⟨pages⟩)

def del (s : SizeChecked σ) (ptr : Nat) : Except Fault (SizeChecked σ) := do
  let pages ← PageManager.del s.pages ptr
  return ⟨pages⟩

instance : PageManager (SizeChecked σ) where
  get := fun s ptr => PageManager.get s.pages ptr
  newPage := newPage
  del := del
  pageCount := fun s => PageManager.pageCount s.pages

theorem watches : Watches (σ := σ) pages (· = .asserts .encodeUsed) where
  get s p := by
    refine Or.inr ?_
    show PageManager.get s.pages p = (PageManager.get s.pages p).map id
    cases PageManager.get s.pages p <;> rfl
  newPage s n := by
    show Follows _ _ (newPage s n) _
    unfold newPage
    by_cases hfit : n.kvPos n.nkeys ≤ btreePageSize
    · rw [require_pos hfit, ok_bind]
      refine Or.inr ?_
      cases PageManager.newPage s.pages n <;> rfl
    · rw [require_neg hfit, error_bind]
      exact Or.inl ⟨_, rfl, rfl⟩
  del s p := by
    refine Or.inr ?_
    show _ = (del s p).map pages
    unfold del
    cases PageManager.del s.pages p <;> rfl
  count _ := rfl

/-- A node that fits passes. -/
theorem lawful {I : σ → Multiset Nat → Prop} {E : Fault → Prop} (hI : LawfulPages I E) :
    LawfulPages (fun s : SizeChecked σ => I s.pages) E where
  nodup h := hI.nodup h
  ptr h := hI.ptr h
  count h := hI.count h
  newPage {s M n t es} h hn hfit := by
    show Ends E _ (newPage s n)
    unfold newPage
    have hused : n.kvPos n.nkeys ≤ btreePageSize := by
      rw [hn.nkeys, Filled.kvPos hn]
      exact hfit
    rw [require_pos hused, ok_bind]
    refine Ends.bind (hI.newPage h hn hfit) ?_
    intro r hr
    exact hr
  del {s M p} h := by
    show Ends E _ (del s p)
    unfold del
    refine Ends.bind (hI.del h) ?_
    intro r hr
    exact hr

end SizeChecked

/-! ## Nodes that are built -/

/-- What `tree_insert` builds for a node, and for the nodes below it on its way. -/
inductive InsertBuilds {σ : Type} [PageManager σ] (key val : Bytes) :
    Nat → σ → BNode → BNode → Prop where
  | self {fuel : Nat} {s s' : σ} {node built : BNode} :
      treeInsert key val fuel s node = .ok (built, s') → InsertBuilds key val fuel s node built
  | child {fuel : Nat} {s : σ} {node child built : BNode} : node.btype = bnodeNode →
      0 ≤ nodeLookupLe node key →
      PageManager.get s (node.getPtr (nodeLookupLe node key).toNat) = .ok child →
      InsertBuilds key val fuel s child built → InsertBuilds key val (fuel + 1) s node built

/-- The byte counts of a node are not cut to 16 bits. -/
structure BytesExact (node : BNode) : Prop where
  used : node.nbytes = node.kvPos node.nkeys
  left : ∀ k ≤ node.nkeys, leftBytes node k = 4 + 8 * k + 2 * k + node.getOffset k
  right : ∀ k ≤ node.nkeys, rightBytes node k + leftBytes node k = node.nbytes + 4

theorem Holds.bytesExact {n : BNode} {t : Nat} {es : List Entry} (h : Holds n t es) :
    BytesExact n where
  used := by
    rw [h.nbytes, h.nkeys, Filled.kvPos h]
    rfl
  left k hk := by
    rw [h.nkeys] at hk
    have hlen : (es.take k).length = k := by rw [List.length_take]; omega
    have h' := h
    rw [← List.take_append_drop k es] at h'
    have hoff := h'.getOffset
    rw [hlen] at hoff
    rw [leftBytes_eq h hk, hoff, nodeSize, hlen]
    omega
  right k hk := by
    rw [h.nkeys] at hk
    have hsum := nodeSize_take_drop es k
    rw [leftBytes_eq h hk, rightBytes_eq h hk, h.nbytes]
    omega

/-- A node that an insert can build: it fits two pages, and if not one, two halves do. -/
structure TwoPages (node : BNode) (t : Nat) (es : List Entry) : Prop where
  holds : Holds node t es
  fits : nodeSize es ≤ 2 * btreePageSize
  exact : BytesExact node
  halves : btreePageSize < node.nbytes → ∃ nleft l r, SplitsAt node t es nleft l r

theorem twoPages {n : BNode} {t : Nat} {es : List Entry} (h : Holds n t es) (ht : t < 2 ^ 16)
    (hmax : nodeSize es ≤ maxNodeSize) : TwoPages n t es where
  holds := h
  fits := hmax.trans (by decide)
  exact := h.bytesExact
  halves hbig := nodeSplit_at h ht (by rwa [h.nbytes] at hbig) hmax

section Builds

variable {σ : Type} [PageManager σ] {I : σ → Multiset Nat → Prop} {E : Fault → Prop}
  {key val : Bytes}

/-- **Every node that is built fits two pages.** -/
theorem InsertBuilds.twoPages (hI : LawfulPages I E) (hfit : Entry.Fits ⟨0, key, val⟩) {fuel : Nat}
    {s : σ} {node built : BNode} (hbuilds : InsertBuilds key val fuel s node built) :
    ∀ {h : Nat} {es : List Entry} {kvs : Contents} {ps R : Multiset Nat}, h < fuel →
      NodeAt (PageManager.get s) h node es kvs ps → nodeSize es ≤ btreePageSize → I s (ps + R) →
      Sorted kvs → (∃ e ∈ es, e.key ≤ key) → ∃ t es', TwoPages built t es' := by
  induction hbuilds with
  | self hrun =>
      intro h es kvs ps R hfuel hn hsize hi hs hhead
      have hspec := treeInsert_spec hI hfit hfuel hn hsize hi hs hhead
      rw [hrun] at hspec
      obtain ⟨es', ps', hins⟩ := hspec
      exact ⟨nodeType h, es', SqlDb.twoPages hins.node.holds (nodeType_lt h) hins.size⟩
  | @child fuel s node child built htype hpos hget _ ih =>
      intro h es kvs ps R hfuel hn hsize hi hs hhead
      cases h with
      | zero => exact absurd (htype.symm.trans hn.btype_zero) bnodeNode_ne_leaf
      | succ h =>
          rcases nodeLookupLe_cases hn.holds (hn.concat.keysSorted (entryAt_headed _) hs) key with
            ⟨hidx, _⟩ | ⟨a, e, b, rfl, hidx, hle, _, hlt⟩
          · rw [hidx] at hpos
            exact absurd hpos (by decide)
          obtain ⟨ka, ke, kb, pa, pe, pb, rfl, rfl, _, he, _, _, hse, _⟩ :=
            hn.concat.route (entryAt_headed _) hs hle hlt
          -- the node the insert descends into is this entry's child
          obtain ⟨_, child', ec, pc, hget', hc, hcsize, hhd, rfl⟩ := entryAt_succ.mp he
          obtain ⟨x, rest, rfl, hx⟩ := head_of_head? hhd
          rw [hidx, Int.toNat_natCast, hn.holds.getPtr, hget', Except.ok.injEq] at hget
          subst hget
          have hi' : I s (pc + (e.ptr ::ₘ (pa + pb + R))) := by
            have : pa + e.ptr ::ₘ pc + pb + R = pc + (e.ptr ::ₘ (pa + pb + R)) := by
              simp only [← Multiset.singleton_add]; abel
            rwa [← this]
          exact ih (by omega) hc hcsize hi' hse ⟨x, by simp, by rw [hx]; exact hle⟩

/-- **Inserts never overflow a page, and two halves always suffice.** An insert into any tree that
stands for some bindings succeeds unless the page numbers run out. Every node it builds fits two
pages, and one that exceeds a page is split into two that do not, by loops that end between the
first and the last entry and byte counts that are not cut; and every node it stores fits one page:
over a page manager that asserts this, it does the same. -/
theorem insert_never_overflows (hI : LawfulPages I (· = .overflow)) {t : BTree σ} {m : Contents}
    {ps : Multiset Nat} (ht : t.Denotes I m ps) (hk : ValidKey key) (hv : ValidVal val) :
    Ends (· = .overflow) (fun t' => ∃ ps', t'.Denotes I (OrdMap.insert m key val) ps')
      (t.insert key val) ∧
    t.insert key val = ((⟨t.root, ⟨t.pages⟩⟩ : BTree (SizeChecked σ)).insert key val).map
      (BTree.under SizeChecked.pages) ∧
    ∀ node built, t.root ≠ 0 → PageManager.get t.pages t.root = .ok node →
      InsertBuilds key val (PageManager.pageCount t.pages) t.pages node built →
      ∃ type es, TwoPages built type es := by
  refine ⟨BTree.insert_spec hI ht hk hv, ?_, fun node built hroot hget hbuilds => ?_⟩
  · have hchecked := BTree.insert_spec (t := ⟨t.root, ⟨t.pages⟩⟩) (SizeChecked.lawful hI)
      ⟨ht.tree, ht.owns⟩ hk hv
    refine (SizeChecked.watches.insert _ key val).ends (fun f hf he => ?_) hchecked
    rw [hf] at he
    cases he
  · rcases ht.tree with ⟨h0, _⟩ | ⟨_, hs, h, he⟩
    · exact absurd h0 hroot
    · have hfuel : h + 1 ≤ PageManager.pageCount t.pages :=
        le_trans he.height_le (hI.count ht.owns)
      obtain ⟨_, node', es, ps', hget', hn, hsize, hhd, rfl⟩ := entryAt_succ.mp he
      obtain ⟨x, rest, rfl, hx⟩ := head_of_head? hhd
      rw [hget', Except.ok.injEq] at hget
      subst hget
      have hi : I t.pages (ps' + {t.root}) := by
        have := ht.owns
        rwa [← Multiset.singleton_add, add_comm] at this
      exact hbuilds.twoPages hI (hk.fits hv) (by omega) hn hsize hi hs
        ⟨x, by simp, by rw [hx]; exact le_of_lt (Bytes.nil_lt hk.1)⟩

end Builds

/-- A write that splits the second of two leaves in memory. -/
theorem insert_never_overflows_third_leaf : ∃ t : BTree InMemoryPageManager,
    t.DrawnAs BTree.twoLeaves ∧
    Ends (· = .overflow) (fun t' => ∃ ps',
        t'.Denotes InMemoryPageManager.Owns (OrdMap.insert BTree.sixBindings [103] BTree.longVal) ps')
      (t.insert [103] BTree.longVal) ∧
    t.insert [103] BTree.longVal = ((⟨t.root, ⟨t.pages⟩⟩ : BTree (SizeChecked InMemoryPageManager)).insert
      [103] BTree.longVal).map (BTree.under SizeChecked.pages) ∧
    ∀ node built, t.root ≠ 0 → PageManager.get t.pages t.root = .ok node →
      InsertBuilds [103] BTree.longVal (PageManager.pageCount t.pages) t.pages node built →
      ∃ type es, TwoPages built type es := by
  obtain ⟨t, _, ht⟩ := BTree.run_six
  obtain ⟨ps, hden⟩ := ht.denotes
  exact ⟨t, ht.drawn, insert_never_overflows InMemoryPageManager.lawful hden (by decide)
    (by decide +kernel)⟩

end SqlDb
