import SqlDb.Storage.BTreeInsert

/-!
# Deletion on the bindings

`remove` erases one binding, or finds nothing and touches nothing. A rebuilt child
that has become small is merged with a sibling when the two fit one page, and a
child that has become empty always is: an empty node fits any sibling, so a node
without siblings is the only one that passes its emptiness on to its parent.

A deletion can grow a separator, since the first key below a link may be replaced
by a longer one. The parent is rebuilt in one page, so the size assertion of
`node_append_kv` is a possible end here; no other assertion is.
-/

namespace SqlDb

open Outcome OrdMap

variable {σ : Type} [PageManager σ] {I : σ → Multiset Nat → Prop} {E : Fault → Prop}

/-- How a delete can fail: in its page manager, or when a node outgrows its page. -/
def DeleteFault (E : Fault → Prop) (f : Fault) : Prop := E f ∨ f = .asserts .appendSize

theorem ends_delete {α : Type} {Q : α → Prop} {r : Except Fault α} (h : Ends E Q r) :
    Ends (DeleteFault E) Q r := h.mono (fun _ he => Or.inl he) fun _ hq => hq

/-- The same, where the assertion says that something is too big. -/
def SizeFault (E : Fault → Prop) (big : Prop) (f : Fault) : Prop :=
  E f ∨ f = .asserts .appendSize ∧ big

theorem SizeFault.delete {big : Prop} {f : Fault} (h : SizeFault E big f) : DeleteFault E f :=
  h.imp id And.left

theorem SizeFault.imp {big big' : Prop} {f : Fault} (h : SizeFault E big f) (hbig : big → big') :
    SizeFault E big' f := Or.imp id (And.imp id hbig) h

theorem ends_size {α : Type} {Q : α → Prop} {r : Except Fault α} {big : Prop} (h : Ends E Q r) :
    Ends (SizeFault E big) Q r := h.mono (fun _ he => Or.inl he) fun _ hq => hq

/-- The one page a delete builds a node in. -/
theorem size_one_page : (BNode.zeroed btreePageSize).size = btreePageSize := size_zeroed _

theorem Builds.toDelete {size t : Nat} {es : List Entry} {r : Except Fault BNode}
    (h : Builds size t es.length es r) :
    Ends (SizeFault E (size < nodeSize es)) (fun n => Holds n t es ∧ nodeSize es ≤ size) r :=
  h.holds.mono (fun _ hf => Or.inr hf) fun n hn => ⟨hn.1, by rw [← hn.2]; exact hn.1.nodeSize_le⟩

/-- What a link adds to its node. -/
theorem nodeSize_link (a b : List Entry) (p : Nat) (key : Bytes) :
    nodeSize (a ++ ⟨p, key, []⟩ :: b) = nodeSize (a ++ b) + (14 + key.length) := by
  have h1 := nodeSize_append a (⟨p, key, []⟩ :: b)
  have h2 := nodeSize_append a b
  rw [nodeSize_cons] at h1
  dsimp only [List.length_nil] at h1
  omega

/-! ## Which sibling to merge with -/

theorem mergeSibling_eq {s : σ} {ptr : Nat} {sibling updated : BNode}
    (h : PageManager.get s ptr = .ok sibling) : mergeSibling s ptr updated =
      .ok (if sibling.nbytes + updated.nbytes - BNode.ptrsOffset ≤ btreePageSize then some sibling
        else none) := by
  rw [mergeSibling, h, ok_bind]; rfl

/-- The neighbours of a link can be read. -/
def Readable (s : σ) (es : List Entry) : Prop :=
  ∀ x ∈ es, ∃ n t ex, PageManager.get s x.ptr = .ok n ∧ Holds n t ex ∧ nodeSize ex ≤ btreePageSize

theorem leftSibling_cases {s : σ} {node updated : BNode} {t : Nat} {a b : List Entry}
    (ho : Holds node t (a ++ b)) (hsib : Readable s a) :
    (a = [] ∧ leftSibling s node a.length updated = .ok none) ∨
    (∃ a' x n, a = a' ++ [x] ∧ PageManager.get s x.ptr = .ok n ∧
      leftSibling s node a.length updated =
        .ok (if n.nbytes + updated.nbytes - BNode.ptrsOffset ≤ btreePageSize then some n
          else none)) := by
  unfold leftSibling
  rcases List.eq_nil_or_concat' a with rfl | ⟨a', x, rfl⟩
  · exact Or.inl ⟨rfl, rfl⟩
  · obtain ⟨n, _, _, hget, _, _⟩ := hsib x (by simp)
    refine Or.inr ⟨a', x, n, rfl, hget, ?_⟩
    have hp : node.getPtr ((a' ++ [x]).length - 1) = x.ptr := by
      rw [show (a' ++ [x]).length - 1 = a'.length by simp]
      exact Holds.getPtr (b := b) (by simpa using ho)
    rw [if_pos (by simp), hp, mergeSibling_eq hget]

theorem rightSibling_cases {s : σ} {node updated : BNode} {t : Nat} {a b : List Entry} {e : Entry}
    (ho : Holds node t (a ++ e :: b)) (hsib : Readable s b) :
    (b = [] ∧ rightSibling s node a.length updated = .ok none) ∨
    (∃ y b' n, b = y :: b' ∧ PageManager.get s y.ptr = .ok n ∧
      rightSibling s node a.length updated =
        .ok (if n.nbytes + updated.nbytes - BNode.ptrsOffset ≤ btreePageSize then some n
          else none)) := by
  unfold rightSibling
  rw [ho.nkeys]
  cases b with
  | nil => exact Or.inl ⟨rfl, if_neg (by simp)⟩
  | cons y b' =>
      obtain ⟨n, _, _, hget, _, _⟩ := hsib y (by simp)
      refine Or.inr ⟨y, b', n, rfl, hget, ?_⟩
      have hp : node.getPtr (a.length + 1) = y.ptr := by
        rw [show a.length + 1 = (a ++ [e]).length by simp]
        exact Holds.getPtr (b := b') (by simpa using ho)
      rw [if_pos (by simp), hp, mergeSibling_eq hget]

/-- An empty node fits every sibling. -/
theorem Readable.ne_nil {s : σ} {es eu : List Entry} {x : Entry} {n updated : BNode} {tu : Nat}
    (hsib : Readable s es) (hx : x ∈ es) (hget : PageManager.get s x.ptr = .ok n)
    (hu : Holds updated tu eu)
    (hbig : ¬ n.nbytes + updated.nbytes - BNode.ptrsOffset ≤ btreePageSize) : eu ≠ [] := by
  rintro rfl
  obtain ⟨n', tx, ex, hget', hholds, hle⟩ := hsib x hx
  obtain rfl : n' = n := by rw [hget'] at hget; exact Except.ok.inj hget
  rw [hholds.nbytes, hu.nbytes] at hbig
  have : nodeSize [] = 4 := rfl
  unfold BNode.ptrsOffset at hbig
  omega

/-- A sibling and its drawing fit, or do not. -/
theorem EntryAt.fits_iff {g : Nat → Except Fault BNode} {h tu : Nat} {x : Entry} {k : Contents}
    {p : Multiset Nat} {n updated : BNode} {es : List Entry} (hx : EntryAt g (h + 1) x k p)
    (hget : g x.ptr = .ok n) (hu : Holds updated tu es) :
    Shape.fits (nodeSize es) (shapeOf g (h + 1) x) = true ↔
      n.nbytes + updated.nbytes - BNode.ptrsOffset ≤ btreePageSize := by
  obtain ⟨_, n', ex, _, hget', hn, _⟩ := entryAt_succ.mp hx
  obtain rfl : n' = n := by rw [hget'] at hget; exact Except.ok.inj hget
  rw [Shape.fits, shapeOf_succ hget' hn.holds, decide_eq_true_iff, hn.concat.shape_used,
    hn.holds.nbytes, hu.nbytes]
  rfl

/-- A link's page can be read. -/
theorem Concat.readable {s : σ} {h : Nat} {es : List Entry} {kvs : Contents} {ps : Multiset Nat}
    (hc : Concat (EntryAt (PageManager.get s) (h + 1)) es kvs ps) : Readable s es := by
  induction hc with
  | nil => intro x hx; cases hx
  | cons he _ ih =>
      intro x hx
      rcases List.mem_cons.mp hx with rfl | hx
      · obtain ⟨_, n, ex, _, hget, hn, hsize, _⟩ := entryAt_succ.mp he
        exact ⟨n, _, ex, hget, hn.holds, hsize⟩
      · exact ih x hx

/-- **What `should_merge` decides.** It names a sibling that fits, the one that the drawing is
joined with, and an empty node is only left alone where there is none. -/
theorem shouldMerge_cases {s : σ} {node updated : BNode} {h t tu : Nat} {a b es : List Entry}
    {e : Entry} {ka kb : Contents} {pa pb : Multiset Nat} (ho : Holds node t (a ++ e :: b))
    (hu : Holds updated tu es) (ha : Concat (EntryAt (PageManager.get s) (h + 1)) a ka pa)
    (hb : Concat (EntryAt (PageManager.get s) (h + 1)) b kb pb) {dir : MergeDirection}
    (hdir : Shape.joins (nodeSize es) (a.map (shapeOf (PageManager.get s) (h + 1)))
      (b.map (shapeOf (PageManager.get s) (h + 1))) = dir) :
    (∃ n, shouldMerge s node a.length updated = .ok (.none, n) ∧ dir = .none ∧
      (es = [] → a = [] ∧ b = [])) ∨
    (∃ a' x n, a = a' ++ [x] ∧ PageManager.get s x.ptr = .ok n ∧
      shouldMerge s node a.length updated = .ok (.left, n) ∧ dir = .left ∧
      n.nbytes + updated.nbytes - BNode.ptrsOffset ≤ btreePageSize) ∨
    (∃ y b' n, b = y :: b' ∧ PageManager.get s y.ptr = .ok n ∧
      shouldMerge s node a.length updated = .ok (.right, n) ∧ dir = .right ∧
      n.nbytes + updated.nbytes - BNode.ptrsOffset ≤ btreePageSize) := by
  unfold shouldMerge
  by_cases hbig : updated.nbytes > btreePageSize / 4
  · refine Or.inl ⟨_, by rw [if_pos hbig]; rfl, ?_, ?_⟩
    · rw [hu.nbytes] at hbig
      rw [← hdir, Shape.joins_big hbig]
    · rintro rfl
      rw [hu.nbytes] at hbig
      exact absurd hbig (by decide)
  rw [if_neg hbig]
  rw [hu.nbytes] at hbig
  -- the left sibling is tried first, the right one only when it does not fit
  rcases leftSibling_cases ho ha.readable with
    ⟨rfl, hl⟩ | ⟨a', x, n, rfl, hget, hl⟩
  · rw [hl, ok_bind]
    rcases rightSibling_cases ho hb.readable with
      ⟨rfl, hr⟩ | ⟨y, b', m, rfl, hgetm, hr⟩
    · exact Or.inl ⟨_, by rw [hr]; rfl, by rw [← hdir, Shape.joins_none hbig (by simp) (by simp)],
        fun _ => ⟨rfl, rfl⟩⟩
    · obtain ⟨_, _, _, _, _, _, hy, _⟩ := concat_cons.mp hb
      have hiff := hy.fits_iff hgetm hu
      by_cases hfit : m.nbytes + updated.nbytes - BNode.ptrsOffset ≤ btreePageSize
      · exact Or.inr (Or.inr ⟨y, b', m, rfl, hgetm, by rw [hr, if_pos hfit]; rfl,
          by rw [← hdir, List.map_cons, Shape.joins_right hbig (by simp) (hiff.mpr hfit)], hfit⟩)
      · exact Or.inl ⟨_, by rw [hr, if_neg hfit]; rfl,
          by rw [← hdir, Shape.joins_none hbig (by simp) (by simpa using hiff.not.mpr hfit)],
          fun h => absurd h (hb.readable.ne_nil (by simp) hgetm hu hfit)⟩
  · obtain ⟨_, _, _, _, _, _, _, hx⟩ := concat_append.mp ha
    have hiff := (concat_singleton.mp hx).fits_iff hget hu
    by_cases hfit : n.nbytes + updated.nbytes - BNode.ptrsOffset ≤ btreePageSize
    · exact Or.inr (Or.inl ⟨a', x, n, rfl, hget, by rw [hl, if_pos hfit]; rfl,
        by rw [← hdir, List.map_append]; exact Shape.joins_left hbig (hiff.mpr hfit), hfit⟩)
    · have hne := ha.readable.ne_nil (by simp) hget hu hfit
      have hleft : ¬ ((a' ++ [x]).map (shapeOf (PageManager.get s) (h + 1))).getLast?.any
          (Shape.fits (nodeSize es)) := by simpa using hiff.not.mpr hfit
      rw [hl, if_neg hfit, ok_bind]
      rcases rightSibling_cases ho hb.readable with
        ⟨rfl, hr⟩ | ⟨y, b', m, rfl, hgetm, hr⟩
      · exact Or.inl ⟨_, by rw [hr]; rfl, by rw [← hdir, Shape.joins_none hbig hleft (by simp)],
          fun h => absurd h hne⟩
      · obtain ⟨_, _, _, _, _, _, hy, _⟩ := concat_cons.mp hb
        have hiffy := hy.fits_iff hgetm hu
        by_cases hfit' : m.nbytes + updated.nbytes - BNode.ptrsOffset ≤ btreePageSize
        · exact Or.inr (Or.inr ⟨y, b', m, rfl, hgetm, by rw [hr, if_pos hfit']; rfl,
            by rw [← hdir, List.map_cons, Shape.joins_right hbig hleft (hiffy.mpr hfit')], hfit'⟩)
        · exact Or.inl ⟨_, by rw [hr, if_neg hfit']; rfl,
            by rw [← hdir, Shape.joins_none hbig hleft (by simpa using hiffy.not.mpr hfit')],
            fun h => absurd h hne⟩

/-! ## Merging -/

/-- **Two nodes merged under one link.** Their bindings stand together below the new link, which
takes the place of `x` and `y`; the page `q` is given back. -/
theorem merge_spec (hI : LawfulPages I E) {h q : Nat} {s : σ} {old l r : BNode}
    {a b el er : List Entry} {x y : Entry} {kl kr : Contents} {pl pr R : Multiset Nat}
    (ho : Holds old bnodeNode (a ++ x :: y :: b)) (hsize : nodeSize (a ++ x :: y :: b) ≤ btreePageSize)
    (hl : NodeAt (PageManager.get s) h l el kl pl) (hr : NodeAt (PageManager.get s) h r er kr pr)
    (hfit : nodeSize (el ++ er) ≤ btreePageSize) (hne : el ++ er ≠ [])
    (hi : I s (q ::ₘ (pl + pr + R))) :
    Ends (SizeFault E (btreePageSize <
          nodeSize (a ++ b) + Shape.linkBytes ((kl ++ kr).head?.map Prod.fst)))
      (fun res => ∃ new s' link p', res = (some new, s') ∧
        Holds new bnodeNode (a ++ link :: b) ∧ nodeSize (a ++ link :: b) ≤ btreePageSize ∧
        nodeSize (a ++ link :: b) =
          nodeSize (a ++ b) + Shape.linkBytes ((kl ++ kr).head?.map Prod.fst) ∧
        EntryAt (PageManager.get s') (h + 1) link (kl ++ kr) p' ∧ I s' (p' + R) ∧
        ∀ z ∈ R, PageManager.get s' z = PageManager.get s z)
      (do
        let merged ← nodeMerge (.zeroed btreePageSize) l r
        let s ← PageManager.del s q
        let (ptr, s) ← PageManager.newPage s merged
        let newNode ← nodeReplace2Child (.zeroed btreePageSize) old a.length ptr (merged.getKey 0)
        return (some newNode, s)) := by
  have hpage := size_one_page
  have hlen := length_le_of_nodeSize hfit
  have hlen' := length_le_of_nodeSize hsize
  have hmerge : Builds (BNode.zeroed btreePageSize).size (nodeType h) (el ++ er).length (el ++ er)
      (nodeMerge (.zeroed btreePageSize) l r) :=
    nodeMerge_spec hl.holds hr.holds (nodeType_lt h) (by rw [hpage]; unfold btreePageSize; omega)
      (by rw [hpage]; unfold btreePageSize; omega)
  obtain ⟨merged, hok, hm, _⟩ := hmerge.of_fits (by rw [hpage]; exact hfit)
  rw [hok, ok_bind]
  obtain ⟨e0, rest, heq⟩ := List.exists_cons_of_ne_nil hne
  -- the separator of the merged node is the first key of the two
  have hkey : merged.getKey 0 = e0.key := by
    rw [heq] at hm
    exact hm.getKey_zero
  have hlink : Shape.linkBytes ((kl ++ kr).head?.map Prod.fst) = 14 + e0.key.length := by
    have hc := hl.concat.append hr.concat
    rw [heq] at hc
    obtain ⟨v, rest', hkvs⟩ := hc.head (entryAt_headed h)
    rw [hkvs]
    rfl
  rw [hkey, hlink]
  refine Ends.bind (ends_size (hI.del hi)) ?_
  rintro s1 ⟨hi1, hfr1⟩
  refine Ends.bind (ends_size (hI.newPage hi1 hm hfit)) ?_
  rintro ⟨p, s2⟩ ⟨hi2, ⟨n', hget, hn'⟩, hfr2⟩
  -- the child's page goes and a new one comes: all others read as before
  have hfr : ∀ z ∈ pl + pr + R, PageManager.get s2 z = PageManager.get s z :=
    fun z hz => (hfr2 z hz).trans (hfr1 z hz)
  have he0 : e0 ∈ el ++ er := by rw [heq]; simp
  have hlfit : Entry.Fits ⟨p, e0.key, []⟩ :=
    ⟨(hI.ptr hi2 p (by simp)).2, (hm.fits e0 he0).key, by simp⟩
  have hrep : Builds (BNode.zeroed btreePageSize).size bnodeNode (a.length + 1 + b.length)
      (a ++ ⟨p, e0.key, []⟩ :: b) (nodeReplace2Child (.zeroed btreePageSize) old a.length p e0.key) :=
    nodeReplace2Child_spec ho hlfit (by rw [hpage]; unfold btreePageSize; omega) (by
      rw [hpage]; simp only [List.length_append, List.length_cons] at hlen'
      unfold btreePageSize; omega)
  rw [show a.length + 1 + b.length = (a ++ (⟨p, e0.key, []⟩ : Entry) :: b).length by simp; omega,
    hpage] at hrep
  rw [← nodeSize_link a b p]
  refine Ends.bind hrep.toDelete ?_
  rintro new ⟨hnew, hnewsize⟩
  refine ⟨new, s2, ⟨p, e0.key, []⟩, p ::ₘ (pl + pr), rfl, hnew, hnewsize, rfl, ?_, ?_, ?_⟩
  · refine entryAt_succ.mpr ⟨rfl, n', el ++ er, pl + pr, hget, ⟨hn', ?_⟩,
      hfit, by rw [heq]; rfl, rfl⟩
    exact (hl.concat.append hr.concat).congr fun z hz =>
      hfr z (Multiset.mem_add.mpr (Or.inl hz))
  · rw [Multiset.cons_add]; exact hi2
  · exact fun z hz => hfr z (Multiset.mem_add.mpr (Or.inr hz))

/-! ## Deletion below a node -/

/-- What a delete below a node comes to: nothing was bound, and the pages are as they were, or the
node is rebuilt without the binding. -/
def Deleted (I : σ → Multiset Nat → Prop) (s : σ) (h : Nat) (kvs : Contents) (key : Bytes)
    (R : Multiset Nat) : Option BNode × σ → Prop
  | (none, s') => lookup kvs key = none ∧ s' = s
  | (some node', s') => lookup kvs key ≠ none ∧
      ∃ es' ps', Rebuilt I s s' h btreePageSize node' (erase kvs key) R es' ps'

/-- **Deleting below a leaf.** A leaf without one of its bindings fits a page. -/
theorem treeDelete_leaf {s : σ} {node : BNode} {es : List Entry} {kvs : Contents}
    {ps R : Multiset Nat} (key : Bytes) (fuel : Nat)
    (hn : NodeAt (PageManager.get s) 0 node es kvs ps) (hsize : nodeSize es ≤ btreePageSize)
    (hi : I s (ps + R)) (hs : Sorted kvs) :
    ∃ res, treeDelete key (fuel + 1) s node = .ok res ∧ Deleted I s 0 kvs key R res ∧
      ∀ node', res.1 = some node' →
        node'.nbytes = Shape.left key 0 (es.map (shapeOf (PageManager.get s) 0)) := by
  have hnone : ∀ {k : Contents}, (∀ r ∈ k, r.1 ≠ key) → lookup k key = none :=
    fun h => lookup_eq_none.mpr h
  rw [treeDelete, if_pos hn.btype_zero]
  rcases nodeLookupLe_cases hn.holds (hn.concat.keysSorted (entryAt_headed 0) hs) key with
    ⟨hidx, habove⟩ | ⟨a, e, b, rfl, hidx, hle, _, hlt⟩
  · rw [hidx, if_neg (by omega)]
    refine ⟨(none, s), rfl, ⟨hnone fun r hr => ?_, rfl⟩, fun _ h => by cases h⟩
    exact ne_of_gt (hn.concat.above (entryAt_headed 0) hs habove r hr)
  have hkvs := hn.concat.shape_leaf
  obtain ⟨ka, ke, kb, pa, pe, pb, rfl, rfl, ha, he, hb, hka, _, hkb⟩ :=
    hn.concat.route (entryAt_headed 0) hs hle hlt
  obtain ⟨_, rfl, rfl⟩ := entryAt_zero.mp he
  rw [add_zero] at hi
  rw [hidx, Int.toNat_natCast, hn.holds.getKey]
  split
  · -- the key is there
    rename_i hcond
    obtain rfl : e.key = key := hcond.2
    have hsz := size_one_page
    have hless : nodeSize (a ++ b) ≤ nodeSize (a ++ e :: b) := by
      have h1 := nodeSize_append a (e :: b)
      have h2 := nodeSize_append a b
      rw [nodeSize_cons] at h1
      omega
    have hlen := length_le_of_nodeSize (hless.trans hsize)
    have hbuild : Builds (BNode.zeroed btreePageSize).size bnodeLeaf (a ++ b).length (a ++ b)
        (leafDelete (.zeroed btreePageSize) node a.length) :=
      leafDelete_spec hn.holds (by rw [hsz]; unfold btreePageSize; omega) (by
        rw [hsz]; unfold btreePageSize; omega)
    obtain ⟨node', hok, hholds, _⟩ := hbuild.of_fits (by rw [hsz]; exact hless.trans hsize)
    have herase : erase (ka ++ [(e.key, e.val)] ++ kb) e.key = ka ++ kb := by
      rw [erase_segment hka hkb, erase_singleton_self, List.append_nil]
    refine ⟨(some node', s), by rw [hok]; rfl, ⟨?_, a ++ b, pa + pb, ⟨hholds, ?_⟩,
      hless.trans hsize, hi, fun _ _ => rfl⟩, ?_⟩
    · rw [lookup_segment hka hkb, lookup_singleton_self]; simp
    · rw [herase]
      exact ha.append hb
    · rintro _ h
      cases h
      rw [hholds.nbytes, ← (ha.append hb).shape_used, (ha.append hb).shape_leaf, ← herase, hkvs]
      rfl
  · -- it is not
    rename_i hcond
    refine ⟨(none, s), rfl, ⟨?_, rfl⟩, fun _ h => by cases h⟩
    show lookup _ key = none
    rw [lookup_segment hka hkb]
    refine hnone fun r hr => ?_
    rw [List.mem_singleton.mp hr]
    exact fun h => hcond ⟨by omega, h⟩

/-- The bytes of a node whose link between `a` and `b` is to a node rebuilt with the entries `es`. -/
def above (s : σ) (h : Nat) (a b es : List Entry) (kvs : Contents) : Nat :=
  Shape.above (nodeSize es) (a.map (shapeOf (PageManager.get s) (h + 1)))
    (b.map (shapeOf (PageManager.get s) (h + 1))) (kvs.head?.map Prod.fst)

section Above

variable {s : σ} {h : Nat} {a b es : List Entry} {ka kb kvs : Contents} {pa pb : Multiset Nat}

/-- The links that stay take the bytes they took. -/
theorem used_siblings (ha : Concat (EntryAt (PageManager.get s) (h + 1)) a ka pa)
    (hb : Concat (EntryAt (PageManager.get s) (h + 1)) b kb pb) :
    Shape.used (a.map (shapeOf (PageManager.get s) (h + 1)) ++
      b.map (shapeOf (PageManager.get s) (h + 1))) = nodeSize (a ++ b) := by
  rw [← (ha.append hb).shape_used, List.map_append]

theorem above_none (ha : Concat (EntryAt (PageManager.get s) (h + 1)) a ka pa)
    (hb : Concat (EntryAt (PageManager.get s) (h + 1)) b kb pb)
    (hdir : Shape.joins (nodeSize es) (a.map (shapeOf (PageManager.get s) (h + 1)))
      (b.map (shapeOf (PageManager.get s) (h + 1))) = .none) :
    above s h a b es kvs = nodeSize (a ++ b) + Shape.linkBytes (kvs.head?.map Prod.fst) := by
  rw [above, Shape.above, hdir]
  dsimp only
  rw [used_siblings ha hb]

theorem above_left (ha : Concat (EntryAt (PageManager.get s) (h + 1)) a ka pa)
    (hb : Concat (EntryAt (PageManager.get s) (h + 1)) b kb pb)
    (hdir : Shape.joins (nodeSize es) (a.map (shapeOf (PageManager.get s) (h + 1)))
      (b.map (shapeOf (PageManager.get s) (h + 1))) = .left) :
    above s h a b es kvs = nodeSize (a ++ b) := by
  rw [above, Shape.above, hdir]
  dsimp only
  rw [used_siblings ha hb]

theorem above_right {y : Entry} {ky : Contents} {py : Multiset Nat}
    (ha : Concat (EntryAt (PageManager.get s) (h + 1)) a ka pa)
    (hy : EntryAt (PageManager.get s) (h + 1) y ky py)
    (hb : Concat (EntryAt (PageManager.get s) (h + 1)) b kb pb)
    (hdir : Shape.joins (nodeSize es) (a.map (shapeOf (PageManager.get s) (h + 1)))
      ((y :: b).map (shapeOf (PageManager.get s) (h + 1))) = .right) :
    above s h a (y :: b) es kvs =
      nodeSize (a ++ b) + Shape.linkBytes ((kvs ++ ky).head?.map Prod.fst) := by
  obtain ⟨v, rest, rfl⟩ := entryAt_headed _ _ _ _ hy
  rw [above, Shape.above, hdir]
  dsimp only
  rw [List.map_cons, List.tail_cons, used_siblings ha hb, List.head?_cons, Option.map_some,
    hy.shape_key]
  cases kvs <;> rfl

end Above

/-- What `node_delete` does with the rebuilt child: whichever sibling it is merged with, the
node's bindings are the child's among the others', and its bytes are those that the drawing says. -/
theorem nodeDelete_spec (hI : LawfulPages I E) {h : Nat} {s : σ} {old updated : BNode}
    {a b es1 : List Entry} {e : Entry} {ka k1 kb : Contents} {pa p1 pb R : Multiset Nat}
    (ho : Holds old bnodeNode (a ++ e :: b)) (hsize : nodeSize (a ++ e :: b) ≤ btreePageSize)
    (ha : Concat (EntryAt (PageManager.get s) (h + 1)) a ka pa)
    (hu : NodeAt (PageManager.get s) h updated es1 k1 p1) (husize : nodeSize es1 ≤ btreePageSize)
    (hb : Concat (EntryAt (PageManager.get s) (h + 1)) b kb pb)
    (hi : I s (p1 + (pa + pb + R))) {s0 : σ} {childPtr : Nat} {child : BNode}
    (hptr : old.getPtr a.length = childPtr) (hget : PageManager.get s0 childPtr = .ok child)
    {deleteBelow : σ → BNode → Except Fault (Option BNode × σ)} {s1 : σ}
    (hbelow : deleteBelow s0 child = .ok (some updated, s1))
    (hdel : PageManager.del s1 childPtr = .ok s) :
    Ends (SizeFault E (btreePageSize < above s h a b es1 k1))
      (fun res => ∃ new s' es' ps', res = (some new, s') ∧
        Rebuilt I s s' (h + 1) btreePageSize new (ka ++ k1 ++ kb) R es' ps' ∧
        nodeSize es' = above s h a b es1 k1)
      (nodeDelete deleteBelow s0 old a.length) := by
  have hpage := size_one_page
  rw [nodeDelete, hptr, hget, ok_bind, hbelow, ok_bind]
  dsimp only
  rw [hdel, ok_bind]
  rcases shouldMerge_cases ho hu.holds ha hb rfl with
    ⟨n, hok, hdir, hempty⟩ | ⟨a', x, n, rfl, hgetx, hok, hdir, hfit⟩ |
    ⟨y, b', n, rfl, hgety, hok, hdir, hfit⟩
  · -- no sibling: the link is replaced, or the node passes its emptiness on
    rw [hok, ok_bind, above_none ha hb hdir]
    dsimp only
    rw [hu.holds.nkeys]
    rcases List.eq_nil_or_concat' es1 with rfl | ⟨es1', x1, heq⟩
    · obtain ⟨rfl, rfl⟩ := hempty rfl
      obtain ⟨rfl, rfl⟩ := concat_nil.mp ha
      obtain ⟨rfl, rfl⟩ := concat_nil.mp hb
      obtain ⟨rfl, rfl⟩ := concat_nil.mp hu.concat
      rw [List.length_nil, if_pos rfl]
      refine Ends.require ⟨by rw [ho.nkeys]; rfl, rfl⟩ ?_
      have hnew : Holds ((BNode.zeroed btreePageSize).setHeader bnodeNode 0) bnodeNode [] :=
        filled_setHeader (by decide) (by rw [hpage]; unfold btreePageSize; omega)
          (by rw [hpage]; decide)
      exact ⟨_, s, [], 0, rfl, ⟨⟨hnew, .nil⟩, by decide, by simpa using hi, fun _ _ => rfl⟩, rfl⟩
    · have hne : es1 ≠ [] := by rw [heq]; simp
      rw [if_neg (by simpa using hne)]
      have hlen := length_le_of_nodeSize hsize
      simp only [List.length_append, List.length_cons] at hlen
      have hpieces : Pieces (nodeType h) [updated] [es1] :=
        .cons ⟨hu.holds, husize, hne⟩ .nil
      -- the separator is the first key that is left
      obtain ⟨e1, rest, hes1, hkey⟩ := head_key hne
      have hfirst : Shape.linkBytes (k1.head?.map Prod.fst) = 14 + e1.key.length := by
        have hc := hu.concat
        rw [hes1] at hc
        obtain ⟨v, rest', hk1⟩ := hc.head (entryAt_headed h)
        rw [hk1]
        rfl
      have hbytes : nodeSize (a ++ [es1].map linkOf ++ b) =
          nodeSize (a ++ b) + Shape.linkBytes (k1.head?.map Prod.fst) := by
        rw [hfirst, ← nodeSize_link a b 0, List.map_singleton, linkOf, hkey]
        simp
      have hrep := nodeReplaceChildN_spec hI ho hpieces (by simpa using hu.concat) hi
        (n := .zeroed btreePageSize) (by rw [hpage]; unfold btreePageSize; omega)
        (by rw [hpage, List.length_singleton]; unfold btreePageSize; omega)
      rw [hbytes, hpage] at hrep
      refine Ends.bind hrep ?_
      rintro ⟨new, s'⟩ ⟨links, pl, hl, hnew, hnewsize⟩
      obtain ⟨hrec, hlinks⟩ := recBytes_of_shape hl.shape
      have hsame : nodeSize (a ++ links ++ b) = nodeSize (a ++ [es1].map linkOf ++ b) := by
        simp only [nodeSize, List.length_append, List.length_map, recBytes_append, hrec, hlinks]
      refine ⟨new, s', a ++ links ++ b, pa + pl + pb, rfl, ⟨⟨hnew, ?_⟩, ?_, ?_, fun q hq =>
        hl.frame q (by simp [hq])⟩, by rw [hsame, hbytes]⟩
      · exact ((ha.congr fun q hq => hl.frame q (by simp [hq])).append hl.concat).append
          (hb.congr fun q hq => hl.frame q (by simp [hq]))
      · have := hnew.nodeSize_le
        rwa [hnewsize] at this
      · have : pa + pl + pb + R = pl + (pa + pb + R) := by abel
        rw [this]; exact hl.owns
  · -- the left sibling takes the child's entries
    rw [above_left ha hb hdir]
    obtain ⟨ka', kx, pa', px, rfl, rfl, ha', hx⟩ := concat_append.mp ha
    obtain ⟨hval, n', ex, px', hgetx', hn', _, hhd, rfl⟩ := entryAt_succ.mp (concat_singleton.mp hx)
    obtain rfl : n' = n := by rw [hgetx'] at hgetx; exact Except.ok.inj hgetx
    have ho' : Holds old bnodeNode (a' ++ x :: e :: b) := by simpa using ho
    rw [hn'.holds.nbytes, hu.holds.nbytes] at hfit
    have hfit' : nodeSize (ex ++ es1) ≤ btreePageSize := by
      have := nodeSize_append ex es1
      unfold BNode.ptrsOffset at hfit; omega
    rw [hok, ok_bind]
    dsimp only
    rw [show (a' ++ [x]).length - 1 = a'.length by simp, ho'.getPtr]
    have hne : ex ++ es1 ≠ [] := by
      obtain ⟨z, rest, rfl, _⟩ := head_of_head? hhd
      simp
    have hi' : I s (x.ptr ::ₘ (px' + p1 + (pa' + pb + R))) := by
      have : p1 + (pa' + x.ptr ::ₘ px' + pb + R) = x.ptr ::ₘ (px' + p1 + (pa' + pb + R)) := by
        simp only [← Multiset.singleton_add]; abel
      rwa [← this]
    -- the left sibling's separator stays
    have hbytes : nodeSize (a' ++ b) + Shape.linkBytes ((kx ++ k1).head?.map Prod.fst) =
        nodeSize (a' ++ [x] ++ b) := by
      obtain ⟨v, rest, rfl⟩ := entryAt_headed _ _ _ _ (concat_singleton.mp hx)
      have hx' : x = ⟨x.ptr, x.key, []⟩ := by rw [← hval]
      rw [List.append_assoc, List.singleton_append, hx', nodeSize_link]
      rfl
    have hmerge := merge_spec hI ho' (by simpa using hsize) hn' hu hfit' hne hi'
    rw [hbytes] at hmerge
    refine hmerge.imp ?_
    rintro _ ⟨new, s', link, pl, rfl, hnew, hnewsize, hlinksize, hlink, hi2, hfr⟩
    refine ⟨new, s', a' ++ link :: b, pa' + pl + pb, rfl, ⟨⟨hnew, ?_⟩, hnewsize, ?_, fun q hq =>
      hfr q (by simp [hq])⟩, hlinksize⟩
    · have := concat_split.mpr ⟨_, _, _, _, _, _, rfl, rfl, ha'.congr fun q hq => hfr q (by simp [hq]),
        hlink, hb.congr fun q hq => hfr q (by simp [hq])⟩
      simpa using this
    · have : pa' + pl + pb + R = pl + (pa' + pb + R) := by abel
      rw [this]; exact hi2
  · -- the child takes the right sibling's entries
    obtain ⟨ky, kb', py, pb', rfl, rfl, hy, hb'⟩ := concat_cons.mp hb
    rw [above_right ha hy hb' hdir]
    obtain ⟨_, n', ey, py', hgety', hn', _, hhd, rfl⟩ := entryAt_succ.mp hy
    obtain rfl : n' = n := by rw [hgety'] at hgety; exact Except.ok.inj hgety
    rw [hn'.holds.nbytes, hu.holds.nbytes] at hfit
    have hfit' : nodeSize (es1 ++ ey) ≤ btreePageSize := by
      have := nodeSize_append es1 ey
      unfold BNode.ptrsOffset at hfit; omega
    have hptr' : old.getPtr (a.length + 1) = y.ptr := by
      rw [show a.length + 1 = (a ++ [e]).length by simp]
      exact Holds.getPtr (b := b') (by simpa using ho)
    rw [hok, ok_bind]
    dsimp only
    rw [hptr']
    have hne : es1 ++ ey ≠ [] := by
      obtain ⟨z, rest, rfl, _⟩ := head_of_head? hhd
      simp
    have hi' : I s (y.ptr ::ₘ (p1 + py' + (pa + pb' + R))) := by
      have : p1 + (pa + (y.ptr ::ₘ py' + pb') + R) = y.ptr ::ₘ (p1 + py' + (pa + pb' + R)) := by
        simp only [← Multiset.singleton_add]; abel
      rwa [← this]
    refine (merge_spec hI ho hsize hu hn' hfit' hne hi').imp ?_
    rintro _ ⟨new, s', link, pl, rfl, hnew, hnewsize, hlinksize, hlink, hi2, hfr⟩
    refine ⟨new, s', a ++ link :: b', pa + pl + pb', rfl, ⟨⟨hnew, ?_⟩, hnewsize, ?_, fun q hq =>
      hfr q (by simp [hq])⟩, hlinksize⟩
    · have := concat_split.mpr ⟨_, _, _, _, _, _, rfl, rfl, ha.congr fun q hq => hfr q (by simp [hq]),
        hlink, hb'.congr fun q hq => hfr q (by simp [hq])⟩
      simpa using this
    · have : pa + pl + pb' + R = pl + (pa + pb' + R) := by abel
      rw [this]; exact hi2

/-- **Deleting below any node erases one binding of what it denotes**, or there was none. It fails
for want of room exactly where the drawing has none, and leaves the bytes that the drawing says. -/
theorem treeDelete_exact (hI : LawfulPages I E) (key : Bytes) :
    ∀ {h fuel : Nat} {s : σ} {node : BNode} {es : List Entry} {kvs : Contents}
      {ps R : Multiset Nat}, h < fuel → NodeAt (PageManager.get s) h node es kvs ps →
      nodeSize es ≤ btreePageSize → I s (ps + R) → Sorted kvs → (∃ e ∈ es, e.key ≤ key) →
      Ends (SizeFault E (¬ Shape.Room key h (es.map (shapeOf (PageManager.get s) h))))
        (fun res => Deleted I s h kvs key R res ∧
          Shape.Room key h (es.map (shapeOf (PageManager.get s) h)) ∧
          ∀ node', res.1 = some node' →
            node'.nbytes = Shape.left key h (es.map (shapeOf (PageManager.get s) h)))
        (treeDelete key fuel s node)
  | _, 0, _, _, _, _, _, _, hf, _, _, _, _, _ => absurd hf (by omega)
  | 0, fuel + 1, s, node, es, kvs, ps, R, _, hn, hsize, hi, hs, _ => by
      obtain ⟨res, hok, hdeleted, hbytes⟩ := treeDelete_leaf key fuel hn hsize hi hs
      rw [hok]
      exact ⟨hdeleted, trivial, hbytes⟩
  | h + 1, fuel + 1, s, node, es, kvs, ps, R, hf, hn, hsize, hi, hs, hhead => by
      rw [treeDelete, if_neg (by rw [hn.btype_succ]; exact bnodeNode_ne_leaf), if_pos hn.btype_succ]
      rcases nodeLookupLe_cases hn.holds (hn.concat.keysSorted (entryAt_headed _) hs) key with
        ⟨_, habove⟩ | ⟨a, e, b, rfl, hidx, hle, hlta, hlt⟩
      · obtain ⟨e, he, hle⟩ := hhead
        exact absurd hle (not_le.mpr (habove e he))
      have hroute := hn.concat.shape_route hlta hle hlt
      have hused := hn.concat.shape_used
      obtain ⟨ka, ke, kb, pa, pe, pb, rfl, rfl, ha, he, hb, hka, hse, hkb⟩ :=
        hn.concat.route (entryAt_headed _) hs hle hlt
      -- what the drawing says of this node, given the node below
      obtain ⟨v, restk, hke⟩ := entryAt_headed _ _ _ _ he
      have hcontents := he.shape_contents
      have hkey := he.shape_key
      have hroom := Shape.room_succ hroute (List.map_append.trans rfl)
        (by rw [hcontents, hkey]; exact hke) (by rw [hused]; exact hsize)
      obtain ⟨_, child, ec, pc, hget, hc, hcsize, hhd, rfl⟩ := entryAt_succ.mp he
      obtain ⟨x, rest, rfl, hx⟩ := head_of_head? hhd
      have hdraw : shapeOf (PageManager.get s) (h + 1) e =
          (x :: rest).map (shapeOf (PageManager.get s) h) := shapeOf_succ hget hc.holds
      rw [hidx]
      refine Ends.require (by omega) ?_
      rw [Int.toNat_natCast]
      have hi' : I s (pc + (e.ptr ::ₘ (pa + pb + R))) := by
        have : pa + e.ptr ::ₘ pc + pb + R = pc + (e.ptr ::ₘ (pa + pb + R)) := by
          simp only [← Multiset.singleton_add]; abel
        rwa [← this]
      have ih := treeDelete_exact hI key (show h < fuel by omega) hc hcsize hi' hse
        ⟨x, by simp, by rw [hx]; exact hle⟩
      rw [← hdraw] at ih
      have hlook : lookup (ka ++ ke ++ kb) key = lookup ke key := lookup_segment hka hkb
      cases hbelow : treeDelete key fuel s child with
      | error f =>
          rw [hbelow] at ih
          rw [nodeDelete, hn.holds.getPtr, hget, ok_bind, hbelow, error_bind]
          exact SizeFault.imp ih fun hno hyes => hno (hroom.mp hyes).1
      | ok res =>
          rw [hbelow] at ih
          obtain ⟨found, s1⟩ := res
          cases found with
          | none =>
              rw [nodeDelete, hn.holds.getPtr, hget, ok_bind, hbelow, ok_bind]
              obtain ⟨⟨hnone, hsame⟩, hroomc, _⟩ := ih
              refine ⟨⟨hlook.trans hnone, hsame⟩, Shape.Room.of_ne hroute hroomc fun heq => ?_,
                fun _ h => by cases h⟩
              -- a separator that is the key would be bound
              refine lookup_eq_none.mp hnone (e.key, v) (by rw [hke]; simp) ?_
              rw [← hkey]
              exact heq
          | some updated =>
              obtain ⟨⟨hfound, es1, p1, hchild⟩, hroomc, hbytes⟩ := ih
              have hi1 : I s1 (e.ptr ::ₘ (p1 + (pa + pb + R))) := by
                have : p1 + (e.ptr ::ₘ (pa + pb + R)) = e.ptr ::ₘ (p1 + (pa + pb + R)) :=
                  Multiset.add_cons _ _ _
                rw [← this]; exact hchild.owns
              have hdel := hI.del hi1
              cases hdeleq : PageManager.del s1 e.ptr with
              | error f =>
                  rw [hdeleq] at hdel
                  rw [nodeDelete, hn.holds.getPtr, hget, ok_bind, hbelow, ok_bind]
                  dsimp only
                  rw [hdeleq, error_bind]
                  exact Or.inl hdel
              | ok s2 =>
                  rw [hdeleq] at hdel
                  obtain ⟨hi2, hfr2⟩ := hdel
                  have hfr : ∀ q ∈ pa + pb + R, PageManager.get s2 q = PageManager.get s q :=
                    fun q hq => (hfr2 q (Multiset.mem_add.mpr (Or.inr hq))).trans
                      (hchild.frame q (Multiset.mem_cons_of_mem hq))
                  have hu : NodeAt (PageManager.get s2) h updated es1 (erase ke key) p1 :=
                    ⟨hchild.node.holds, hchild.node.concat.congr fun q hq => hfr2 q (by simp [hq])⟩
                  have hbytes1 : nodeSize es1 =
                      Shape.left key h (shapeOf (PageManager.get s) (h + 1) e) := by
                    rw [← hbytes updated rfl, hu.holds.nbytes]
                  have hleft : above s2 h a b es1 (erase ke key) = Shape.left key (h + 1)
                      ((a ++ e :: b).map (shapeOf (PageManager.get s) (h + 1))) := by
                    rw [Shape.left, hroute, above, hbytes1,
                      ha.shape_congr fun q hq => hfr q (by simp [hq]),
                      hb.shape_congr fun q hq => hfr q (by simp [hq])]
                    dsimp only
                    rw [Shape.next, hcontents]
                  have hnd := nodeDelete_spec hI hn.holds hsize
                    (ha.congr fun q hq => hfr q (by simp [hq])) hu hchild.size
                    (hb.congr fun q hq => hfr q (by simp [hq])) hi2 hn.holds.getPtr hget hbelow hdeleq
                  rw [hleft] at hnd
                  refine hnd.mono (fun f hf' => hf'.imp fun hbig hyes => ?_) ?_
                  · exact absurd (hroom.mp hyes).2 (Nat.not_le.mpr hbig)
                  · rintro _ ⟨new, s', es', ps', rfl, hr, hsize'⟩
                    refine ⟨⟨by rw [hlook]; exact hfound, es', ps', ⟨?_, hr.size, hr.owns,
                      fun q hq => (hr.frame q hq).trans (hfr q (by simp [hq]))⟩⟩,
                      hroom.mpr ⟨hroomc, ?_⟩, ?_⟩
                    · rw [erase_segment hka hkb]
                      exact hr.node
                    · rw [← hsize']
                      exact hr.size
                    · rintro _ h
                      cases h
                      rw [hr.node.holds.nbytes, hsize']

/-! ## The call -/

/-- What `remove` reports and leaves: the tree as it was when nothing was bound, and the tree
without the binding otherwise. -/
def Removed (I : σ → Multiset Nat → Prop) (t : BTree σ) (m : Contents) (key : Bytes)
    (r : Bool × BTree σ) : Prop :=
  r.1 = (lookup m key).isSome ∧ (r.1 = false → r.2 = t) ∧
    (r.1 = true → r.2.root ≠ 0 ∧ ∃ ps', r.2.Denotes I (erase m key) ps')

/-- A root left with a single link is replaced by that link's node. -/
theorem collapse_spec (hI : LawfulPages I E) {s : σ} {h : Nat} {node : BNode} {es : List Entry}
    {m : Contents} {ps : Multiset Nat}
    (hn : NodeAt (PageManager.get s) h node es (([], []) :: m) ps)
    (htype : node.btype = bnodeNode) (hone : node.nkeys = 1) (hs : Sorted (([], []) :: m))
    (hi : I s ps) : node.getPtr 0 ≠ 0 ∧ BTree.Denotes I ⟨node.getPtr 0, s⟩ m ps := by
  cases h with
  | zero => exact absurd (htype.symm.trans hn.btype_zero) bnodeNode_ne_leaf
  | succ h =>
      rw [hn.holds.nkeys] at hone
      obtain ⟨x, rfl⟩ := List.length_eq_one_iff.mp hone
      have hx := concat_singleton.mp hn.concat
      obtain ⟨v, rest, heq⟩ := entryAt_headed _ _ _ _ hx
      rw [List.cons.injEq, Prod.mk.injEq] at heq
      obtain ⟨hv, _, _, _, _, _, _, _, hps⟩ := entryAt_succ.mp hx
      have hptr : node.getPtr 0 = x.ptr := Holds.getPtr (a := []) (b := []) hn.holds
      have hx' : x = ⟨x.ptr, [], []⟩ := by
        cases x
        simp only [Entry.mk.injEq, true_and]
        exact ⟨heq.1.1.symm, hv⟩
      rw [hptr]
      have hne : x.ptr ≠ 0 := (hI.ptr hi x.ptr (by rw [hps]; simp)).1
      refine ⟨hne, Or.inr ⟨hne, hs, h, ?_⟩, hi⟩
      rw [hx'] at hx
      exact hx

/-- There is room to delete the key from the tree. -/
def BTree.RoomFor (t : BTree σ) (key : Bytes) : Prop :=
  t.root = 0 ∨ ∃ S, t.DrawnAs S ∧ Shape.Room key S.1 S.2

/-- **`BTree::remove` erases the key and reports whether it was there**, or has no room to. The tree
ends up owned as its old root's page leaves it. -/
theorem BTree.remove_exact {I' : σ → Multiset Nat → Prop} (hI : LawfulPages I E)
    (hI' : LawfulPages I' E) {t : BTree σ} {m : Contents} {ps : Multiset Nat}
    (hfree : t.root ≠ 0 → Frees I I' E t.root) (ht : t.Denotes I m ps) {key : Bytes}
    (hk : ValidKey key) : Ends (SizeFault E (¬ t.RoomFor key))
      (fun r => Removed I' t m key r ∧ t.RoomFor key) (t.remove key) := by
  have hpos : ([] : Bytes) < key := Bytes.nil_lt hk.1
  -- the sentinel is not the key
  have hne : ¬ (([] : Bytes) = key) := fun h => hk.1 h.symm
  have hlook : lookup (([], []) :: m) key = lookup m key := by simp [lookup, hne]
  have herase : erase (([], []) :: m) key = ([], []) :: erase m key := by
    simp [erase, hne]
  have hsame : lookup m key = none → Removed I' t m key (false, t) := fun h =>
    ⟨by rw [h]; rfl, fun _ => rfl, fun h => by cases h⟩
  rw [remove_valid t hk, removeChecked]
  rcases ht.tree with ⟨hroot, rfl, rfl⟩ | ⟨hroot, hsm, h, he⟩
  · rw [if_pos hroot]
    exact ⟨hsame rfl, Or.inl hroot⟩
  rw [if_neg hroot]
  have hfuel : h + 1 ≤ PageManager.pageCount t.pages := le_trans he.height_le (hI.count ht.owns)
  obtain ⟨_, node, es, ps', hget, hn, hsize, hhd, rfl⟩ := entryAt_succ.mp he
  obtain ⟨x, rest, rfl, hx⟩ := head_of_head? hhd
  rw [hget, ok_bind]
  have hi : I t.pages (ps' + {t.root}) := by
    have := ht.owns
    rwa [← Multiset.singleton_add, add_comm] at this
  have hdrawn : t.DrawnAs ⟨h, (x :: rest).map (shapeOf (PageManager.get t.pages) h)⟩ :=
    ⟨he.levels, shapeOf_succ (e := ⟨t.root, [], []⟩) hget hn.holds⟩
  have hspec := treeDelete_exact hI key (show h < PageManager.pageCount t.pages by omega) hn hsize hi
    hsm ⟨x, by simp, by rw [hx]; exact le_of_lt hpos⟩
  refine Ends.bind (hspec.mono (fun f hf => hf.imp fun hno => ?_) fun _ hr => hr) ?_
  · rintro (h0 | ⟨S, hS, hroom⟩)
    · exact hroot h0
    · rw [hS.eq he hget hn] at hroom
      exact hno hroom
  rintro ⟨_ | updated, s1⟩ ⟨hres, hroom, _⟩
  · obtain ⟨hnone, rfl⟩ := hres
    exact ⟨hsame (hlook.symm.trans hnone), Or.inr ⟨_, hdrawn, hroom⟩⟩
  have hroom' : t.RoomFor key := Or.inr ⟨_, hdrawn, hroom⟩
  obtain ⟨hfound, es1, p1, hr⟩ := hres
  rw [hlook] at hfound
  have hsome : true = (lookup m key).isSome := (Option.isSome_iff_ne_none.mpr hfound).symm
  have hnode := hr.node
  rw [herase] at hnode
  have hs' : Sorted (([], []) :: erase m key) := by
    rw [← herase]; exact hsm.erase key
  have hi1 : I s1 (t.root ::ₘ p1) := by
    have := hr.owns
    rwa [add_comm, Multiset.singleton_add] at this
  refine Ends.bind (ends_size (hfree hroot hi1)) ?_
  rintro s2 ⟨hi2, hfr2⟩
  have hnode2 : NodeAt (PageManager.get s2) h updated es1 (([], []) :: erase m key) p1 :=
    ⟨hnode.holds, hnode.concat.congr hfr2⟩
  split
  · -- the root keeps one child, which becomes the root
    rename_i hone
    obtain ⟨hp, hd⟩ := collapse_spec hI' hnode2 hone.1 hone.2 hs' hi2
    exact ⟨⟨hsome, fun h => (by cases h), fun _ => ⟨hp, p1, hd⟩⟩, hroom'⟩
  · refine Ends.bind (ends_size (store_root hI' hnode2 hr.size hs' hi2)) ?_
    rintro ⟨p, s3⟩ ⟨hp, hd, _⟩
    exact ⟨⟨hsome, fun h => (by cases h), fun _ => ⟨hp, _, hd⟩⟩, hroom'⟩

theorem BTree.remove_moves {I' : σ → Multiset Nat → Prop} (hI : LawfulPages I E)
    (hI' : LawfulPages I' E) {t : BTree σ} {m : Contents} {ps : Multiset Nat}
    (hfree : t.root ≠ 0 → Frees I I' E t.root) (ht : t.Denotes I m ps) {key : Bytes}
    (hk : ValidKey key) : Ends (DeleteFault E) (Removed I' t m key) (t.remove key) :=
  (remove_exact hI hI' hfree ht hk).mono (fun _ hf => hf.delete) fun _ hr => hr.1

theorem BTree.remove_spec (hI : LawfulPages I E) {t : BTree σ} {m : Contents} {ps : Multiset Nat}
    (ht : t.Denotes I m ps) {key : Bytes} (hk : ValidKey key) :
    Ends (DeleteFault E) (fun r => r.1 = (lookup m key).isSome ∧ (r.1 = false → r.2 = t) ∧
      ∃ ps', r.2.Denotes I (erase m key) ps') (t.remove key) := by
  refine (remove_moves hI hI (fun _ => hI.frees t.root) ht hk).imp ?_
  rintro ⟨found, t'⟩ ⟨hfound, hsame, hd⟩
  refine ⟨hfound, hsame, ?_⟩
  cases found with
  | true => exact (hd rfl).2
  | false =>
      have hnone : lookup m key = none := by simpa using hfound.symm
      rw [hsame rfl, erase_of_not_mem (lookup_eq_none.mp hnone)]
      exact ⟨ps, ht⟩

end SqlDb
