import SqlDb.Storage.ShapeAt

/-!
# Lookup and insertion on the bindings

`get` finds what the tree denotes, and `insert` changes it by exactly one
binding. The induction is on the height of the subtree. Its statement frames: the
subtree's pages are `ps`, everything else the tree owns is `R`, and a call leaves
`R` owned and every page of it as it was. What the recursion rebuilds is then put
back between its siblings by the splitting rules of `OrdMap`.
-/

namespace SqlDb

open Outcome OrdMap

variable {σ : Type} [PageManager σ] {I : σ → Multiset Nat → Prop} {E : Fault → Prop}

/-! ## Lookup -/

/-- **The descent finds the binding**, given a bound above the height. -/
theorem getLoop_spec {s : σ} {key : Bytes} : ∀ {h fuel : Nat} {node : BNode} {es : List Entry}
    {kvs : Contents} {ps : Multiset Nat}, NodeAt (PageManager.get s) h node es kvs ps →
    Sorted kvs → h < fuel → BTree.getLoop s key fuel node = .ok (lookup kvs key)
  | h, 0, _, _, _, _, _, _, hf => absurd hf (by omega)
  | h, fuel + 1, node, es, kvs, ps, hn, hs, hf => by
      rw [BTree.getLoop]
      rcases nodeLookupLe_cases hn.holds (hn.concat.keysSorted (entryAt_headed h) hs) key with
        ⟨hidx, habove⟩ | ⟨a, e, b, rfl, hidx, hle, _, hlt⟩
      · -- every key is above, so the binding is not here
        have hnone : lookup kvs key = none := lookup_eq_none.mpr fun r hr =>
          ne_of_gt (hn.concat.above (entryAt_headed h) hs habove r hr)
        rw [hidx, hnone]
        rfl
      · obtain ⟨ka, ke, kb, pa, pe, pb, rfl, rfl, _, he, _, hka, _, hkb⟩ :=
          hn.concat.route (entryAt_headed h) hs hle hlt
        rw [lookup_segment hka hkb, hidx]
        simp only [Int.toNat_natCast]
        rw [if_neg (by omega)]
        cases h with
        | zero =>
            obtain ⟨_, rfl, _⟩ := entryAt_zero.mp he
            rw [if_pos hn.btype_zero, hn.holds.getKey, hn.holds.getVal]
            split
            · rename_i heq; rw [← heq, lookup_singleton_self]; rfl
            · rename_i hne
              rw [lookup_eq_none.mpr fun r hr => by rw [List.mem_singleton.mp hr]; exact hne]
              rfl
        | succ h =>
            obtain ⟨_, child, es', ps', hget, hc, _, _, rfl⟩ := entryAt_succ.mp he
            have hse : Sorted ke := (sorted_append.mp (sorted_append.mp hs).1).2.1
            rw [if_neg (by rw [hn.btype_succ]; exact bnodeNode_ne_leaf), hn.holds.getPtr,
              hget, ok_bind]
            exact getLoop_spec hc hse (by omega)

/-! ## Storing children -/

/-- The link to a stored node: what it adds to its parent's size. -/
def linkOf (c : List Entry) : Entry := ⟨0, (c.head?.map Entry.key).getD [], []⟩

/-- The key of a piece's link is the first key of the piece. -/
theorem head_key {c : List Entry} (hc : c ≠ []) :
    ∃ e rest, c = e :: rest ∧ (c.head?.map Entry.key).getD [] = e.key := by
  cases c with
  | nil => exact absurd rfl hc
  | cons e rest => exact ⟨e, rest, rfl, rfl⟩

/-- What storing a list of pieces leaves: links that denote what the pieces did. -/
structure Linked (I : σ → Multiset Nat → Prop) (s s' : σ) (h : Nat) (css : List (List Entry))
    (kvs : Contents) (R : Multiset Nat) (links : List Entry) (ps : Multiset Nat) : Prop where
  shape : links.map (fun e => (e.key, e.val)) = css.map fun c => ((linkOf c).key, [])
  concat : Concat (EntryAt (PageManager.get s') (h + 1)) links kvs ps
  drawn : links.map (shapeOf (PageManager.get s') (h + 1)) =
    (css.map (List.map (shapeOf (PageManager.get s) h)) : List (List (Shape h)))
  owns : I s' (ps + R)
  frame : ∀ q ∈ R, PageManager.get s' q = PageManager.get s q

/-- Links take the room their pieces' first keys do. -/
theorem recBytes_of_shape : ∀ {links : List Entry} {css : List (List Entry)},
    links.map (fun e => (e.key, e.val)) = css.map (fun c => ((linkOf c).key, ([] : Bytes))) →
    recBytes links = recBytes (css.map linkOf) ∧ links.length = css.length
  | [], [], _ => ⟨rfl, rfl⟩
  | [], _ :: _, h => by cases h
  | _ :: _, [], h => by cases h
  | e :: links, c :: css, h => by
      simp only [List.map_cons, List.cons.injEq, Prod.mk.injEq] at h
      obtain ⟨h1, h2⟩ := recBytes_of_shape h.2
      refine ⟨?_, by simp [h2]⟩
      rw [List.map_cons, recBytes_cons, recBytes_cons, h1, h.1.1, h.1.2]
      rfl

/-- What is drawn of the pieces of a node is what is drawn of the node. -/
theorem Concat.shape_congr_pieces {g g' : Nat → Except Fault BNode} {h : Nat}
    {css : List (List Entry)} {kvs : Contents} {ps : Multiset Nat}
    (hc : Concat (EntryAt g h) css.flatten kvs ps) (hg : ∀ q ∈ ps, g' q = g q) :
    css.map (List.map (shapeOf g' h)) = css.map (List.map (shapeOf g h)) := by
  have hall := List.map_inj_left.mp (hc.shape_congr hg)
  refine List.map_congr_left fun c hmem => List.map_congr_left fun e he => ?_
  exact hall e (List.mem_flatten.mpr ⟨c, hmem, he⟩)

/-- The failures of building a node from links: the manager's own, or the size assertion. -/
def LinkFault (E : Fault → Prop) (size cnt : Nat) (es : List Entry) (f : Fault) : Prop :=
  E f ∨ Overfull size cnt es f

theorem appendChildren_spec (hI : LawfulPages I E) {h : Nat} {t cnt size : Nat} :
    ∀ {ns : List BNode} {css : List (List Entry)} {s : σ} {new : BNode} {es : List Entry}
      {kvs : Contents} {ps R : Multiset Nat}, Pieces (nodeType h) ns css →
      Concat (EntryAt (PageManager.get s) h) css.flatten kvs ps → I s (ps + R) →
      Filled new t cnt es → new.size = size → es.length + ns.length ≤ cnt →
      Ends (LinkFault E size cnt (es ++ css.map linkOf)) (fun r => ∃ links ps',
          Linked I s r.2 h css kvs R links ps' ∧ Filled r.1 t cnt (es ++ links) ∧ r.1.size = size)
        (appendChildren s new es.length ns)
  | [], css, s, new, es, kvs, ps, R, hp, hc, hi, hn, hsz, _ => by
      cases hp
      obtain ⟨rfl, rfl⟩ := concat_nil.mp hc
      refine ⟨[], 0, ⟨rfl, .nil, rfl, hi, fun _ _ => rfl⟩, ?_, hsz⟩
      rwa [List.append_nil]
  | n :: ns, css, s, new, es, kvs, ps, R, hp, hc, hi, hn, hsz, hle => by
      cases hp with
      | @cons _ c _ css hnc hp =>
        obtain ⟨hn1, hn2, hn3⟩ := hnc
        obtain ⟨e, rest, rfl, hkey⟩ := head_key hn3
        rw [List.flatten_cons] at hc
        obtain ⟨k1, k2, p1, p2, rfl, rfl, hc1, hc2⟩ := concat_append.mp hc
        rw [List.length_cons] at hle
        rw [appendChildren, hn1.getKey_zero]
        have hnp := hI.newPage hi hn1 hn2
        refine (hnp.mono (fun f hf => Or.inl hf) (fun _ ha => ha)).bind ?_
        rintro ⟨p, s1⟩ ⟨hi1, ⟨n', hget, hn'⟩, hfr⟩
        -- the new page is read back as the link's node
        have hc1' := hc1.congr fun q hq => hfr q (by simp [hq])
        have hc2' := hc2.congr fun q hq => hfr q (by simp [hq])
        have hlink : EntryAt (PageManager.get s1) (h + 1) ⟨p, e.key, []⟩ k1 (p ::ₘ p1) :=
          entryAt_succ.mpr ⟨rfl, n', _, p1, hget, ⟨hn', hc1'⟩, hn2, rfl, rfl⟩
        have hfit : Entry.Fits ⟨p, e.key, []⟩ :=
          ⟨(hI.ptr hi1 p (by simp)).2, (hn1.fits e (by simp)).key, by simp⟩
        have hb := nodeAppendKv_spec hn (by omega) hfit
        rw [hsz] at hb
        have hcast : es ++ ((e :: rest) :: css).map linkOf =
            (es ++ [⟨0, e.key, []⟩]) ++ css.map linkOf := by simp [linkOf]
        refine Ends.bind (hb.mono (fun f hf => Or.inr ?_) (fun _ ha => ha)) ?_
        · rw [hcast]
          exact Overfull.append ⟨hf.1, by have := hf.2; simpa using this⟩
        · rintro new' ⟨hnew', hsz'⟩
          have hi1' : I s1 (p2 + (p ::ₘ p1 + R)) := by
            have : p ::ₘ (p1 + p2 + R) = p2 + (p ::ₘ p1 + R) := by
              rw [Multiset.cons_add, Multiset.add_cons]; congr 1; abel
            rwa [← this]
          have ih := appendChildren_spec hI hp hc2' hi1' hnew' hsz' (by
            rw [List.length_append, List.length_singleton]; omega)
          rw [List.length_append, List.length_singleton] at ih
          refine ih.mono (fun f hf => hf.imp id fun hf => ?_) ?_
          · rw [hcast]; simpa [Overfull] using hf
          · rintro ⟨new'', s2⟩ ⟨links, ps', hl, hfl, hsz''⟩
            have hfrl : ∀ q ∈ p ::ₘ p1, PageManager.get s2 q = PageManager.get s1 q :=
              fun q hq => hl.frame q (Multiset.mem_add.mpr (Or.inl hq))
            refine ⟨⟨p, e.key, []⟩ :: links, p ::ₘ p1 + ps', ⟨?_, ?_, ?_, ?_, ?_⟩, ?_, hsz''⟩
            · simp [hl.shape, linkOf]
            · exact .cons (hlink.congr hfrl) hl.concat
            · -- the pages the drawing is of were not touched in between
              have hdrawn : shapeOf (PageManager.get s2) (h + 1) ⟨p, e.key, []⟩ =
                  (e :: rest).map (shapeOf (PageManager.get s) h) := by
                rw [hlink.shape_congr hfrl, shapeOf_succ hget hn']
                exact hc1.shape_congr fun q hq => hfr q (by simp [hq])
              rw [List.map_cons, hdrawn, hl.drawn]
              dsimp only
              rw [hc2.shape_congr_pieces fun q hq => hfr q (by simp [hq])]
              rfl
            · have : p ::ₘ p1 + ps' + R = ps' + (p ::ₘ p1 + R) := by abel
              rw [this]; exact hl.owns
            · intro q hq
              exact (hl.frame q (Multiset.mem_add.mpr (Or.inr hq))).trans (hfr q (by simp [hq]))
            · simpa using hfl

/-- **Replacing a link by the pieces of its new node.** -/
theorem nodeReplaceChildN_spec (hI : LawfulPages I E) {h : Nat} {s : σ} {n old : BNode}
    {a b : List Entry} {x : Entry} {ns : List BNode} {css : List (List Entry)} {kvs : Contents}
    {ps R : Multiset Nat} (ho : Holds old bnodeNode (a ++ x :: b))
    (hp : Pieces (nodeType h) ns css)
    (hc : Concat (EntryAt (PageManager.get s) h) css.flatten kvs ps) (hi : I s (ps + R))
    (hsmall : n.size ≤ 2 * btreePageSize)
    (hroom : 4 + 10 * (a.length + ns.length + b.length) ≤ n.size) :
    Ends (fun f => E f ∨ f = .asserts .appendSize ∧ n.size < nodeSize (a ++ css.map linkOf ++ b))
      (fun r => ∃ links ps', Linked I s r.2 h css kvs R links ps' ∧
        Holds r.1 bnodeNode (a ++ links ++ b) ∧ r.1.size = n.size)
      (nodeReplaceChildN s n old a.length ns) := by
  have hlen : (a ++ x :: b).length = a.length + 1 + b.length := by simp; omega
  have hcss : ns.length = css.length := hp.length_eq
  have hsize : nodeSize (a ++ css.map linkOf ++ b) = 4 + 10 * (a.length + ns.length + b.length) +
      recBytes (a ++ css.map linkOf ++ b) := by
    rw [nodeSize, hcss]; simp only [List.length_append, List.length_map]
  rw [hsize]
  unfold nodeReplaceChildN
  dsimp only
  rw [ho.nkeys, hlen, show a.length + 1 + b.length + ns.length - 1 =
    a.length + ns.length + b.length by omega,
    show a.length + 1 + b.length - (a.length + 1) = b.length by omega]
  -- the links before, the new ones, the links after: each range goes behind the last
  have h0 := filled_setHeader (t := bnodeNode) (by decide) hsmall hroom
  have h1 := nodeAppendRange_spec (a := []) (m := a) (b := x :: b) (by simpa using ho) h0
    (by simp only [List.length_nil]; omega)
  rw [size_setHeader, List.nil_append] at h1
  refine Ends.bind (Ends.mono h1 (fun f hf => Or.inr ?_) (fun _ ha => ha)) ?_
  · rw [List.append_assoc]; exact Overfull.append hf
  rintro n1 ⟨hn1, hs1⟩
  have h2 := appendChildren_spec hI hp hc hi hn1 hs1 (by omega)
  refine Ends.bind (Ends.mono h2 (fun f hf => hf.imp id Overfull.append) (fun _ ha => ha)) ?_
  rintro ⟨n2, s'⟩ ⟨links, ps', hl, hn2, hs2⟩
  obtain ⟨hrec, hlinks⟩ := recBytes_of_shape hl.shape
  have h3 := nodeAppendRange_spec (a := a ++ [x]) (m := b) (b := []) (by simpa using ho) hn2
    (by rw [List.length_append]; omega)
  rw [hs2, show (a ++ links).length = a.length + ns.length by rw [List.length_append]; omega,
    show (a ++ [x]).length = a.length + 1 by simp] at h3
  refine Ends.bind (Ends.mono h3 (fun f hf => Or.inr ⟨hf.1, ?_⟩) (fun _ ha => ha)) ?_
  · have := hf.2
    simp only [recBytes_append] at this ⊢
    omega
  · rintro n3 ⟨hn3, hs3⟩
    refine ⟨links, ps', hl, ?_, hs3⟩
    rw [Holds, show (a ++ links ++ b).length = a.length + ns.length + b.length by
      simp only [List.length_append]; omega]
    exact hn3

/-! ## Insertion below a node -/

/-- Links have keys of at most the key limit and no values. -/
theorem recBytes_links_le {css : List (List Entry)} (hfit : ∀ c ∈ css, ∀ e ∈ c, e.Fits) :
    recBytes (css.map linkOf) ≤ css.length * (4 + btreeMaxKeySize) := by
  induction css with
  | nil => simp
  | cons c css ih =>
      have h1 : (linkOf c).key.length ≤ btreeMaxKeySize := by
        cases c with
        | nil => simp [linkOf]
        | cons e rest => exact (hfit (e :: rest) (by simp) e (by simp)).key
      have h2 := ih fun c' hc' => hfit c' (List.mem_cons_of_mem _ hc')
      rw [List.map_cons, recBytes_cons, List.length_cons, show (linkOf c).val.length = 0 from rfl,
        Nat.add_mul]
      omega

/-- Every entry a tree is made of has room for at most one more in the two pages of a rebuild. -/
theorem nodeSize_replace_le {a b : List Entry} {x : Entry} {css : List (List Entry)}
    (hsize : nodeSize (a ++ x :: b) ≤ btreePageSize) (hcss : css.length ≤ 2)
    (hfit : ∀ c ∈ css, ∀ e ∈ c, e.Fits) :
    nodeSize (a ++ css.map linkOf ++ b) ≤ maxNodeSize := by
  have hlinks := recBytes_links_le hfit
  simp only [nodeSize, recBytes_append, recBytes_cons, List.length_append, List.length_cons,
    List.length_map] at hsize ⊢
  unfold maxNodeSize maxEntrySize btreePageSize btreeMaxKeySize btreeMaxValSize at *
  have : css.length * (4 + 1000) ≤ 2 * (4 + 1000) := Nat.mul_le_mul_right _ hcss
  omega

theorem mem_flatten_fits {t : Nat} {ns : List BNode} {css : List (List Entry)}
    (hp : Pieces t ns css) : ∀ c ∈ css, ∀ e ∈ c, e.Fits := by
  induction hp with
  | nil => intro c hc; cases hc
  | cons hnc _ ih =>
      intro c hc
      rcases List.mem_cons.mp hc with rfl | hc
      · exact hnc.1.fits
      · exact ih c hc

/-- A page never has more slots than half its bytes would hold. -/
theorem length_le_of_nodeSize {es : List Entry} (h : nodeSize es ≤ btreePageSize) :
    es.length ≤ 292 := by
  have := recBytes_ge es
  unfold nodeSize btreePageSize at h
  omega

/-- The two pages an insert builds a node in. -/
theorem size_two_pages : (BNode.zeroed (2 * btreePageSize)).size = 2 * btreePageSize :=
  size_zeroed _

/-- What an update below a node leaves: the node rebuilt to hold `kvs` within `bound` bytes, its
new pages owned, and the frame untouched. -/
structure Rebuilt (I : σ → Multiset Nat → Prop) (s s' : σ) (h bound : Nat) (node' : BNode)
    (kvs : Contents) (R : Multiset Nat) (es' : List Entry) (ps' : Multiset Nat) : Prop where
  node : NodeAt (PageManager.get s') h node' es' kvs ps'
  size : nodeSize es' ≤ bound
  owns : I s' (ps' + R)
  frame : ∀ q ∈ R, PageManager.get s' q = PageManager.get s q

/-- **Inserting below a leaf.** -/
theorem treeInsert_leaf {s : σ} {node : BNode} {es : List Entry} {kvs : Contents}
    {ps R : Multiset Nat} {key val : Bytes} {fuel : Nat}
    (hn : NodeAt (PageManager.get s) 0 node es kvs ps) (hsize : nodeSize es ≤ btreePageSize)
    (hi : I s (ps + R)) (hs : Sorted kvs) (hfit : Entry.Fits ⟨0, key, val⟩)
    (hhead : ∃ e ∈ es, e.key ≤ key) :
    ∃ node' es' ps', treeInsert key val (fuel + 1) s node = .ok (node', s) ∧
      Rebuilt I s s 0 maxNodeSize node' (OrdMap.insert kvs key val) R es' ps' := by
  have hmax := nodeSize_cons_le hfit
  have hlen := length_le_of_nodeSize hsize
  rw [treeInsert, if_pos hn.btype_zero]
  -- the sentinel is below every key, so the lookup lands on an entry
  rcases nodeLookupLe_cases hn.holds (hn.concat.keysSorted (entryAt_headed 0) hs) key with
    ⟨_, habove⟩ | ⟨a, e, b, rfl, hidx, hle, _, hlt⟩
  · obtain ⟨e, he, hle⟩ := hhead
    exact absurd hle (not_le.mpr (habove e he))
  obtain ⟨ka, ke, kb, pa, pe, pb, rfl, rfl, ha, he, hb, hka, _, hkb⟩ :=
    hn.concat.route (entryAt_headed 0) hs hle hlt
  have hnew : EntryAt (PageManager.get s) 0 ⟨0, key, val⟩ [(key, val)] 0 := ⟨rfl, rfl, rfl⟩
  obtain ⟨_, rfl, rfl⟩ := entryAt_zero.mp he
  rw [add_zero] at hi
  have hsum := nodeSize_append a (e :: b)
  have hsum' := nodeSize_append a (⟨0, key, val⟩ :: b)
  have hcons := nodeSize_cons e b
  have hcons' := nodeSize_cons_le hfit b
  have hsz := size_two_pages
  rw [hidx, Int.toNat_natCast, hn.holds.getKey]
  split
  · -- the key is there: its value is replaced
    rename_i hcond
    obtain rfl : e.key = key := hcond.2
    have hbuild : Builds (BNode.zeroed (2 * btreePageSize)).size bnodeLeaf (a ++ e :: b).length
        (a ++ ⟨0, e.key, val⟩ :: b) (leafUpdate _ node a.length e.key val) :=
      leafUpdate_spec hn.holds hfit (le_of_eq hsz) (by rw [hsz]; unfold btreePageSize; omega)
    have hle' : nodeSize (a ++ ⟨0, e.key, val⟩ :: b) ≤ maxNodeSize := by
      unfold maxNodeSize; omega
    rw [show (a ++ e :: b).length = (a ++ (⟨0, e.key, val⟩ : Entry) :: b).length by simp] at hbuild
    obtain ⟨node', hok, hholds, _⟩ := hbuild.of_fits (by
      rw [hsz]; exact le_trans hle' (by decide))
    refine ⟨node', a ++ ⟨0, e.key, val⟩ :: b, pa + pb, by rw [hok]; rfl, ⟨hholds, ?_⟩, hle', hi,
      fun _ _ => rfl⟩
    rw [insert_segment val hka hkb, insert_singleton_self]
    have := (ha.append (Concat.cons hnew .nil)).append hb
    simpa using this
  · -- it is not: the binding goes between its neighbours
    rename_i hcond
    have hlt' : e.key < key := lt_of_le_of_ne hle fun h => hcond ⟨by omega, h⟩
    have hbuild : Builds (BNode.zeroed (2 * btreePageSize)).size bnodeLeaf
        (((a ++ [e]) ++ b).length + 1) ((a ++ [e]) ++ ⟨0, key, val⟩ :: b)
        (leafInsert _ node (a ++ [e]).length key val) :=
      leafInsert_spec (by simpa using hn.holds) hfit (le_of_eq hsz)
        (by rw [hsz]; unfold btreePageSize; simp at hlen ⊢; omega)
    have hle' : nodeSize ((a ++ [e]) ++ ⟨0, key, val⟩ :: b) ≤ maxNodeSize := by
      have h1 := nodeSize_append (a ++ [e]) (⟨0, key, val⟩ :: b)
      have h2 := nodeSize_append (a ++ [e]) b
      have h3 : (a ++ [e]) ++ b = a ++ e :: b := by simp
      rw [h3] at h2
      unfold maxNodeSize; omega
    rw [show ((a ++ [e]) ++ b).length + 1 =
      ((a ++ [e]) ++ (⟨0, key, val⟩ : Entry) :: b).length by simp; omega] at hbuild
    obtain ⟨node', hok, hholds, _⟩ := hbuild.of_fits (by
      rw [hsz]; exact le_trans hle' (by decide))
    refine ⟨node', (a ++ [e]) ++ ⟨0, key, val⟩ :: b, pa + pb, ?_, ⟨hholds, ?_⟩, hle', hi,
      fun _ _ => rfl⟩
    · rw [show ((a.length : Int) + 1).toNat = (a ++ [e]).length by simp, hok]; rfl
    · have hbelow : Below (ka ++ [(e.key, e.val)]) key := by
        intro r hr
        rcases List.mem_append.mp hr with hr | hr
        · exact hka r hr
        · rw [List.mem_singleton.mp hr]; exact hlt'
      have hins := insert_segment (m := []) val hbelow hkb
      rw [List.append_nil, insert_nil] at hins
      rw [hins]
      have := (ha.append (Concat.cons he .nil)).append (Concat.cons hnew hb)
      simpa using this

theorem insert_ne_nil (kvs : Contents) (key val : Bytes) : OrdMap.insert kvs key val ≠ [] := by
  intro h
  have : (key, val) ∈ OrdMap.insert kvs key val := mem_insert.mpr (Or.inl rfl)
  rw [h] at this
  cases this

/-- A leaf is drawn as the bindings it holds. -/
theorem Concat.shape_leaf {g : Nat → Except Fault BNode} {es : List Entry} {kvs : Contents}
    {ps : Multiset Nat} (hc : Concat (EntryAt g 0) es kvs ps) : es.map (shapeOf g 0) = kvs :=
  (concat_leaf.mp hc).2.1.symm

/-- **Inserting below any node changes one binding of what it denotes**, and what is drawn of the
node by the insertion into the drawing. -/
theorem treeInsert_exact (hI : LawfulPages I E) {key val : Bytes}
    (hfit : Entry.Fits ⟨0, key, val⟩) :
    ∀ {h fuel : Nat} {s : σ} {node : BNode} {es : List Entry} {kvs : Contents}
      {ps R : Multiset Nat}, h < fuel → NodeAt (PageManager.get s) h node es kvs ps →
      nodeSize es ≤ btreePageSize → I s (ps + R) → Sorted kvs → (∃ e ∈ es, e.key ≤ key) →
      Ends E (fun r => ∃ es' ps',
        Rebuilt I s r.2 h maxNodeSize r.1 (OrdMap.insert kvs key val) R es' ps' ∧
        es'.map (shapeOf (PageManager.get r.2) h) =
          Shape.insertBelow key val h (es.map (shapeOf (PageManager.get s) h)))
        (treeInsert key val fuel s node)
  | _, 0, _, _, _, _, _, _, hf, _, _, _, _, _ => absurd hf (by omega)
  | 0, fuel + 1, s, node, es, kvs, ps, R, _, hn, hsize, hi, hs, hhead => by
      obtain ⟨node', es', ps', hok, hins⟩ := treeInsert_leaf hn hsize hi hs hfit hhead
      rw [hok]
      refine ⟨es', ps', hins, ?_⟩
      dsimp only
      rw [hins.node.concat.shape_leaf, hn.concat.shape_leaf]
      rfl
  | h + 1, fuel + 1, s, node, es, kvs, ps, R, hf, hn, hsize, hi, hs, hhead => by
      rw [treeInsert, if_neg (by rw [hn.btype_succ]; exact bnodeNode_ne_leaf), if_pos hn.btype_succ]
      rcases nodeLookupLe_cases hn.holds (hn.concat.keysSorted (entryAt_headed _) hs) key with
        ⟨_, habove⟩ | ⟨a, e, b, rfl, hidx, hle, hlta, hlt⟩
      · obtain ⟨e, he, hle⟩ := hhead
        exact absurd hle (not_le.mpr (habove e he))
      have hroute := hn.concat.shape_route hlta hle hlt
      obtain ⟨ka, ke, kb, pa, pe, pb, rfl, rfl, ha, he, hb, hka, hse, hkb⟩ :=
        hn.concat.route (entryAt_headed _) hs hle hlt
      obtain ⟨_, child, ec, pc, hget, hc, hcsize, hhd, rfl⟩ := entryAt_succ.mp he
      obtain ⟨x, rest, rfl, hx⟩ := head_of_head? hhd
      rw [hidx]
      refine Ends.require (by omega) ?_
      rw [nodeInsert, Int.toNat_natCast, hn.holds.getPtr, hget, ok_bind]
      -- the child's pages are ours to change, all else is framed
      have hi' : I s (pc + (e.ptr ::ₘ (pa + pb + R))) := by
        have : pa + e.ptr ::ₘ pc + pb + R = pc + (e.ptr ::ₘ (pa + pb + R)) := by
          simp only [← Multiset.singleton_add]; abel
        rwa [← this]
      refine (treeInsert_exact hI hfit (by omega) hc hcsize hi' hse
        ⟨x, by simp, by rw [hx]; exact hle⟩).bind ?_
      rintro ⟨child', s1⟩ ⟨es1, p1, hchild, hdrawn⟩
      dsimp only at hchild hdrawn ⊢
      have hne : es1 ≠ [] := by
        rw [ne_eq, hchild.node.concat.eq_nil (entryAt_headed h)]; exact insert_ne_nil _ _ _
      -- the child is split if it outgrew a page
      obtain ⟨ns, hsplit, hpieces⟩ :=
        nodeSplitIfNeeded_pieces hchild.node.holds (nodeType_lt h) hne hchild.size
      have hflat := Shape.flatten_pieces (es1.map Entry.bytes) es1
      have hcss := Shape.length_pieces_le (es1.map Entry.bytes) es1
      have hns : ns.length ≤ 2 := by rw [hpieces.length_eq]; exact hcss
      rw [hsplit, ok_bind]
      have hi1 : I s1 (e.ptr ::ₘ (p1 + (pa + pb + R))) := by
        have : p1 + (e.ptr ::ₘ (pa + pb + R)) = e.ptr ::ₘ (p1 + (pa + pb + R)) :=
          Multiset.add_cons _ _ _
        rw [← this]; exact hchild.owns
      refine (hI.del hi1).bind ?_
      rintro s2 ⟨hi2, hfr2⟩
      have hmax := nodeSize_replace_le hsize hcss (mem_flatten_fits hpieces)
      have hsz := size_two_pages
      have hrep := nodeReplaceChildN_spec hI hn.holds hpieces (n := .zeroed (2 * btreePageSize))
        (by rw [hflat]; exact hchild.node.concat.congr fun q hq => hfr2 q (by simp [hq])) hi2
        (le_of_eq hsz) (by
          have := length_le_of_nodeSize hsize
          rw [hsz]; simp only [List.length_append, List.length_cons] at this
          unfold btreePageSize; omega)
      -- two pages hold the links, so the size cannot be what fails
      refine hrep.mono (fun f hf' => hf'.elim id fun hover => ?_) ?_
      · have := hover.2
        rw [hsz] at this
        exact absurd (lt_of_lt_of_le this hmax) (by decide)
      · rintro ⟨new, s3⟩ ⟨links, pl, hl, hholds, _⟩
        have hfr : ∀ q ∈ pa + pb + R, PageManager.get s3 q = PageManager.get s q := by
          intro q hq
          rw [hl.frame q hq, hfr2 q (Multiset.mem_add.mpr (Or.inr hq)),
            hchild.frame q (Multiset.mem_cons_of_mem hq)]
        refine ⟨a ++ links ++ b, pa + pl + pb, ⟨⟨hholds, ?_⟩, ?_, ?_, fun q hq =>
          hfr q (by simp [hq])⟩, ?_⟩
        · rw [insert_segment val hka hkb]
          exact ((ha.congr fun q hq => hfr q (by simp [hq])).append hl.concat).append
            (hb.congr fun q hq => hfr q (by simp [hq]))
        · obtain ⟨hrec, hlen⟩ := recBytes_of_shape hl.shape
          have heq : nodeSize (a ++ links ++ b) =
              nodeSize (a ++ (Shape.pieces (es1.map Entry.bytes) es1).map linkOf ++ b) := by
            simp only [nodeSize, List.length_append, List.length_map, recBytes_append, hrec, hlen]
          rw [heq]; exact hmax
        · have : pa + pl + pb + R = pl + (pa + pb + R) := by abel
          rw [this]; exact hl.owns
        · -- the pieces are those of the drawing
          have hes1 : es1.map (shapeOf (PageManager.get s2) h) = Shape.insertBelow key val h
              (shapeOf (PageManager.get s) (h + 1) e) := by
            rw [hchild.node.concat.shape_congr fun q hq => hfr2 q (by simp [hq]), hdrawn,
              shapeOf_succ hget hc.holds]
          have hws := (hchild.node.concat.congr fun q hq =>
            hfr2 q (Multiset.mem_add.mpr (Or.inl hq))).shape_bytes
          have hlinks := hl.drawn
          rw [Shape.map_pieces, ← hws, hes1] at hlinks
          rw [Shape.insertBelow, hroute, List.map_append, List.map_append, hlinks,
            ha.shape_congr fun q hq => hfr q (by simp [hq]),
            hb.shape_congr fun q hq => hfr q (by simp [hq])]

theorem treeInsert_spec (hI : LawfulPages I E) {key val : Bytes} (hfit : Entry.Fits ⟨0, key, val⟩)
    {h fuel : Nat} {s : σ} {node : BNode} {es : List Entry} {kvs : Contents} {ps R : Multiset Nat}
    (hf : h < fuel) (hn : NodeAt (PageManager.get s) h node es kvs ps)
    (hsize : nodeSize es ≤ btreePageSize) (hi : I s (ps + R)) (hs : Sorted kvs)
    (hhead : ∃ e ∈ es, e.key ≤ key) :
    Ends E (fun r => ∃ es' ps',
      Rebuilt I s r.2 h maxNodeSize r.1 (OrdMap.insert kvs key val) R es' ps')
      (treeInsert key val fuel s node) := by
  refine (treeInsert_exact hI hfit hf hn hsize hi hs hhead).imp ?_
  rintro r ⟨es', ps', hr, _⟩
  exact ⟨es', ps', hr⟩

/-! ## The call -/

/-- The tree owns its pages, and its root denotes `m`. -/
structure BTree.Denotes (I : σ → Multiset Nat → Prop) (t : BTree σ) (m : Contents)
    (ps : Multiset Nat) : Prop where
  tree : TreeAt (PageManager.get t.pages) t.root m ps
  owns : I t.pages ps

/-- The limits `check_limit` and `check_key_limit` enforce. -/
def ValidKey (key : Bytes) : Prop := key ≠ [] ∧ key.length ≤ btreeMaxKeySize

def ValidVal (val : Bytes) : Prop := val.length ≤ btreeMaxValSize

instance (key : Bytes) : Decidable (ValidKey key) := inferInstanceAs (Decidable (_ ∧ _))

instance (val : Bytes) : Decidable (ValidVal val) := inferInstanceAs (Decidable (_ ≤ _))

/-- The exception for an argument out of limits. -/
def limitText (key : Bytes) : String :=
  if key = [] then "empty key"
  else if btreeMaxKeySize < key.length then "key too large"
  else "value too large"

def limitFault (key : Bytes) : Fault := .throws (limitText key)

theorem limitFault_eq (key : Bytes) : limitFault key = .throws (limitText key) := rfl

theorem checkKeyLimit_valid {key : Bytes} (h : ValidKey key) : checkKeyLimit key = .ok () := by
  rw [checkKeyLimit, require_pos h.1, ok_bind, require_pos h.2]

theorem checkKeyLimit_invalid {key : Bytes} (h : ¬ ValidKey key) :
    checkKeyLimit key = .error (limitText key) := by
  unfold checkKeyLimit limitText
  by_cases h1 : key = []
  · rw [require_neg (by simpa using h1), error_bind, if_pos h1]
  · have h2 : ¬ key.length ≤ btreeMaxKeySize := fun hle => h ⟨h1, hle⟩
    rw [require_pos h1, ok_bind, require_neg h2, if_neg h1, if_pos (by omega)]

theorem checkLimit_valid {key val : Bytes} (hk : ValidKey key) (hv : ValidVal val) :
    checkLimit key val = .ok () := by
  rw [checkLimit, checkKeyLimit_valid hk, ok_bind]
  exact require_pos hv

theorem checkLimit_invalid {key val : Bytes} (h : ¬ (ValidKey key ∧ ValidVal val)) :
    checkLimit key val = .error (limitText key) := by
  unfold checkLimit
  by_cases hk : ValidKey key
  · have hv : ¬ val.length ≤ btreeMaxValSize := fun hv => h ⟨hk, hv⟩
    rw [checkKeyLimit_valid hk, ok_bind, require_neg hv, limitText, if_neg hk.1,
      if_neg (by have := hk.2; omega)]
  · rw [checkKeyLimit_invalid hk, error_bind]

section Limits

variable {σ : Type} [PageManager σ] (t : BTree σ) {key val : Bytes}

theorem BTree.insert_valid (hk : ValidKey key) (hv : ValidVal val) :
    t.insert key val = t.insertChecked key val := by
  rw [insert_eq, checkLimit_valid hk hv]
  rfl

theorem BTree.remove_valid (hk : ValidKey key) : t.remove key = t.removeChecked key := by
  rw [remove_eq, checkKeyLimit_valid hk]
  rfl

/-- A call outside the limits throws, and writes nothing. -/
theorem BTree.insert_invalid (h : ¬ (ValidKey key ∧ ValidVal val)) :
    t.insert key val = .error (limitFault key) := by
  rw [insert_eq, checkLimit_invalid h]
  rfl

theorem BTree.remove_invalid (h : ¬ ValidKey key) : t.remove key = .error (limitFault key) := by
  rw [remove_eq, checkKeyLimit_invalid h]
  rfl

theorem BTree.get_invalid (h : ¬ ValidKey key) : t.get key = .error (limitFault key) := by
  rw [get, checkKeyLimit_invalid h]
  rfl

end Limits

theorem ValidKey.fits {key val : Bytes} (hk : ValidKey key) (hv : ValidVal val) :
    Entry.Fits ⟨0, key, val⟩ := ⟨Nat.two_pow_pos 64, hk.2, hv⟩

/-- A one-page node whose entries fit is stored and becomes the root. -/
theorem store_root (hI : LawfulPages I E) {s : σ} {h : Nat} {node : BNode} {es : List Entry}
    {m : Contents} {ps : Multiset Nat}
    (hn : NodeAt (PageManager.get s) h node es (([], []) :: m) ps)
    (hsize : nodeSize es ≤ btreePageSize) (hs : Sorted (([], []) :: m)) (hi : I s ps) :
    Ends E (fun r => r.1 ≠ 0 ∧ BTree.Denotes I ⟨r.1, r.2⟩ m (r.1 ::ₘ ps) ∧
        (⟨r.1, r.2⟩ : BTree σ).DrawnAs ⟨h, es.map (shapeOf (PageManager.get s) h)⟩)
      (PageManager.newPage s node) := by
  refine (hI.newPage hi hn.holds hsize).imp ?_
  rintro ⟨p, s'⟩ ⟨hi', ⟨n', hget, hn'⟩, hfr⟩
  have hhead : es.head?.map Entry.key = some [] := by
    cases es with
    | nil => exact absurd ((hn.concat.eq_nil (entryAt_headed h)).mp rfl) (by simp)
    | cons e es =>
        obtain ⟨v, rest, heq⟩ := hn.concat.head (entryAt_headed h)
        rw [List.cons.injEq, Prod.mk.injEq] at heq
        simp [← heq.1.1]
  have hentry : EntryAt (PageManager.get s') (h + 1) ⟨p, [], []⟩ (([], []) :: m) (p ::ₘ ps) :=
    entryAt_succ.mpr ⟨rfl, n', es, ps, hget, ⟨hn', hn.concat.congr hfr⟩, hsize, hhead, rfl⟩
  have hp := (hI.ptr hi' p (by simp)).1
  refine ⟨hp, ⟨Or.inr ⟨hp, hs, h, hentry⟩, hi'⟩, hentry.levels, ?_⟩
  exact (shapeOf_succ (e := ⟨p, [], []⟩) hget hn').trans (hn.concat.shape_congr hfr)

/-- The root split: its halves are stored under a new root. -/
theorem newRoot_spec (hI : LawfulPages I E) {s : σ} {h : Nat} {ns : List BNode}
    {css : List (List Entry)} {m : Contents} {ps : Multiset Nat} (hp : Pieces (nodeType h) ns css)
    (hc : Concat (EntryAt (PageManager.get s) h) css.flatten (([], []) :: m) ps) (hi : I s ps)
    (hs : Sorted (([], []) :: m)) (hns : ns.length ≤ 2) :
    Ends E (fun t => t.root ≠ 0 ∧ (∃ ps', BTree.Denotes I t m ps') ∧
        t.DrawnAs ⟨h + 1, css.map (List.map (shapeOf (PageManager.get s) h))⟩)
      (BTree.newRoot s ns) := by
  have hpage : (BNode.zeroed btreePageSize).size = btreePageSize := size_zeroed _
  have h0 : Filled ((BNode.zeroed btreePageSize).setHeader bnodeNode ns.length) bnodeNode
      ns.length [] := filled_setHeader (by decide) (by rw [hpage]; unfold btreePageSize; omega)
      (by rw [hpage]; unfold btreePageSize; omega)
  have hcss : css.length ≤ 2 := by rw [← hp.length_eq]; exact hns
  have happ := appendChildren_spec hI hp hc (R := 0) (by simpa using hi) h0
    (by rw [size_setHeader, hpage]) (by simp)
  -- two links never exceed a page
  have hlinks := recBytes_links_le (mem_flatten_fits hp)
  have hmul : css.length * (4 + btreeMaxKeySize) ≤ 2 * (4 + btreeMaxKeySize) :=
    Nat.mul_le_mul_right _ hcss
  unfold BTree.newRoot
  dsimp only
  refine Ends.bind (happ.mono (fun f hf => hf.elim id fun hover => ?_) (fun _ ha => ha)) ?_
  · have := hover.2
    rw [List.nil_append] at this
    unfold btreePageSize btreeMaxKeySize at *
    omega
  rintro ⟨new, s'⟩ ⟨links, pl, hl, hfilled, _⟩
  obtain ⟨hrec, hlen⟩ := recBytes_of_shape hl.shape
  have hcount : ns.length = links.length := by rw [hlen]; exact hp.length_eq
  rw [List.nil_append, hcount] at hfilled
  have howns := hl.owns
  rw [add_zero] at howns
  refine (store_root hI (h := h + 1) ⟨hfilled, hl.concat⟩ ?_ hs howns).bind ?_
  · unfold nodeSize btreePageSize
    unfold btreeMaxKeySize at *
    omega
  · rintro ⟨p, s''⟩ ⟨hne, hd, hdrawn⟩
    rw [hl.drawn] at hdrawn
    exact ⟨hne, ⟨_, hd⟩, hdrawn⟩

/-- The first insert builds a leaf of two entries, the sentinel and the pair. -/
theorem firstLeaf_spec {page : BNode} {key val : Bytes} (hpage : page.size = btreePageSize)
    (hfit : Entry.Fits ⟨0, key, val⟩) :
    ∃ n1 n2, (page.setHeader bnodeLeaf 2).nodeAppendKv 0 0 [] [] = .ok n1 ∧
      n1.nodeAppendKv 1 0 key val = .ok n2 ∧
      Holds n2 bnodeLeaf [⟨0, [], []⟩, ⟨0, key, val⟩] ∧
      nodeSize [⟨0, [], []⟩, ⟨0, key, val⟩] ≤ btreePageSize := by
  have hsmall : nodeSize [⟨0, [], []⟩, ⟨0, key, val⟩] ≤ btreePageSize := by
    have h1 := nodeSize_cons_le hfit []
    have h2 := nodeSize_cons ⟨0, [], []⟩ [(⟨0, key, val⟩ : Entry)]
    have h3 : nodeSize [] = 4 := rfl
    simp only [List.length_nil] at h2
    unfold maxEntrySize btreeMaxKeySize btreeMaxValSize at h1
    unfold btreePageSize
    omega
  have h0 : Filled (page.setHeader bnodeLeaf 2) bnodeLeaf 2 [] :=
    filled_setHeader (by decide) (by rw [hpage]; unfold btreePageSize; omega)
      (by rw [hpage]; decide)
  have hsent : Entry.Fits ⟨0, [], []⟩ := ⟨Nat.two_pow_pos 64, Nat.zero_le _, Nat.zero_le _⟩
  have h1 : Builds (page.setHeader bnodeLeaf 2).size bnodeLeaf 2 [⟨0, [], []⟩]
      ((page.setHeader bnodeLeaf 2).nodeAppendKv 0 0 [] []) :=
    nodeAppendKv_spec h0 (by decide) hsent
  rw [size_setHeader, hpage] at h1
  obtain ⟨n1, hok1, hn1, hs1⟩ := h1.exists_ok fun f hf => absurd hf.2 (by decide)
  have h2 : Builds n1.size bnodeLeaf 2 [⟨0, [], []⟩, ⟨0, key, val⟩]
      (n1.nodeAppendKv 1 0 key val) := nodeAppendKv_spec hn1 (by decide) hfit
  rw [hs1] at h2
  obtain ⟨n2, hok2, hn2, _⟩ := h2.exists_ok fun f hf => Nat.not_lt.mpr hsmall hf.2
  exact ⟨n1, n2, hok1, hok2, hn2, hsmall⟩

/-- The first insert stores that leaf, and nothing else. -/
theorem BTree.insert_empty (s : σ) {key val : Bytes} (hk : ValidKey key) (hv : ValidVal val) :
    ∃ n, Holds n bnodeLeaf [⟨0, [], []⟩, ⟨0, key, val⟩] ∧
      nodeSize [⟨0, [], []⟩, ⟨0, key, val⟩] ≤ btreePageSize ∧
      (⟨0, s⟩ : BTree σ).insert key val = (do
        let (ptr, s) ← PageManager.newPage s n
        return ⟨ptr, s⟩) := by
  have hpage : (BNode.zeroed btreePageSize).size = btreePageSize := size_zeroed _
  obtain ⟨n1, n2, h1, h2, hn2, hsmall⟩ := firstLeaf_spec hpage (hk.fits hv)
  refine ⟨n2, hn2, hsmall, ?_⟩
  rw [insert_valid _ hk hv, insertChecked, if_pos rfl]
  dsimp only
  rw [h1, ok_bind, h2, ok_bind]

/-- What giving back the page `root` turns the tree's ownership into. -/
def Frees (I I' : σ → Multiset Nat → Prop) (E : Fault → Prop) (root : Nat) : Prop :=
  ∀ {s M}, I s (root ::ₘ M) →
    Ends E (fun s' => I' s' M ∧ ∀ q ∈ M, PageManager.get s' q = PageManager.get s q)
      (PageManager.del s root)

theorem LawfulPages.frees (hI : LawfulPages I E) (root : Nat) : Frees I I E root := hI.del

/-- **`BTree::insert` binds the key and changes nothing else**, and the drawing as it says there.
Only the page manager can fail. The tree ends up owned as its old root's page leaves it. -/
theorem BTree.insert_exact {I' : σ → Multiset Nat → Prop} (hI : LawfulPages I E)
    (hI' : LawfulPages I' E) {t : BTree σ} {m : Contents} {ps : Multiset Nat}
    (hfree : t.root ≠ 0 → Frees I I' E t.root) (ht : t.Denotes I m ps) {key val : Bytes}
    (hk : ValidKey key) (hv : ValidVal val) :
    Ends E (fun t' => t'.root ≠ 0 ∧
      (∃ ps', (t.root = 0 → t'.Denotes I (OrdMap.insert m key val) ps') ∧
        (t.root ≠ 0 → t'.Denotes I' (OrdMap.insert m key val) ps')) ∧
      (t.root = 0 → t'.DrawnAs (Shape.first key val)) ∧
      ∀ S, t.root ≠ 0 → t.DrawnAs S → t'.DrawnAs (Shape.insert key val S)) (t.insert key val) := by
  have hfit := hk.fits hv
  have hs : Sorted (([], []) :: OrdMap.insert m key val) := by
    refine sorted_sentinel (ht.tree.sorted.insert _ _) fun r hr => ?_
    rcases mem_insert.mp hr with rfl | ⟨hr, _⟩
    · exact hk.1
    · exact ht.tree.key_ne_nil r hr
  have hpos : ([] : Bytes) < key := Bytes.nil_lt hk.1
  rw [insert_valid t hk hv, insertChecked]
  rcases ht.tree with ⟨hroot, rfl, rfl⟩ | ⟨hroot, hsm, h, he⟩
  · -- an empty tree: the sentinel and the key make the first leaf
    rw [if_pos hroot]
    have hpage : (BNode.zeroed btreePageSize).size = btreePageSize := size_zeroed _
    generalize BNode.zeroed btreePageSize = page at hpage ⊢
    obtain ⟨n1, n2, hok1, hok2, hn2, hsmall⟩ := firstLeaf_spec hpage hfit
    dsimp only
    rw [hok1, ok_bind, hok2, ok_bind]
    have hnode : NodeAt (PageManager.get t.pages) 0 n2 [⟨0, [], []⟩, ⟨0, key, val⟩]
        (([], []) :: OrdMap.insert [] key val) 0 :=
      ⟨hn2, concat_leaf.mpr ⟨by simp, rfl, rfl⟩⟩
    refine (store_root hI hnode hsmall hs ht.owns).bind ?_
    rintro ⟨p, s⟩ ⟨hne, hd, hdrawn⟩
    exact ⟨hne, ⟨_, fun _ => hd, fun h => absurd hroot h⟩, fun _ => hdrawn,
      fun _ h => absurd hroot h⟩
  · rw [if_neg hroot]
    have hfuel : h + 1 ≤ PageManager.pageCount t.pages :=
      le_trans he.height_le (hI.count ht.owns)
    obtain ⟨_, node, es, ps', hget, hn, hsize, hhd, rfl⟩ := entryAt_succ.mp he
    obtain ⟨x, rest, rfl, hx⟩ := head_of_head? hhd
    rw [hget, ok_bind]
    have hi : I t.pages (ps' + {t.root}) := by
      have := ht.owns
      rwa [← Multiset.singleton_add, add_comm] at this
    refine (treeInsert_exact hI hfit (by omega) hn hsize hi hsm
      ⟨x, by simp, by rw [hx]; exact le_of_lt hpos⟩).bind ?_
    rintro ⟨node', s1⟩ ⟨es1, p1, hins, hdrawn⟩
    dsimp only at hins hdrawn ⊢
    have hmap : OrdMap.insert (([], []) :: m) key val = ([], []) :: OrdMap.insert m key val := by
      simp [OrdMap.insert, hpos, not_lt.mpr (le_of_lt hpos)]
    have hnode := hins.node
    rw [hmap] at hnode
    have hne : es1 ≠ [] := by
      rw [ne_eq, hnode.concat.eq_nil (entryAt_headed h)]; simp
    obtain ⟨ns, hsplit, hpieces⟩ :=
      nodeSplitIfNeeded_pieces hnode.holds (nodeType_lt h) hne hins.size
    have hflat := Shape.flatten_pieces (es1.map Entry.bytes) es1
    have hns : ns.length ≤ 2 := by
      rw [hpieces.length_eq]
      exact Shape.length_pieces_le _ _
    rw [hsplit, ok_bind]
    have hi1 : I s1 (t.root ::ₘ p1) := by
      have := hins.owns
      rwa [add_comm, Multiset.singleton_add] at this
    refine (hfree hroot hi1).bind ?_
    rintro s2 ⟨hi2, hfr2⟩
    have hconc := hnode.concat.congr hfr2
    -- what is drawn of the root node, and what it comes to
    have hes1 := (hnode.concat.shape_congr hfr2).trans hdrawn
    have hroot1 : ∀ S, t.DrawnAs S → Shape.insert key val S = Shape.root
        ((Shape.pieces (es1.map Entry.bytes) es1).map
          (List.map (shapeOf (PageManager.get s2) h))) := by
      intro S hS
      rw [hS.eq he hget hn, Shape.map_pieces, hes1, Shape.insert, ← hes1, hconc.shape_bytes]
    rw [← hflat] at hconc
    -- one piece becomes the root itself, two get a new root above them
    generalize Shape.pieces (es1.map Entry.bytes) es1 = css at hpieces hflat hconc hroot1
    cases hpieces with
    | nil => exact absurd hflat (by simpa using Ne.symm hne)
    | @cons n c ns css hpiece hpieces =>
      cases hpieces with
      | nil =>
        obtain ⟨hc1, hc2, hc3⟩ := hpiece
        rw [List.flatten_cons, List.flatten_nil, List.append_nil] at hconc
        refine (store_root hI' ⟨hc1, hconc⟩ hc2 hs hi2).bind ?_
        rintro ⟨p, s⟩ ⟨hp, hd, hdrawn'⟩
        refine ⟨hp, ⟨_, fun h => absurd h hroot, fun _ => hd⟩, fun h => absurd h hroot,
          fun S _ hS => ?_⟩
        rw [hroot1 S hS]
        exact hdrawn'
      | cons hpiece' hpieces =>
        refine (newRoot_spec hI' (.cons hpiece (.cons hpiece' hpieces)) hconc hi2 hs hns).imp ?_
        rintro t' ⟨hp, ⟨ps', hd⟩, hdrawn'⟩
        refine ⟨hp, ⟨ps', fun h => absurd h hroot, fun _ => hd⟩, fun h => absurd h hroot,
          fun S _ hS => ?_⟩
        rw [hroot1 S hS]
        exact hdrawn'

theorem BTree.insert_moves {I' : σ → Multiset Nat → Prop} (hI : LawfulPages I E)
    (hI' : LawfulPages I' E) {t : BTree σ} {m : Contents} {ps : Multiset Nat}
    (hfree : t.root ≠ 0 → Frees I I' E t.root) (ht : t.Denotes I m ps) {key val : Bytes}
    (hk : ValidKey key) (hv : ValidVal val) :
    Ends E (fun t' => t'.root ≠ 0 ∧ ∃ ps', (t.root = 0 → t'.Denotes I (OrdMap.insert m key val) ps') ∧
      (t.root ≠ 0 → t'.Denotes I' (OrdMap.insert m key val) ps')) (t.insert key val) := by
  refine (insert_exact hI hI' hfree ht hk hv).imp ?_
  rintro t' ⟨hroot, hd, _⟩
  exact ⟨hroot, hd⟩

theorem BTree.insert_spec (hI : LawfulPages I E) {t : BTree σ} {m : Contents} {ps : Multiset Nat}
    (ht : t.Denotes I m ps) {key val : Bytes} (hk : ValidKey key) (hv : ValidVal val) :
    Ends E (fun t' => ∃ ps', t'.Denotes I (OrdMap.insert m key val) ps') (t.insert key val) := by
  refine (insert_moves hI hI (fun _ => hI.frees t.root) ht hk hv).imp ?_
  rintro t' ⟨_, ps', h0, h1⟩
  by_cases hroot : t.root = 0
  · exact ⟨ps', h0 hroot⟩
  · exact ⟨ps', h1 hroot⟩

/-- **`BTree::get` reads the map.** A reader needs no more than the tree and a bound on its
height. -/
theorem get_of_treeAt {t : BTree σ} {m : Contents} {ps : Multiset Nat}
    (ht : TreeAt (PageManager.get t.pages) t.root m ps)
    (hcount : ps.card ≤ PageManager.pageCount t.pages) {key : Bytes} (hk : ValidKey key) :
    t.get key = .ok (lookup m key) := by
  unfold BTree.get
  rw [checkKeyLimit_valid hk, show rethrow (.ok () : Except String Unit) = .ok () from rfl, ok_bind]
  rcases ht with ⟨hroot, rfl, rfl⟩ | ⟨hroot, hs, h, he⟩
  · rw [if_pos hroot]; rfl
  · rw [if_neg hroot]
    have hfuel := he.height_le
    obtain ⟨_, node, es, ps', hget, hn, _, _, rfl⟩ := entryAt_succ.mp he
    rw [hget, ok_bind, getLoop_spec hn hs (by omega)]
    have hne : ¬ (([] : Bytes) = key) := fun h => hk.1 h.symm
    simp [lookup, hne]

end SqlDb
