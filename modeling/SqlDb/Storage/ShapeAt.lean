import SqlDb.Storage.Shape
import SqlDb.Storage.TreeAt

/-!
# Reading the shape off the pages

`shapeOf` follows the links from an entry and draws what it finds. Where the pages denote
bindings, the drawing has the keys, the sizes and the bindings of what was drawn, and
depends on the entry's own pages alone.
-/

namespace SqlDb

open Outcome OrdMap

/-- The entries of a node. -/
def entriesOf (node : BNode) : List Entry :=
  (List.range node.nkeys).map fun i => ⟨node.getPtr i, node.getKey i, node.getVal i⟩

theorem Holds.entriesOf {node : BNode} {t : Nat} {es : List Entry} (h : Holds node t es) :
    entriesOf node = es := by
  have hid : SqlDb.entriesOf node = es.map id := h.map_range fun a e b hes => by
    rw [hes] at h
    rw [h.getPtr, h.getKey, h.getVal]
    rfl
  rwa [List.map_id] at hid

/-- What is found below an entry of a node at height `h`. -/
def shapeOf (g : Nat → Except Fault BNode) : (h : Nat) → Entry → Shape h
  | 0, e => (e.key, e.val)
  | h + 1, e =>
      match g e.ptr with
      | .ok node => (entriesOf node).map (shapeOf g h)
      | .error _ => ([] : List (Shape h))

/-- Every leaf below the page lies `h` levels further down. -/
inductive Levels (g : Nat → Except Fault BNode) : Nat → Nat → Prop where
  | leaf {p : Nat} {node : BNode} : g p = .ok node → node.btype = bnodeLeaf → Levels g 0 p
  | node {h p : Nat} {node : BNode} : g p = .ok node → node.btype = bnodeNode →
      (∀ i < node.nkeys, Levels g h (node.getPtr i)) → Levels g (h + 1) p

/-- The bytes an entry takes of its node. -/
def Entry.bytes (e : Entry) : Nat := 14 + e.key.length + e.val.length

theorem nodeSize_eq_sum (es : List Entry) : nodeSize es = 4 + (es.map Entry.bytes).sum := by
  induction es with
  | nil => rfl
  | cons e es ih =>
      rw [nodeSize_cons, ih, List.map_cons, List.sum_cons, Entry.bytes]
      omega

section Read

variable {g g' : Nat → Except Fault BNode}

theorem shapeOf_succ {h t : Nat} {e : Entry} {node : BNode} {es : List Entry}
    (hget : g e.ptr = .ok node) (hn : Holds node t es) :
    shapeOf g (h + 1) e = es.map (shapeOf g h) := by
  rw [shapeOf, hget]
  dsimp only
  rw [hn.entriesOf]

/-- Functions that agree on what the entries stand for agree on the entries. -/
theorem Concat.map_congr {α : Type} {R : Entry → Contents → Multiset Nat → Prop} {es : List Entry}
    {k : Contents} {p : Multiset Nat} {f f' : Entry → α} (h : Concat R es k p)
    (hf : ∀ e k' p', p' ≤ p → R e k' p' → f e = f' e) : es.map f = es.map f' := by
  induction h with
  | nil => rfl
  | cons he _ ih =>
      rw [List.map_cons, List.map_cons, hf _ _ _ (Multiset.le_add_right _ _) he,
        ih fun e k' p' hp => hf e k' p' (hp.trans (Multiset.le_add_left _ _))]

/-- What is read of the bindings, entry by entry. -/
theorem Concat.flatMap_map {α : Type} {R : Entry → Contents → Multiset Nat → Prop}
    {es : List Entry} {k : Contents} {p : Multiset Nat} {f : Entry → List α}
    {φ : Bytes × Bytes → α} (h : Concat R es k p) (hf : ∀ e k p, R e k p → f e = k.map φ) :
    es.flatMap f = k.map φ := by
  induction h with
  | nil => rfl
  | cons hR _ ih => rw [List.flatMap_cons, List.map_append, ih, hf _ _ _ hR]

/-- What is drawn depends on the pages owned alone. -/
theorem EntryAt.shape_congr : ∀ {h : Nat} {e : Entry} {kvs : Contents} {ps : Multiset Nat},
    EntryAt g h e kvs ps → (∀ q ∈ ps, g' q = g q) → shapeOf g' h e = shapeOf g h e
  | 0, _, _, _, _, _ => rfl
  | h + 1, e, kvs, ps, he, hg => by
      obtain ⟨_, node, es, ps', hget, hn, _, _, rfl⟩ := entryAt_succ.mp he
      have hget' : g' e.ptr = .ok node := (hg _ (Multiset.mem_cons_self _ _)).trans hget
      rw [shapeOf_succ hget' hn.holds, shapeOf_succ hget hn.holds]
      exact hn.concat.map_congr fun x k p hp hR => EntryAt.shape_congr hR fun q hq =>
        hg q (Multiset.mem_cons_of_mem (Multiset.mem_of_le hp hq))

theorem Concat.shape_congr {h : Nat} {es : List Entry} {kvs : Contents} {ps : Multiset Nat}
    (hc : Concat (EntryAt g h) es kvs ps) (hg : ∀ q ∈ ps, g' q = g q) :
    es.map (shapeOf g' h) = es.map (shapeOf g h) :=
  hc.map_congr fun _ _ _ hp hR => hR.shape_congr fun q hq => hg q (Multiset.mem_of_le hp hq)

theorem EntryAt.shape_key : ∀ {h : Nat} {e : Entry} {kvs : Contents} {ps : Multiset Nat},
    EntryAt g h e kvs ps → (shapeOf g h e).key = e.key
  | 0, _, _, _, _ => rfl
  | h + 1, e, kvs, ps, he => by
      obtain ⟨_, node, es, ps', hget, hn, _, hhd, rfl⟩ := entryAt_succ.mp he
      obtain ⟨x, rest, rfl, hx⟩ := head_of_head? hhd
      obtain ⟨_, _, _, _, _, _, hR, _⟩ := concat_cons.mp hn.concat
      rw [shapeOf_succ hget hn.holds, ← hx]
      exact EntryAt.shape_key hR

theorem EntryAt.shape_val {h : Nat} {e : Entry} {kvs : Contents} {ps : Multiset Nat}
    (he : EntryAt g h e kvs ps) : (shapeOf g h e).val = e.val := by
  cases h with
  | zero => rfl
  | succ h => exact (entryAt_succ.mp he).1.symm

theorem EntryAt.shape_bytes {h : Nat} {e : Entry} {kvs : Contents} {ps : Multiset Nat}
    (he : EntryAt g h e kvs ps) : (shapeOf g h e).bytes = e.bytes := by
  rw [Shape.bytes, he.shape_key, he.shape_val, Entry.bytes]

theorem EntryAt.shape_contents : ∀ {h : Nat} {e : Entry} {kvs : Contents} {ps : Multiset Nat},
    EntryAt g h e kvs ps → (shapeOf g h e).contents = kvs
  | 0, _, _, _, he => (entryAt_zero.mp he).2.1.symm
  | h + 1, e, kvs, ps, he => by
      obtain ⟨_, node, es, ps', hget, hn, _, _, rfl⟩ := entryAt_succ.mp he
      rw [shapeOf_succ hget hn.holds]
      show (es.map (shapeOf g h)).flatMap Shape.contents = kvs
      rw [List.flatMap_map, hn.concat.flatMap_map (φ := id) fun _ _ _ hR => ?_, List.map_id]
      rw [List.map_id]
      exact EntryAt.shape_contents hR

/-- The sizes of the entries drawn. -/
theorem Concat.shape_bytes {h : Nat} {es : List Entry} {kvs : Contents} {ps : Multiset Nat}
    (hc : Concat (EntryAt g h) es kvs ps) :
    (es.map (shapeOf g h)).map Shape.bytes = es.map Entry.bytes := by
  rw [List.map_map]
  exact hc.map_congr fun _ _ _ _ hR => hR.shape_bytes

theorem Concat.shape_used {h : Nat} {es : List Entry} {kvs : Contents} {ps : Multiset Nat}
    (hc : Concat (EntryAt g h) es kvs ps) :
    Shape.used (es.map (shapeOf g h)) = nodeSize es := by
  rw [Shape.used, hc.shape_bytes, nodeSize_eq_sum]

theorem Concat.shape_mem {h : Nat} {es : List Entry} {kvs : Contents} {ps : Multiset Nat}
    (hc : Concat (EntryAt g h) es kvs ps) {x : Shape h} (hx : x ∈ es.map (shapeOf g h)) :
    ∃ e ∈ es, x = shapeOf g h e ∧ x.key = e.key := by
  obtain ⟨e, he, rfl⟩ := List.mem_map.mp hx
  have hkeys : es.map (fun e => (shapeOf g h e).key) = es.map Entry.key :=
    hc.map_congr fun _ _ _ _ hR => hR.shape_key
  exact ⟨e, he, rfl, List.map_inj_left.mp hkeys e he⟩

/-- A key is looked for below the drawing of the entry it is looked for below. -/
theorem Concat.shape_route {h : Nat} {a b : List Entry} {e : Entry} {kvs : Contents}
    {ps : Multiset Nat} {key : Bytes} (hc : Concat (EntryAt g h) (a ++ e :: b) kvs ps)
    (ha : ∀ x ∈ a, x.key < e.key) (he : e.key ≤ key) (hb : ∀ x ∈ b, key < x.key) :
    Shape.route key ((a ++ e :: b).map (shapeOf g h)) =
      some (a.map (shapeOf g h), shapeOf g h e, b.map (shapeOf g h)) := by
  obtain ⟨_, _, _, _, _, _, _, _, hca, hce, hcb⟩ := concat_split.mp hc
  rw [List.map_append, List.map_cons]
  refine Shape.route_append (fun x hx => ?_) (by rw [hce.shape_key]; exact he) fun x hx => ?_
  · obtain ⟨y, hy, _, hkey⟩ := hca.shape_mem hx
    rw [hkey]
    exact le_of_lt (lt_of_lt_of_le (ha y hy) he)
  · obtain ⟨y, hy, _, hkey⟩ := hcb.shape_mem hx
    rw [hkey]
    exact hb y hy

/-! ## The height -/

theorem EntryAt.levels : ∀ {h : Nat} {e : Entry} {kvs : Contents} {ps : Multiset Nat},
    EntryAt g (h + 1) e kvs ps → Levels g h e.ptr
  | 0, _, _, _, he => by
      obtain ⟨_, node, es, ps', hget, hn, _⟩ := entryAt_succ.mp he
      exact .leaf hget hn.btype_zero
  | h + 1, _, _, _, he => by
      obtain ⟨_, node, es, ps', hget, hn, _⟩ := entryAt_succ.mp he
      refine .node hget hn.btype_succ fun i hi => ?_
      have hlt : i < es.length := by rw [← hn.holds.nkeys]; exact hi
      obtain ⟨a, x, b, hes, rfl⟩ : ∃ a x b, es = a ++ x :: b ∧ a.length = i :=
        ⟨es.take i, es[i], es.drop (i + 1), by
          rw [List.getElem_cons_drop, List.take_append_drop], by rw [List.length_take]; omega⟩
      have hholds := hn.holds
      have hconcat := hn.concat
      rw [hes] at hholds hconcat
      obtain ⟨_, _, _, _, _, _, _, _, _, hR, _⟩ := concat_split.mp hconcat
      rw [hholds.getPtr]
      exact EntryAt.levels hR

/-- The leaves below what stands for something lie at one depth. -/
theorem EntryAt.levels_eq : ∀ {h h' : Nat} {e : Entry} {kvs : Contents} {ps : Multiset Nat},
    EntryAt g (h + 1) e kvs ps → Levels g h' e.ptr → h' = h
  | h, h', e, kvs, ps, he, hl => by
      obtain ⟨_, node, es, ps', hget, hn, _, hhd, _⟩ := entryAt_succ.mp he
      obtain ⟨x, rest, rfl, _⟩ := head_of_head? hhd
      cases hl with
      | leaf hget' ht =>
          rw [hget', Except.ok.injEq] at hget
          rw [hget] at ht
          cases h with
          | zero => rfl
          | succ h => exact absurd (hn.btype_succ.symm.trans ht) bnodeNode_ne_leaf
      | node hget' ht hkids =>
          rw [hget', Except.ok.injEq] at hget
          rw [hget] at ht hkids
          cases h with
          | zero => exact absurd (ht.symm.trans hn.btype_zero) bnodeNode_ne_leaf
          | succ h =>
              obtain ⟨_, _, _, _, _, _, hx, _⟩ := concat_cons.mp hn.concat
              have hkid := hkids 0 (by rw [hn.holds.nkeys]; simp)
              have hptr : node.getPtr 0 = x.ptr := Holds.getPtr (a := []) hn.holds
              rw [hptr] at hkid
              rw [EntryAt.levels_eq hx hkid]

end Read

/-! ## A tree and its drawing -/

/-- What a tree that is not empty looks like: a root node `S.1` levels above the leaves. -/
def BTree.DrawnAs {σ : Type} [PageManager σ] (t : BTree σ) (S : Σ h, List (Shape h)) : Prop :=
  Levels (PageManager.get t.pages) S.1 t.root ∧
    shapeOf (PageManager.get t.pages) (S.1 + 1) ⟨t.root, [], []⟩ = S.2

/-- There is one drawing of a tree. -/
theorem BTree.DrawnAs.eq {σ : Type} [PageManager σ] {t : BTree σ} {S : Σ h, List (Shape h)}
    (hS : t.DrawnAs S) {h : Nat} {node : BNode} {es : List Entry} {kvs : Contents}
    {ps ps' : Multiset Nat} (he : EntryAt (PageManager.get t.pages) (h + 1) ⟨t.root, [], []⟩ kvs ps)
    (hget : PageManager.get t.pages t.root = .ok node)
    (hn : NodeAt (PageManager.get t.pages) h node es kvs ps') :
    S = ⟨h, es.map (shapeOf (PageManager.get t.pages) h)⟩ := by
  obtain ⟨h', n⟩ := S
  obtain ⟨hl, hshape⟩ := hS
  obtain rfl : h' = h := he.levels_eq hl
  have hdrawn : n = es.map (shapeOf (PageManager.get t.pages) h') :=
    hshape.symm.trans (shapeOf_succ (e := ⟨t.root, [], []⟩) hget hn.holds)
  rw [hdrawn]

/-! ## Where a node is cut -/

section Cut

variable {node : BNode} {t : Nat} {es : List Entry}

theorem sum_take_bytes (es : List Entry) (k : Nat) :
    4 + ((es.map Entry.bytes).take k).sum = nodeSize (es.take k) := by
  rw [nodeSize_eq_sum, List.map_take]

theorem sum_drop_bytes (es : List Entry) (k : Nat) :
    4 + ((es.map Entry.bytes).drop k).sum = nodeSize (es.drop k) := by
  rw [nodeSize_eq_sum, List.map_drop]

theorem splitShrink_eq (hn : Holds node t es) :
    ∀ k ≤ es.length, splitShrink node k = Shape.shrink (es.map Entry.bytes) k
  | 0, _ => rfl
  | k + 1, hk => by
      rw [splitShrink, Shape.shrink, leftBytes_eq hn hk, sum_take_bytes,
        splitShrink_eq hn k (by omega)]

/-- The second loop only goes forward. -/
theorem le_of_splitGrow {r : Nat} : ∀ {fuel k : Nat}, splitGrow node fuel k = .ok r → k ≤ r
  | 0, _, h => by cases h
  | fuel + 1, k, h => by
      rw [splitGrow] at h
      split at h
      · exact Nat.le_of_succ_le (le_of_splitGrow h)
      · exact le_of_eq (Except.ok.inj h)

theorem splitGrow_eq (hn : Holds node t es) {r : Nat} (hr : r < es.length) :
    ∀ {fuel k : Nat}, splitGrow node fuel k = .ok r → Shape.grow (es.map Entry.bytes) fuel k = r
  | 0, _, h => by cases h
  | fuel + 1, k, h => by
      have hk := le_of_splitGrow h
      rw [splitGrow, rightBytes_eq hn (by omega)] at h
      rw [Shape.grow, sum_drop_bytes]
      split at h
      · rename_i hbig
        rw [if_pos hbig]
        exact splitGrow_eq hn hr h
      · rename_i hle
        rw [if_neg hle]
        exact Except.ok.inj h

/-- Both loops end where the sizes say. -/
theorem SplitsAt.eq_cut {nleft : Nat} {l r : BNode} (hn : Holds node t es)
    (h : SplitsAt node t es nleft l r) : nleft = Shape.cut (es.map Entry.bytes) := by
  have hgrown := h.grown
  have hlt := h.lt
  rw [hn.nkeys] at hlt hgrown
  rw [splitShrink_eq hn _ (by omega)] at hgrown
  rw [Shape.cut, List.length_map]
  exact (splitGrow_eq hn hlt hgrown).symm

/-- **A node is stored whole or cut in two**, and never fails on what an insert builds. -/
theorem nodeSplitIfNeeded_pieces (hn : Holds node t es) (ht : t < 2 ^ 16) (hne : es ≠ [])
    (hmax : nodeSize es ≤ maxNodeSize) : ∃ ns, nodeSplitIfNeeded node = .ok ns ∧
      Pieces t ns (Shape.pieces (es.map Entry.bytes) es) := by
  unfold nodeSplitIfNeeded Shape.pieces
  rw [hn.nbytes, ← nodeSize_eq_sum]
  split
  · rename_i hle
    exact ⟨[node], rfl, .cons ⟨hn, hle, hne⟩ .nil⟩
  · rename_i hgt
    obtain ⟨nleft, l, r, hsplit⟩ := nodeSplit_at hn ht (by omega) hmax
    rw [← hsplit.eq_cut hn, hsplit.split, ok_bind]
    have hpos := hsplit.pos
    have hlt := hsplit.lt
    rw [hn.nkeys] at hlt
    refine ⟨[l, r], rfl, .cons ⟨hsplit.left, hsplit.leftFits, fun he => ?_⟩
      (.cons ⟨hsplit.right, hsplit.rightFits, fun he => ?_⟩ .nil)⟩
    · have := congrArg List.length he
      rw [List.length_take, List.length_nil] at this
      omega
    · have := congrArg List.length he
      rw [List.length_drop, List.length_nil] at this
      omega

end Cut

end SqlDb
