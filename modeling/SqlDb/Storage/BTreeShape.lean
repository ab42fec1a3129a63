import SqlDb.Storage.BTreeMap
import SqlDb.Storage.Cursor
import SqlDb.Storage.Reach
import SqlDb.Storage.ShapeAt

/-!
# The shape of a tree

What holds of the nodes a program finds when it follows the links from a root: how deep
the leaves are, how the keys of a node compare, what a separator is, which pages are
linked to. The tree's denotation has all of it built in; here it is said of the nodes
themselves.
-/

namespace SqlDb

open Outcome OrdMap

/-! ## Traversals -/

/-- The first page of every level. -/
inductive Leftmost (g : Nat → Except Fault BNode) (root : Nat) : Nat → Prop where
  | root : Leftmost g root root
  | kid {p : Nat} {node : BNode} : Leftmost g root p → g p = .ok node → node.btype = bnodeNode →
      Leftmost g root (node.getPtr 0)

/-- The keys of the leaves `h` levels below the page, from left to right. -/
def leafKeys (g : Nat → Except Fault BNode) : Nat → Nat → List Bytes
  | 0, p =>
      match g p with
      | .ok node => (List.range node.nkeys).map node.getKey
      | .error _ => []
  | h + 1, p =>
      match g p with
      | .ok node => (List.range node.nkeys).flatMap fun i => leafKeys g h (node.getPtr i)
      | .error _ => []

/-- The pages of the `h` levels below the page and of its own, each as often as it is linked to. -/
def treePages (g : Nat → Except Fault BNode) : Nat → Nat → List Nat
  | 0, p => [p]
  | h + 1, p =>
      match g p with
      | .ok node => p :: (List.range node.nkeys).flatMap fun i => treePages g h (node.getPtr i)
      | .error _ => [p]

/-- **The representation invariant** of the tree at `root`, whose leaves lie `h` levels down. -/
structure RepInv (g : Nat → Except Fault BNode) (root h : Nat) : Prop where
  levels : Levels g h root
  /-- Every node has a key, its keys increase, and a separator is its child's first key. -/
  node : ∀ p, Reaches g root p → ∃ node, g p = .ok node ∧ 1 ≤ node.nkeys ∧
    (∀ i j, i < j → j < node.nkeys → node.getKey i < node.getKey j) ∧
    (node.btype = bnodeNode → ∀ i < node.nkeys, node.getVal i = [] ∧
      ∃ kid, g (node.getPtr i) = .ok kid ∧ kid.getKey 0 = node.getKey i)
  leaves : (leafKeys g h root).Pairwise (· < ·)
  sentinel : ∃ keys, leafKeys g h root = [] :: keys ∧ [] ∉ keys
  leftmost : ∀ p node, Leftmost g root p → g p = .ok node → node.getKey 0 = []
  pages : (treePages g h root).Nodup

/-! ## Traversals of what is denoted -/

section Traversals

variable {g : Nat → Except Fault BNode}

theorem Holds.flatMap_range {α : Type} {node : BNode} {t : Nat} {es : List Entry}
    (h : Holds node t es) (f : Nat → List α) :
    (List.range node.nkeys).flatMap (fun i => f (node.getPtr i)) = es.flatMap fun e => f e.ptr := by
  rw [List.flatMap_def, List.flatMap_def, h.map_range fun a e b hes => ?_]
  rw [hes] at h
  rw [h.getPtr]

theorem Concat.flatMap_pages {R : Entry → Contents → Multiset Nat → Prop} {es : List Entry}
    {k : Contents} {ps : Multiset Nat} {f : Entry → List Nat} (h : Concat R es k ps)
    (hf : ∀ e k p, R e k p → (f e : Multiset Nat) = p) : (es.flatMap f : Multiset Nat) = ps := by
  induction h with
  | nil => rfl
  | cons hR _ ih => rw [List.flatMap_cons, ← Multiset.coe_add, ih, hf _ _ _ hR]

/-- The leaves hold the keys that are bound. -/
theorem EntryAt.leafKeys : ∀ {h : Nat} {e : Entry} {kvs : Contents} {ps : Multiset Nat},
    EntryAt g (h + 1) e kvs ps → leafKeys g h e.ptr = kvs.map Prod.fst
  | 0, _, _, _, he => by
      obtain ⟨_, node, es, ps', hget, hn, _⟩ := entryAt_succ.mp he
      obtain ⟨_, hkvs, _⟩ := concat_leaf.mp hn.concat
      rw [SqlDb.leafKeys, hget, hkvs, List.map_map]
      refine hn.holds.map_range fun a x b hes => ?_
      have hholds := hn.holds
      rw [hes] at hholds
      exact hholds.getKey
  | h + 1, _, _, _, he => by
      obtain ⟨_, node, es, ps', hget, hn, _⟩ := entryAt_succ.mp he
      rw [SqlDb.leafKeys, hget]
      dsimp only
      rw [hn.holds.flatMap_range]
      exact hn.concat.flatMap_map fun _ _ _ hR => EntryAt.leafKeys hR

/-- The pages linked to are those owned. -/
theorem EntryAt.treePages : ∀ {h : Nat} {e : Entry} {kvs : Contents} {ps : Multiset Nat},
    EntryAt g (h + 1) e kvs ps → (treePages g h e.ptr : Multiset Nat) = ps
  | 0, _, _, _, he => by
      obtain ⟨_, node, es, ps', hget, hn, _, _, hps⟩ := entryAt_succ.mp he
      obtain ⟨_, _, hps'⟩ := concat_leaf.mp hn.concat
      rw [hps, hps']
      rfl
  | h + 1, _, _, _, he => by
      obtain ⟨_, node, es, ps', hget, hn, _, _, hps⟩ := entryAt_succ.mp he
      rw [SqlDb.treePages, hget, hps]
      dsimp only
      rw [hn.holds.flatMap_range, ← Multiset.cons_coe,
        hn.concat.flatMap_pages fun _ _ _ hR => EntryAt.treePages hR]

/-- The first page of a level starts with the tree's first key. -/
theorem EntryAt.of_leftmost {h : Nat} {e : Entry} {kvs : Contents} {ps : Multiset Nat}
    (he : EntryAt g (h + 1) e kvs ps) {p : Nat} (hp : Leftmost g e.ptr p) :
    ∃ h' e' k' ps', EntryAt g (h' + 1) e' k' ps' ∧ e'.ptr = p ∧ e'.key = e.key := by
  induction hp with
  | root => exact ⟨h, e, kvs, ps, he, rfl, rfl⟩
  | @kid p node _ hget ht ih =>
      obtain ⟨h', e', k', ps', he', hptr, hkey⟩ := ih
      obtain ⟨_, node', es, pk, hget', hn, _, hhd, _⟩ := entryAt_succ.mp he'
      rw [hptr, hget, Except.ok.injEq] at hget'
      rw [← hget'] at hn
      obtain ⟨x, rest, hes, hx⟩ := head_of_head? hhd
      have hpos : 0 < node.nkeys := by rw [hn.holds.nkeys, hes]; simp
      obtain ⟨y, ky, py, hy, hR, _⟩ := hn.kid hpos
      have hholds := hn.holds
      rw [hes] at hholds
      cases h' with
      | zero => exact absurd (ht.symm.trans hn.btype_zero) bnodeNode_ne_leaf
      | succ h' => exact ⟨h', y, ky, py, hR, hy.1.symm, by rw [← hy.2.1, hholds.getKey_zero, hx, hkey]⟩

/-- A node that is reached. -/
theorem EntryAt.node {h : Nat} {e : Entry} {kvs : Contents} {ps : Multiset Nat}
    (he : EntryAt g (h + 1) e kvs ps) (hs : Sorted kvs) :
    ∃ node, g e.ptr = .ok node ∧ 1 ≤ node.nkeys ∧ node.getKey 0 = e.key ∧
      (∀ i j, i < j → j < node.nkeys → node.getKey i < node.getKey j) ∧
      (node.btype = bnodeNode → ∀ i < node.nkeys, node.getVal i = [] ∧
        ∃ kid, g (node.getPtr i) = .ok kid ∧ kid.getKey 0 = node.getKey i) := by
  obtain ⟨_, node, es, ps', hget, hn, _, hhd, _⟩ := entryAt_succ.mp he
  obtain ⟨x, rest, hes, hx⟩ := head_of_head? hhd
  have hholds := hn.holds
  rw [hes] at hholds
  refine ⟨node, hget, by rw [hholds.nkeys]; simp, by rw [hholds.getKey_zero, hx], ?_, ?_⟩
  · have hkeys := (hn.concat.keysSorted (entryAt_headed h) hs)
    -- the keys read from the node are those of its entries
    have hmap : (List.range node.nkeys).map node.getKey = es.map Entry.key :=
      hn.holds.map_range fun a y b he' => by
        have hholds' := hn.holds
        rw [he'] at hholds'
        exact hholds'.getKey
    have hsorted : ((List.range node.nkeys).map node.getKey).Pairwise (· < ·) := by
      rw [hmap]
      exact List.pairwise_map.mpr hkeys
    intro i j hij hj
    have := List.pairwise_iff_getElem.mp hsorted i j (by simp; omega) (by simpa using hj) hij
    simpa using this
  · intro ht i hi
    obtain ⟨y, ky, py, hy, hR, _⟩ := hn.kid hi
    cases h with
    | zero => exact absurd (ht.symm.trans hn.btype_zero) bnodeNode_ne_leaf
    | succ h =>
        obtain ⟨hval, kid, es', _, hkid, hnk, _, hhd', _⟩ := entryAt_succ.mp hR
        obtain ⟨z, rest', hes', hz⟩ := head_of_head? hhd'
        have hholds' := hnk.holds
        rw [hes'] at hholds'
        exact ⟨by rw [hy.2.2, hval], kid, by rw [hy.1]; exact hkid,
          by rw [hholds'.getKey_zero, hz, hy.2.1]⟩

/-- **What a tree denotes determines its shape.** -/
theorem TreeAt.repInv {root : Nat} {m : Contents} {ps : Multiset Nat} (ht : TreeAt g root m ps)
    (hnd : ps.Nodup) (hroot : root ≠ 0) : ∃ h, RepInv g root h := by
  rcases ht with ⟨h0, _⟩ | ⟨_, hs, h, he⟩
  · exact absurd h0 hroot
  have hkeys := he.leafKeys
  have hkey : ([] : Bytes) = (⟨root, [], []⟩ : Entry).key := rfl
  -- the sentinel is the only empty key
  have hne : ∀ k ∈ m.map Prod.fst, k ≠ [] := by
    intro k hk hnil
    obtain ⟨r, hr, hrk⟩ := List.mem_map.mp hk
    have := (sorted_cons.mp hs).1 r hr
    rw [hrk, hnil] at this
    exact lt_irrefl _ this
  refine ⟨h, he.levels, fun p hp => ?_, ?_, ⟨m.map Prod.fst, hkeys, fun hm => hne _ hm rfl⟩,
    fun p node hp hget => ?_, ?_⟩
  · obtain ⟨h', e', k', ps', he', hptr, _, hin⟩ := he.of_reaches hp
    obtain ⟨node, hget, h1, _, h2, h3⟩ := he'.node (hs.sublist hin.sublist)
    rw [hptr] at hget
    exact ⟨node, hget, h1, h2, h3⟩
  · rw [hkeys]
    exact sorted_iff_map.mp hs
  · obtain ⟨h', e', k', ps', he', hptr, hkey⟩ := he.of_leftmost hp
    obtain ⟨_, node', es, _, hget', hn, _, hhd, _⟩ := entryAt_succ.mp he'
    obtain ⟨x, rest, hes, hx⟩ := head_of_head? hhd
    rw [hptr, hget, Except.ok.injEq] at hget'
    have hholds := hn.holds
    rw [hes, ← hget'] at hholds
    rw [hholds.getKey_zero, hx, hkey]
  · rw [← Multiset.coe_nodup, he.treePages]
    exact hnd

end Traversals

/-! ## Over runs -/

namespace BTree

variable {σ : Type} [PageManager σ] {I : σ → Multiset Nat → Prop} {E : Fault → Prop}

/-- **The representation invariant** holds after any sequence of calls from the empty tree. A run
ends early only in a failure of the page manager or in the size assertion of `node_append_kv`, and
so does the call that comes next: the assertions on a lookup's index and on a lone empty child never
fail. -/
theorem rep_invariant (hI : LawfulPages I E) {s : σ} (hs : I s 0) (calls : List Call) :
    (∀ f, run (⟨0, s⟩ : BTree σ) calls = .error f → E f ∨ f = .asserts .appendSize) ∧
    ∀ t, run (⟨0, s⟩ : BTree σ) calls = .ok t →
      (t.root = 0 ∨ ∃ h, RepInv (PageManager.get t.pages) t.root h) ∧
      (∀ key cmp, ∃ iter, t.seek key cmp = .ok iter) ∧
      ∀ c f, t.call c = .error f → E f ∨ f = .asserts .appendSize := by
  have h := run_spec hI (denotes_empty hs) calls
  refine ⟨fun f hf => by rw [hf] at h; exact h, fun t ht => ?_⟩
  obtain ⟨m, ps, hd, _⟩ := h.of_ok ht
  refine ⟨?_, fun key cmp => ?_, fun c f hf => ?_⟩
  · by_cases hroot : t.root = 0
    · exact Or.inl hroot
    · exact Or.inr (hd.tree.repInv (hI.nodup hd.owns) hroot)
  · obtain ⟨iter, hseek, _⟩ := seek_spec (shows_get t.pages) hd.tree
      (fun p hp => (hI.ptr hd.owns p hp).1) (hI.count hd.owns) key cmp
    exact ⟨iter, hseek⟩
  · have hcall := call_spec hI hd c
    rw [hf] at hcall
    exact hcall

end BTree

/-- Over pages in memory, after a delete in one of two leaves. -/
theorem BTree.rep_invariant_in_memory :
    ∃ t, BTree.run (⟨0, {}⟩ : BTree InMemoryPageManager) (inserts sixBindings ++ [.remove [102]]) =
      .ok t ∧
      (t.root = 0 ∨ ∃ h, RepInv (PageManager.get t.pages) t.root h) ∧
      (∀ key cmp, ∃ iter, t.seek key cmp = .ok iter) ∧
      ∀ c f, t.call c = .error f → f = .overflow ∨ f = .asserts .appendSize := by
  obtain ⟨t₁, hrun, ht⟩ := run_six
  have hroom : t₁.RoomFor [102] := ht.room_iff.mpr (by decide +kernel)
  obtain ⟨t, hrun'⟩ := ht.run_remove (by decide) (by decide) hroom hrun
  have hinv := BTree.rep_invariant InMemoryPageManager.lawful InMemoryPageManager.owns_empty
    (inserts sixBindings ++ [.remove [102]])
  exact ⟨t, hrun', hinv.2 t hrun'⟩

end SqlDb
