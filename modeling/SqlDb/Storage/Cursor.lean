import SqlDb.Storage.BTreeInsert
import SqlDb.Storage.BTreeIter

/-!
# An iterator is a position in the bindings

A path focuses one entry at each of its levels. `EntryPath` says what lies before
the focus, what the focus denotes and what lies after it, in the whole tree; a
step at any level moves the focus to the neighbouring entry of that level, and at
the leaves that is the neighbouring binding. So an iterator is a number between 0,
the sentinel's, and the number of bindings.
-/

namespace SqlDb

open Outcome OrdMap

/-! ## The focused entry -/

/-- `path`, whose head is a node at height `h`, focuses the entry `e`: it denotes `k`, and `pre`
and `post` are what the tree holds before and after it. -/
inductive EntryPath (g : Nat → Except Fault BNode) :
    Nat → TreePath → Entry → Contents → Contents → Contents → Prop where
  | root {h : Nat} {node : BNode} {a b : List Entry} {e : Entry} {ka ke kb : Contents}
      {pa pe pb : Multiset Nat} : Holds node (nodeType h) (a ++ e :: b) →
      Concat (EntryAt g h) a ka pa → EntryAt g h e ke pe → Concat (EntryAt g h) b kb pb →
      EntryPath g h [(node, a.length)] e ka ke kb
  | down {h : Nat} {upper : TreePath} {e0 : Entry} {pre post : Contents} {node : BNode}
      {a b : List Entry} {e : Entry} {ka ke kb : Contents} {pa pe pb : Multiset Nat} :
      EntryPath g (h + 1) upper e0 pre (ka ++ ke ++ kb) post → g e0.ptr = .ok node →
      Holds node (nodeType h) (a ++ e :: b) → Concat (EntryAt g h) a ka pa →
      EntryAt g h e ke pe → Concat (EntryAt g h) b kb pb →
      EntryPath g h ((node, a.length) :: upper) e (pre ++ ka) ke (kb ++ post)

variable {g : Nat → Except Fault BNode}

/-- The focus is an entry of the tree. -/
theorem EntryPath.entryAt {h : Nat} {path : TreePath} {e : Entry} {pre k post : Contents}
    (hp : EntryPath g h path e pre k post) : ∃ p, EntryAt g h e k p := by
  cases hp with
  | root _ _ he _ => exact ⟨_, he⟩
  | down _ _ _ _ he _ => exact ⟨_, he⟩

/-- The head of the path is the node the focus lies in. -/
theorem EntryPath.head {h : Nat} {path : TreePath} {e : Entry} {pre k post : Contents}
    (hp : EntryPath g h path e pre k post) : ∃ node a b upper,
      path = (node, a.length) :: upper ∧ Holds node (nodeType h) (a ++ e :: b) := by
  cases hp with
  | root hn _ _ _ => exact ⟨_, _, _, _, rfl, hn⟩
  | down _ _ hn _ _ _ => exact ⟨_, _, _, _, rfl, hn⟩

variable {σ : Type} [PageManager σ] {s : σ}

/-- The pages `g` reads are pages of `s`. An iterator needs no more of them than that, so it stays
where it is while other pages change. -/
def Shows (s : σ) (g : Nat → Except Fault BNode) : Prop :=
  ∀ q node, g q = .ok node → PageManager.get s q = .ok node

theorem shows_get (s : σ) : Shows s (PageManager.get s) := fun _ _ h => h

/-- Reloading goes to the first or the last entry below the focus. -/
theorem reloadKid_spec {h : Nat} {path : TreePath} {e : Entry} {pre k post : Contents}
    (hg : Shows s g) (hp : EntryPath g (h + 1) path e pre k post) (atLast : Bool) :
    ∃ path' e' ka ke kb, reloadKid s atLast path = .ok path' ∧
      EntryPath g h path' e' (pre ++ ka) ke (kb ++ post) ∧
      k = ka ++ ke ++ kb ∧ if atLast then kb = [] else ka = [] := by
  obtain ⟨p, he⟩ := hp.entryAt
  obtain ⟨node, a, b, upper, hpath, hn⟩ := hp.head
  obtain ⟨_, kid, es, ps, hget, hkid, _, hhd, _⟩ := entryAt_succ.mp he
  have hload : reloadKid s atLast path =
      .ok ((kid, if atLast then kid.nkeys - 1 else 0) :: path) := by
    rw [hpath, reloadKid, hn.getPtr, hg _ _ hget]
    rfl
  rw [hload, hkid.holds.nkeys]
  cases atLast with
  | false =>
      obtain ⟨x, rest, hes, _⟩ := head_of_head? hhd
      rw [hes] at hkid
      obtain ⟨kx, kr, px, pr, hk, _, hx, hr⟩ := concat_cons.mp hkid.concat
      rw [hk] at hp
      exact ⟨_, x, [], kx, kr, rfl, .down (a := []) (b := rest) hp hget hkid.holds .nil hx hr, hk,
        rfl⟩
  | true =>
      rcases List.eq_nil_or_concat' es with hes | ⟨rest, x, hes⟩
      · rw [hes] at hhd; cases hhd
      rw [hes] at hkid
      obtain ⟨kr, kx, pr, px, hk, _, hr, hx⟩ := concat_append.mp hkid.concat
      have hk' : k = kr ++ kx ++ [] := by rw [hk, List.append_nil]
      have hlen : es.length - 1 = rest.length := by rw [hes]; simp
      rw [hk'] at hp
      rw [if_pos rfl, hlen]
      exact ⟨_, x, kr, kx, [], rfl,
        .down (a := rest) (b := []) hp hget hkid.holds hr (concat_singleton.mp hx) .nil, hk', rfl⟩

/-- **A step back focuses the entry before**, and there is none only at the tree's first. -/
theorem iterPrev_spec {h : Nat} {path : TreePath} {e : Entry} {pre k post : Contents}
    (hg : Shows s g) (hp : EntryPath g h path e pre k post) :
    (pre = [] ∧ iterPrev s path = .ok none) ∨ ∃ path' e' pre' k', pre = pre' ++ k' ∧
      iterPrev s path = .ok (some path') ∧
      EntryPath g h path' e' pre' k' (k ++ post) := by
  induction hp with
  | @root h node a b e ka ke kb pa pe pb hn ha he hb =>
      rcases List.eq_nil_or_concat' a with hnil | ⟨a', x, heq⟩
      · -- the first entry of the root
        rw [hnil] at ha ⊢
        exact Or.inl ⟨(concat_nil.mp ha).1, rfl⟩
      · rw [heq] at ha hn ⊢
        obtain ⟨k1, kx, p1, px, hk, _, h1, hx⟩ := concat_append.mp ha
        refine Or.inr ⟨[(node, a'.length)], x, k1, kx, hk, ?_, ?_⟩
        · rw [iterPrev, if_pos (by simp)]; simp; rfl
        · exact .root (by simpa using hn) h1 (concat_singleton.mp hx) (.cons he hb)
  | @down h upper e0 pre post node a b e ka ke kb pa pe pb hup hget hn ha he hb ih =>
      rcases List.eq_nil_or_concat' a with hnil | ⟨a', x, heq⟩
      · -- the first entry of its node: the level above moves
        rw [hnil] at ha ⊢
        obtain ⟨hka, _⟩ := concat_nil.mp ha
        rw [hka, List.append_nil]
        rcases ih with ⟨hpre, hnone⟩ | ⟨upper', e', pre', k', hpre, hsome, hup'⟩
        · refine Or.inl ⟨hpre, ?_⟩
          rw [iterPrev, if_neg (by simp), hnone]; rfl
        · obtain ⟨path', e'', ka', ke', kb', hload, hpath, hk', hlast⟩ :=
            reloadKid_spec hg hup' true
          rw [if_pos rfl] at hlast
          refine Or.inr ⟨path', e'', pre' ++ ka', ke', ?_, ?_, ?_⟩
          · rw [hpre, hk', hlast]; simp
          · rw [iterPrev, if_neg (by simp), hsome]
            show (do return some (← reloadKid s true upper')) = _
            rw [hload]; rfl
          · rw [hlast, hka] at hpath
            simpa using hpath
      · rw [heq] at ha hn ⊢
        obtain ⟨k1, kx, p1, px, hk, _, h1, hx⟩ := concat_append.mp ha
        rw [hk] at hup ⊢
        refine Or.inr ⟨(node, a'.length) :: upper, x, pre ++ k1, kx, by simp, ?_, ?_⟩
        · rw [iterPrev, if_pos (by simp)]; simp; rfl
        · have := EntryPath.down (a := a') (b := e :: b) (by simpa using hup) hget
            (by simpa using hn) h1 (concat_singleton.mp hx) (.cons he hb)
          simpa using this

/-- **A step forward focuses the entry after**, and there is none only at the tree's last. -/
theorem iterNext_spec {h : Nat} {path : TreePath} {e : Entry} {pre k post : Contents}
    (hg : Shows s g) (hp : EntryPath g h path e pre k post) :
    (post = [] ∧ iterNext s path = .ok none) ∨ ∃ path' e' k' post', post = k' ++ post' ∧
      iterNext s path = .ok (some path') ∧
      EntryPath g h path' e' (pre ++ k) k' post' := by
  induction hp with
  | @root h node a b e ka ke kb pa pe pb hn ha he hb =>
      cases b with
      | nil =>
          refine Or.inl ⟨(concat_nil.mp hb).1, ?_⟩
          rw [iterNext, if_neg (by rw [hn.nkeys]; simp)]; rfl
      | cons x b' =>
          obtain ⟨kx, k2, px, p2, hk, _, hx, h2⟩ := concat_cons.mp hb
          refine Or.inr ⟨[(node, a.length + 1)], x, kx, k2, hk, ?_, ?_⟩
          · rw [iterNext, if_pos (by rw [hn.nkeys]; simp)]; rfl
          · have := EntryPath.root (a := a ++ [e]) (b := b') (by simpa using hn)
              (ha.append (.cons he .nil)) hx h2
            simpa using this
  | @down h upper e0 pre post node a b e ka ke kb pa pe pb hup hget hn ha he hb ih =>
      cases b with
      | nil =>
          -- the last entry of its node: the level above moves
          obtain ⟨hkb, _⟩ := concat_nil.mp hb
          rw [hkb, List.nil_append]
          have hlast : ¬ a.length + 1 < node.nkeys := by rw [hn.nkeys]; simp
          rcases ih with ⟨hpost, hnone⟩ | ⟨upper', e', k', post', hpost, hsome, hup'⟩
          · refine Or.inl ⟨hpost, ?_⟩
            rw [iterNext, if_neg hlast, hnone]; rfl
          · obtain ⟨path', e'', ka', ke', kb', hload, hpath, hk', hfirst⟩ :=
              reloadKid_spec hg hup' false
            rw [if_neg (by simp)] at hfirst
            refine Or.inr ⟨path', e'', ke', kb' ++ post', ?_, ?_, ?_⟩
            · rw [hpost, hk', hfirst]; simp
            · rw [iterNext, if_neg hlast, hsome]
              show (do return some (← reloadKid s false upper')) = _
              rw [hload]; rfl
            · rw [hfirst, hkb] at hpath
              simpa using hpath
      | cons x b' =>
          obtain ⟨kx, k2, px, p2, hk, _, hx, h2⟩ := concat_cons.mp hb
          rw [hk] at hup ⊢
          refine Or.inr ⟨(node, a.length + 1) :: upper, x, kx, k2 ++ post, by simp, ?_, ?_⟩
          · rw [iterNext, if_pos (by rw [hn.nkeys]; simp)]; rfl
          · have := EntryPath.down (a := a ++ [e]) (b := b') (by simpa using hup) hget
              (by simpa using hn) (ha.append (.cons he .nil)) hx h2
            simpa using this

/-! ## Positions -/

/-- At a leaf the focus is one binding. -/
theorem EntryPath.leaf {path : TreePath} {e : Entry} {pre k post : Contents}
    (hp : EntryPath g 0 path e pre k post) : k = [(e.key, e.val)] := by
  obtain ⟨p, he⟩ := hp.entryAt
  exact (entryAt_zero.mp he).2.1

/-- What the head of a path says of the position in its node. -/
theorem EntryPath.pos {h pos : Nat} {node : BNode} {upper : TreePath} {e : Entry}
    {pre k post : Contents} (hp : EntryPath g h ((node, pos) :: upper) e pre k post) :
    pos < node.nkeys ∧ node.getKey pos = e.key ∧ node.getVal pos = e.val ∧
      (0 < pos → pre ≠ []) ∧ (post = [] → pos + 1 = node.nkeys) := by
  cases hp with
  | @root _ _ a b _ _ _ _ _ _ _ hn ha _ hb =>
      refine ⟨by rw [hn.nkeys]; simp, hn.getKey, hn.getVal, fun h hnil => ?_, fun hnil => ?_⟩
      · rw [(ha.eq_nil (entryAt_headed _)).mpr hnil] at h
        exact absurd h (lt_irrefl 0)
      · rw [hn.nkeys, (hb.eq_nil (entryAt_headed _)).mpr hnil]; simp
  | @down _ _ _ _ _ _ a b _ _ _ _ _ _ _ _ _ hn ha _ hb =>
      refine ⟨by rw [hn.nkeys]; simp, hn.getKey, hn.getVal, fun h hnil => ?_, fun hnil => ?_⟩
      · rw [(ha.eq_nil (entryAt_headed _)).mpr (List.append_eq_nil_iff.mp hnil).2] at h
        exact absurd h (lt_irrefl 0)
      · rw [hn.nkeys, (hb.eq_nil (entryAt_headed _)).mpr (List.append_eq_nil_iff.mp hnil).1]; simp

/-- The iterator is at position `i` among the bindings `m`: 0 before the first, `i` at the `i`-th,
and one more than their number after the last. The empty tree has no path, and the iterator is at
both ends at once. -/
inductive AtPos (g : Nat → Except Fault BNode) (m : Contents) : BIter → Nat → Prop where
  | empty {i : Nat} : m = [] → i ≤ 1 → AtPos g m ⟨[]⟩ i
  | key {path : TreePath} {e : Entry} {pre k post : Contents} :
      EntryPath g 0 path e pre k post → ([], []) :: m = pre ++ k ++ post →
      AtPos g m ⟨path⟩ pre.length
  | last {node : BNode} {pos : Nat} {upper : TreePath} {e : Entry} {pre k : Contents} :
      EntryPath g 0 ((node, pos) :: upper) e pre k [] → ([], []) :: m = pre ++ k →
      AtPos g m ⟨(node, node.nkeys) :: upper⟩ (m.length + 1)

/-- **An iterator is valid at a binding.** -/
theorem AtPos.valid {m : Contents} {iter : BIter} {i : Nat} (h : AtPos g m iter i)
    (hm : ∀ r ∈ m, r.1 ≠ []) : iter.valid = true ↔ 1 ≤ i ∧ i ≤ m.length := by
  cases h with
  | empty hnil hi => rw [hnil]; simp [BIter.valid]; omega
  | last hp hk => simp [BIter.valid]
  | @key path e pre k post hp hk =>
      obtain ⟨node, a, b, upper, hpath, _⟩ := hp.head
      rw [hpath] at hp ⊢
      obtain ⟨hlt, hkey, _, hpre, _⟩ := hp.pos
      have hleaf := hp.leaf
      have hlen : pre.length ≤ m.length := by
        have := congrArg List.length hk
        rw [hleaf] at this
        simp only [List.length_cons, List.length_append, List.length_nil] at this
        omega
      rw [BIter.valid_cons, if_neg (by omega)]
      cases pre with
      | nil =>
          -- the sentinel
          have ha : a.length = 0 := by
            rcases Nat.eq_zero_or_pos a.length with h0 | h0
            · exact h0
            · exact absurd rfl (hpre h0)
          rw [ha] at hkey ⊢
          rw [hleaf] at hk
          have hsent : ([], []) = (e.key, e.val) := (List.cons.inj hk).1
          have hnil : e.key = [] := (Prod.mk.inj hsent).1.symm
          rw [hkey, hnil]
          simp
      | cons r pre =>
          have hmem : (e.key, e.val) ∈ m := by
            rw [hleaf] at hk
            have := (List.cons.inj hk).2
            rw [this]; simp
          have hne := hm _ hmem
          rcases Nat.eq_zero_or_pos a.length with h0 | h0
          · rw [h0] at hkey ⊢
            rw [hkey]
            simp only [List.length_cons] at hlen ⊢
            simp [hne]; omega
          · simp only [List.length_cons] at hlen ⊢
            simp [h0]; omega

/-- **What `deref` returns.** -/
theorem AtPos.deref {m : Contents} {iter : BIter} {i : Nat} {r : Bytes × Bytes}
    (h : AtPos g m iter i) (hm : ∀ r ∈ m, r.1 ≠ []) (hr : (([], []) :: m)[i]? = some r)
    (hi : 1 ≤ i) : iter.deref = .ok r := by
  have hlt : i < m.length + 1 := by
    have := (List.getElem?_eq_some_iff.mp hr).1
    simpa using this
  have hv := (h.valid hm).mpr ⟨hi, by omega⟩
  cases h with
  | empty hnil _ => simp [BIter.valid] at hv
  | last hp hk => omega
  | @key path e pre k post hp hk =>
      obtain ⟨node, a, b, upper, hpath, _⟩ := hp.head
      rw [hpath] at hp hv ⊢
      obtain ⟨_, hkey, hval, _⟩ := hp.pos
      have hget : (([], []) :: m)[pre.length]? = some (e.key, e.val) := by
        rw [hk, hp.leaf]; simp
      rw [hget] at hr
      rw [BIter.deref_cons, require_pos hv, ok_bind, hkey, hval]
      exact congrArg Except.ok (Option.some.inj hr)

/-- **`prev` steps to the position before**, and stays at 0. -/
theorem AtPos.prev {m : Contents} {iter : BIter} {i : Nat} (hg : Shows s g)
    (h : AtPos g m iter i) :
    ∃ iter', iter.prev s = .ok iter' ∧ AtPos g m iter' (i - 1) := by
  cases h with
  | empty hnil hi => exact ⟨⟨[]⟩, rfl, .empty hnil (by omega)⟩
  | @last node pos upper e pre k hp hk =>
      obtain ⟨hlt, _, _, _, hlast⟩ := hp.pos
      refine ⟨⟨(node, pos) :: upper⟩, ?_, ?_⟩
      · rw [BIter.prev, iterPrev, if_pos (by omega), ← hlast rfl]; rfl
      · have hlen : m.length + 1 - 1 = pre.length := by
          have := congrArg List.length hk
          rw [hp.leaf] at this
          simp only [List.length_cons, List.length_append, List.length_nil] at this
          omega
        rw [hlen]
        exact .key hp (by simpa using hk)
  | @key path e pre k post hp hk =>
      have hleaf := hp.leaf
      rcases iterPrev_spec hg hp with ⟨hpre, hnone⟩ | ⟨path', e', pre', k', hpre, hsome, hp'⟩
      · refine ⟨⟨path⟩, by rw [BIter.prev, hnone]; rfl, ?_⟩
        rw [show pre.length - 1 = pre.length by rw [hpre]; rfl]
        exact .key hp hk
      · refine ⟨⟨path'⟩, by rw [BIter.prev, hsome]; rfl, ?_⟩
        have hlen : pre.length - 1 = pre'.length := by rw [hpre, hp'.leaf]; simp
        rw [hlen]
        refine .key hp' ?_
        rw [hk, hpre]; simp

/-- **`next` steps to the position after**, and stays at the last. -/
theorem AtPos.next {m : Contents} {iter : BIter} {i : Nat} (hg : Shows s g)
    (h : AtPos g m iter i) :
    ∃ iter', iter.next s = .ok iter' ∧
      AtPos g m iter' (min (i + 1) (m.length + 1)) := by
  cases h with
  | empty hnil hi => exact ⟨⟨[]⟩, rfl, .empty hnil (by rw [hnil]; simp)⟩
  -- already behind the last key: the iterator stays
  | @last node pos upper e pre k hp hk =>
      obtain ⟨_, _, _, _, hlast⟩ := hp.pos
      have hnext : iterNext s ((node, pos) :: upper) = .ok none := by
        rcases iterNext_spec hg hp with ⟨_, h⟩ | ⟨_, _, k', post', hpost, _, hp'⟩
        · exact h
        · rw [hp'.leaf] at hpost; simp at hpost
      have hsame : iterNext s ((node, node.nkeys) :: upper) = .ok none := by
        rw [iterNext, if_neg (by have := hlast rfl; omega)] at hnext
        rw [iterNext, if_neg (by omega)]
        exact hnext
      refine ⟨⟨(node, node.nkeys) :: upper⟩, by rw [BIter.next, hsame]; rfl, ?_⟩
      rw [show min (m.length + 1 + 1) (m.length + 1) = m.length + 1 by omega]
      exact .last hp hk
  | @key path e pre k post hp hk =>
      have hleaf := hp.leaf
      have hlen := congrArg List.length hk
      rw [hleaf] at hlen
      simp only [List.length_cons, List.length_append, List.length_nil] at hlen
      -- at the last key it goes behind it, else to the next key
      rcases iterNext_spec hg hp with ⟨hpost, hnone⟩ | ⟨path', e', k', post', hpost, hsome, hp'⟩
      · obtain ⟨node, a, b, upper, hpath, _⟩ := hp.head
        rw [hpath, hpost] at hp
        rw [hpath] at hnone ⊢
        rw [hpost] at hk hlen
        refine ⟨⟨(node, node.nkeys) :: upper⟩, by rw [BIter.next, hnone]; rfl, ?_⟩
        rw [show min (pre.length + 1) (m.length + 1) = m.length + 1 by simp at hlen; omega]
        exact .last hp (by simpa using hk)
      · refine ⟨⟨path'⟩, by rw [BIter.next, hsome]; rfl, ?_⟩
        have hle : min (pre.length + 1) (m.length + 1) = (pre ++ k).length := by
          rw [hleaf]; simp; omega
        rw [hle]
        refine .key hp' ?_
        rw [hk, hpost]; simp

/-! ## Seeking -/

/-- The path leads to a node, and no position in it is chosen yet. -/
def Leads (g : Nat → Except Fault BNode) (h : Nat) (path : TreePath) (node : BNode)
    (pre k post : Contents) : Prop :=
  (path = [] ∧ pre = [] ∧ post = []) ∨
    ∃ e, EntryPath g (h + 1) path e pre k post ∧ g e.ptr = .ok node

/-- Choosing an entry of that node focuses it. -/
theorem Leads.focus {h : Nat} {path : TreePath} {node : BNode} {pre post : Contents}
    {a b : List Entry} {e : Entry} {ka ke kb : Contents} {pa pe pb : Multiset Nat}
    (hl : Leads g h path node pre (ka ++ ke ++ kb) post)
    (hn : Holds node (nodeType h) (a ++ e :: b)) (ha : Concat (EntryAt g h) a ka pa)
    (he : EntryAt g h e ke pe) (hb : Concat (EntryAt g h) b kb pb) :
    EntryPath g h ((node, a.length) :: path) e (pre ++ ka) ke (kb ++ post) := by
  rcases hl with ⟨hpath, hpre, hpost⟩ | ⟨e0, hp, hget⟩
  · rw [hpath, hpre, hpost, List.nil_append, List.append_nil]
    exact .root hn ha he hb
  · exact .down hp hget hn ha he hb

/-- **The descent of `seek_le`** lands on the last key at or below `key`. -/
theorem seekLeLoop_spec (hg : Shows s g) (key : Bytes) : ∀ {h fuel ptr : Nat} {path : TreePath}
    {node : BNode} {es : List Entry} {kvs pre post : Contents} {ps : Multiset Nat},
    h < fuel → ptr ≠ 0 →
    g ptr = .ok node → NodeAt g h node es kvs ps →
    (∀ p ∈ ps, p ≠ 0) → Leads g h path node pre kvs post → Sorted kvs →
    (∃ e ∈ es, e.key ≤ key) →
    ∃ path' e pre' k' kb, BTree.seekLeLoop s key fuel ptr path = .ok path' ∧
      EntryPath g 0 path' e pre' k' (kb ++ post) ∧
      pre ++ kvs = pre' ++ k' ++ kb ∧ e.key ≤ key ∧ Above kb key
  | h, 0, _, _, _, _, _, _, _, _, hf, _, _, _, _, _, _, _ => absurd hf (by omega)
  | h, fuel + 1, ptr, path, node, es, kvs, pre, post, ps, hf, hptr, hget, hn, hps, hl, hs, hhead => by
      rw [BTree.seekLeLoop_succ s key fuel path hptr, hg _ _ hget, ok_bind]
      -- some entry is at or below the key, so the lookup returns one
      rcases nodeLookupLe_cases hn.holds (hn.concat.keysSorted (entryAt_headed h) hs) key with
        ⟨_, habove⟩ | ⟨a, e, b, hes, hidx, hle, _, hlt⟩
      · obtain ⟨e, he, hle⟩ := hhead
        exact absurd hle (not_le.mpr (habove e he))
      rw [hes] at hn
      obtain ⟨ka, ke, kb, pa, pe, pb, hk, hps', ha, he, hb, _, hse, hkb⟩ :=
        hn.concat.route (entryAt_headed h) hs hle hlt
      rw [hk] at hl
      have hfocus := hl.focus hn.holds ha he hb
      rw [hidx]
      dsimp only
      rw [require_pos (by omega), ok_bind, Int.toNat_natCast]
      cases h with
      | zero =>
          rw [if_neg (by rw [hn.btype_zero]; decide), BTree.seekLeLoop_zero]
          exact ⟨_, e, _, ke, kb, rfl, hfocus, by rw [hk]; simp, hle, hkb⟩
      -- the entry's child is descended into, with its bindings as the range
      | succ h =>
          obtain ⟨_, child, ec, pc, hcget, hc, _, hhd, hpe⟩ := entryAt_succ.mp he
          obtain ⟨x, rest, hec, hx⟩ := head_of_head? hhd
          have hne : e.ptr ≠ 0 := hps e.ptr (by rw [hps', hpe]; simp)
          rw [if_pos hn.btype_succ, hn.holds.getPtr]
          obtain ⟨path', e', pre', k', kb', hok, hp, heq, hle', habove⟩ :=
            seekLeLoop_spec hg key (show h < fuel by omega) hne hcget hc
              (fun p hp => hps p (by rw [hps', hpe]; simp [hp])) (Or.inr ⟨e, hfocus, hcget⟩) hse
              ⟨x, by rw [hec]; simp, by rw [hx]; exact hle⟩
          refine ⟨path', e', pre', k', kb' ++ kb, hok, ?_, ?_, hle', ?_⟩
          · rw [List.append_assoc]; exact hp
          · rw [hk, ← List.append_assoc, ← List.append_assoc, heq, List.append_assoc]
          · intro r hr
            rcases List.mem_append.mp hr with hr | hr
            · exact habove r hr
            · exact hkb r hr

/-- Where `seek` lands among the bindings. -/
def seekPos (m : Contents) (key : Bytes) : CMP → Nat
  | .ge => countLt m key + 1
  | .gt => countLe m key + 1
  | .lt => countLt m key
  | .le => countLe m key

/-- **`seek` lands on the closest key satisfying the relation**, or past the last. -/
theorem BTree.seek_spec {t : BTree σ} {m : Contents} {ps : Multiset Nat} (hg : Shows t.pages g)
    (ht : TreeAt g t.root m ps) (hps : ∀ p ∈ ps, p ≠ 0)
    (hcount : ps.card ≤ PageManager.pageCount t.pages) (key : Bytes) (cmp : CMP) :
    ∃ iter, t.seek key cmp = .ok iter ∧
      AtPos g m iter (seekPos m key cmp) := by
  have hm := ht.key_ne_nil
  rcases ht with ⟨hroot, hnil, _⟩ | ⟨hroot, hs, h, he⟩
  · have hle : t.seekLe key = .ok ⟨[]⟩ := by
      rw [seekLe, hroot, seekLeLoop_zero]; rfl
    refine ⟨⟨[]⟩, ?_, .empty hnil ?_⟩
    · rw [seek, hle, ok_bind]
      cases cmp <;> rfl
    · rw [hnil]
      cases cmp <;> simp [seekPos, countLt, countLe]
  have hfuel := he.height_le
  obtain ⟨_, node, es, ps', hget, hn, _, hhd, hps'⟩ := entryAt_succ.mp he
  obtain ⟨x, rest, hes, hx⟩ := head_of_head? hhd
  obtain ⟨path, e, pre, k, kb, hok, hp, heq, hle, habove⟩ :=
    seekLeLoop_spec hg key (show h < PageManager.pageCount t.pages by omega) hroot hget hn
      (fun p hp => hps p (by rw [hps']; simp [hp])) (Or.inl ⟨rfl, rfl, rfl⟩) hs
      ⟨x, by rw [hes]; simp, by rw [hx]; exact Bytes.nil_le key⟩
  rw [List.nil_append, hp.leaf] at heq
  rw [List.append_nil] at hp
  -- the lookup lands at position `pre.length`
  have hpos := AtPos.key hp (by rw [heq, hp.leaf])
  have heq' : ([], []) :: m = pre ++ (e.key, e.val) :: kb := by rw [heq]; simp
  rw [heq'] at hs
  have hcle := countLe_segment hs hle habove
  have hclt := countLt_segment hs hle habove
  rw [← heq'] at hcle hclt
  -- the sentinel counts for every key
  have hsle : countLe (([], []) :: m) key = countLe m key + 1 := by
    rw [countLe, List.countP_cons, decide_eq_true (Bytes.nil_le key)]; rfl
  have hslt : countLt (([], []) :: m) key = countLt m key + if key = [] then 0 else 1 := by
    rw [countLt, List.countP_cons]
    by_cases hk : key = []
    · simp [hk, countLt]
    · simp [hk, countLt, Bytes.nil_lt hk]
  have hseek : t.seekLe key = .ok ⟨path⟩ := by rw [seekLe, hok]; rfl
  have hlen : pre.length ≤ m.length := by
    have := congrArg List.length heq'
    simp only [List.length_cons, List.length_append] at this
    omega
  have hget' : (([], []) :: m)[pre.length]? = some (e.key, e.val) := by rw [heq']; simp
  have hvalid := hpos.valid hm
  have hok : seekOk ⟨path⟩ key cmp = .ok (decide (1 ≤ pre.length) && cmpOk e.key cmp key) := by
    rw [seekOk]
    by_cases hi : 1 ≤ pre.length
    · rw [if_pos (hvalid.mpr ⟨hi, hlen⟩), hpos.deref hm hget' hi, ok_bind, decide_eq_true hi]; rfl
    · rw [if_neg (fun h => hi (hvalid.mp h).1), decide_eq_false hi]; rfl
  obtain ⟨next, hnext, hposn⟩ := hpos.next hg
  obtain ⟨prev, hprev, hposp⟩ := hpos.prev hg
  rw [show min (pre.length + 1) (m.length + 1) = pre.length + 1 by omega] at hposn
  have hm_le : countLe m key = pre.length := by omega
  rw [seek, hseek, ok_bind, hok, ok_bind]
  by_cases hsame : 1 ≤ pre.length ∧ e.key = key
  · -- the key itself is bound
    obtain ⟨hi, hkey⟩ := hsame
    have hne : key ≠ [] := by
      rw [← hkey]
      cases pre with
      | nil => exact absurd hi (by simp)
      | cons r pre =>
          have hmem : (e.key, e.val) ∈ m := by rw [(List.cons.inj heq').2]; simp
          exact hm _ hmem
    rw [if_neg hne] at hslt
    rw [if_pos hkey] at hclt
    have hm_lt : countLt m key + 1 = pre.length := by omega
    have hv : BIter.valid ⟨path⟩ = true := hvalid.mpr ⟨hi, hlen⟩
    rw [decide_eq_true hi, hkey]
    cases cmp with
    | ge => exact ⟨_, by simp [cmpOk]; rfl, by rw [seekPos, hm_lt]; exact hpos⟩
    | gt => exact ⟨next, by simpa [cmpOk, CMP.positive] using hnext, by rw [seekPos, hm_le]; exact hposn⟩
    | lt =>
        refine ⟨prev, by simpa [cmpOk, CMP.positive, hv] using hprev, ?_⟩
        rw [seekPos, show countLt m key = pre.length - 1 by omega]
        exact hposp
    | le => exact ⟨_, by simp [cmpOk]; rfl, by rw [seekPos, hm_le]; exact hpos⟩
  · -- it is not: the position is the one below it
    have hm_lt : countLt m key = pre.length := by
      by_cases hi : 1 ≤ pre.length
      · have hkey : ¬ e.key = key := fun h => hsame ⟨hi, h⟩
        rw [if_neg hkey] at hclt
        have hne : key ≠ [] := fun h => hkey (by
          rw [h] at hle ⊢
          exact le_antisymm hle (Bytes.nil_le _))
        rw [if_neg hne] at hslt
        omega
      · have h0 : pre.length = 0 := by omega
        rw [h0] at hclt hcle ⊢
        by_cases hkey : key = []
        · rw [if_pos hkey] at hslt
          split at hclt
          · omega
          · rename_i hne
            rw [hkey] at hle hne
            exact absurd (le_antisymm hle (Bytes.nil_le _)) hne
        · rw [if_neg hkey] at hslt
          split at hclt <;> omega
    -- the key found is below, so only the comparisons downwards accept it
    have hcmp : ∀ c, c = CMP.ge ∨ c = CMP.gt →
        (decide (1 ≤ pre.length) && cmpOk e.key c key) = false := by
      intro c hc
      rcases hc with hc | hc
      · by_cases hi : 1 ≤ pre.length
        · have hlt : e.key < key := lt_of_le_of_ne hle fun h => hsame ⟨hi, h⟩
          simp [hc, cmpOk, not_le.mpr hlt]
        · simp [hi]
      · simp [hc, cmpOk, not_lt.mpr hle]
    have hstay : ∀ c, c = CMP.lt ∨ c = CMP.le →
        (decide (1 ≤ pre.length) && cmpOk e.key c key) = BIter.valid ⟨path⟩ := by
      intro c hc
      by_cases hi : 1 ≤ pre.length
      · have hlt : e.key < key := lt_of_le_of_ne hle fun h => hsame ⟨hi, h⟩
        rw [hvalid.mpr ⟨hi, hlen⟩, decide_eq_true hi]
        rcases hc with hc | hc <;> simp [hc, cmpOk, hlt, hle]
      · have hv : BIter.valid ⟨path⟩ = false := by
          rw [Bool.eq_false_iff]; exact fun h => hi (hvalid.mp h).1
        rw [hv]; simp [hi]
    cases cmp with
    | ge =>
        refine ⟨next, ?_, by rw [seekPos, hm_lt]; exact hposn⟩
        rw [hcmp .ge (Or.inl rfl)]; exact hnext
    | gt =>
        refine ⟨next, ?_, by rw [seekPos, hm_le]; exact hposn⟩
        rw [hcmp .gt (Or.inr rfl)]; exact hnext
    | lt =>
        refine ⟨⟨path⟩, ?_, by rw [seekPos, hm_lt]; exact hpos⟩
        rw [hstay .lt (Or.inl rfl)]
        cases BIter.valid ⟨path⟩ <;> rfl
    | le =>
        refine ⟨⟨path⟩, ?_, by rw [seekPos, hm_le]; exact hpos⟩
        rw [hstay .le (Or.inr rfl)]
        cases BIter.valid ⟨path⟩ <;> rfl

/-! ## Walks -/

/-- A step of an iterator. -/
inductive Move where
  | next
  | prev
deriving DecidableEq

def BIter.move (s : σ) (iter : BIter) : Move → Except Fault BIter
  | .next => iter.next s
  | .prev => iter.prev s

/-- The iterator after some steps, the first first. -/
def BIter.walk (s : σ) : BIter → List Move → Except Fault BIter
  | iter, [] => .ok iter
  | iter, move :: moves => do
      let iter ← iter.move s move
      iter.walk s moves

/-- What a caller is shown: the binding at the iterator, if it is valid. -/
def BIter.entry (iter : BIter) : Except Fault (Option (Bytes × Bytes)) :=
  if iter.valid then do
    let r ← iter.deref
    return some r
  else
    return none

/-- Seeks, steps and looks. -/
def BTree.walk (t : BTree σ) (key : Bytes) (cmp : CMP) (moves : List Move) :
    Except Fault (Option (Bytes × Bytes)) := do
  let iter ← t.seek key cmp
  let iter ← iter.walk t.pages moves
  iter.entry

/-- A step among `n` bindings, from 0 before the first to `n + 1` after the last. -/
def Move.apply (n i : Nat) : Move → Nat
  | .next => min (i + 1) (n + 1)
  | .prev => i - 1

/-- The binding at a position, counted from 1. -/
def bindingAt (m : Contents) (i : Nat) : Option (Bytes × Bytes) :=
  if i = 0 then none else m[i - 1]?

/-- The same walk on the bindings. -/
def walkOf (m : Contents) (key : Bytes) (cmp : CMP) (moves : List Move) : Option (Bytes × Bytes) :=
  bindingAt m (moves.foldl (Move.apply m.length) (seekPos m key cmp))

theorem AtPos.move {m : Contents} {iter : BIter} {i : Nat} (hg : Shows s g) (h : AtPos g m iter i)
    (move : Move) : ∃ iter', iter.move s move = .ok iter' ∧ AtPos g m iter' (move.apply m.length i) := by
  cases move with
  | next => exact h.next hg
  | prev => exact h.prev hg

theorem AtPos.walk {m : Contents} {iter : BIter} {i : Nat} (hg : Shows s g) (moves : List Move)
    (h : AtPos g m iter i) : ∃ iter', iter.walk s moves = .ok iter' ∧
      AtPos g m iter' (moves.foldl (Move.apply m.length) i) := by
  induction moves generalizing iter i with
  | nil => exact ⟨iter, rfl, h⟩
  | cons move moves ih =>
      obtain ⟨iter', hmove, h'⟩ := h.move hg move
      rw [BIter.walk, hmove]
      exact ih h'

theorem AtPos.entry {m : Contents} {iter : BIter} {i : Nat} (h : AtPos g m iter i)
    (hm : ∀ r ∈ m, r.1 ≠ []) : iter.entry = .ok (bindingAt m i) := by
  have hvalid := h.valid hm
  unfold BIter.entry bindingAt
  by_cases hv : 1 ≤ i ∧ i ≤ m.length
  · have hget : (([], []) :: m)[i]? = some m[i - 1] := by
      rw [List.getElem?_cons, if_neg (by omega), List.getElem?_eq_getElem (by omega)]
    rw [if_pos (hvalid.mpr hv), h.deref hm hget hv.1, if_neg (by omega),
      List.getElem?_eq_getElem (by omega)]
    rfl
  · rw [if_neg fun hit => hv (hvalid.mp hit)]
    by_cases h0 : i = 0
    · rw [if_pos h0]
      rfl
    · rw [if_neg h0, List.getElem?_eq_none (by omega)]
      rfl

/-- The tree reads as the bindings `m`: under every key, and along every walk. -/
structure BTree.ReadsAs (t : BTree σ) (m : Contents) : Prop where
  get : ∀ key, ValidKey key → t.get key = .ok (lookup m key)
  walk : ∀ key cmp moves, t.walk key cmp moves = .ok (walkOf m key cmp moves)

/-- **A tree reads as what it denotes.** -/
theorem BTree.readsAs {t : BTree σ} {m : Contents} {ps : Multiset Nat}
    (ht : TreeAt (PageManager.get t.pages) t.root m ps) (hps : ∀ p ∈ ps, p ≠ 0)
    (hcount : ps.card ≤ PageManager.pageCount t.pages) : t.ReadsAs m := by
  refine ⟨fun key hk => get_of_treeAt ht hcount hk, fun key cmp moves => ?_⟩
  obtain ⟨iter, hseek, hpos⟩ := seek_spec (shows_get t.pages) ht hps hcount key cmp
  obtain ⟨iter', hwalk, hpos'⟩ := hpos.walk (shows_get t.pages) moves
  rw [BTree.walk, hseek, ok_bind, hwalk, ok_bind, hpos'.entry ht.key_ne_nil]
  rfl

end SqlDb
