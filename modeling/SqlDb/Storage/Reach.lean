import SqlDb.Storage.TreeAt
import Mathlib.Data.List.Infix

/-!
# Pages reached from a root

The pages a tree owns are those its links lead to. Following links is what a reader
does, so this is what a page number means to it, and each page it comes to is itself
the root of a tree for a segment of the bindings.
-/

namespace SqlDb

open Outcome OrdMap

/-- `p` is a page of the tree at `root`: the root's own, or one that a node of the tree links to. -/
inductive Reaches (g : Nat → Except Fault BNode) (root : Nat) : Nat → Prop where
  | root : root ≠ 0 → Reaches g root root
  | kid {p i : Nat} {node : BNode} : Reaches g root p → g p = .ok node → node.btype = bnodeNode →
      i < node.nkeys → Reaches g root (node.getPtr i)

section Reaches

variable {g : Nat → Except Fault BNode}

/-- Nothing is reached from page 0. -/
theorem Reaches.root_ne {root p : Nat} (h : Reaches g root p) : root ≠ 0 := by
  induction h with
  | root h0 => exact h0
  | kid _ _ _ _ ih => exact ih

theorem Reaches.trans {a b c : Nat} (h : Reaches g a b) (h' : Reaches g b c) : Reaches g a c := by
  induction h' with
  | root _ => exact h
  | kid _ hg ht hi ih => exact .kid ih hg ht hi

theorem Reaches.mono {g' : Nat → Except Fault BNode} {root p : Nat}
    (hg : ∀ q node, g q = .ok node → g' q = .ok node) (h : Reaches g root p) : Reaches g' root p := by
  induction h with
  | root h0 => exact .root h0
  | kid _ hget ht hi ih => exact .kid ih (hg _ _ hget) ht hi

/-- A page that entries own is owned by one of them. -/
theorem Concat.mem_pages {R : Entry → Contents → Multiset Nat → Prop} {es : List Entry}
    {k : Contents} {ps : Multiset Nat} (h : Concat R es k ps) {p : Nat} (hp : p ∈ ps) :
    ∃ a e b k' ps', es = a ++ e :: b ∧ R e k' ps' ∧ ps' ≤ ps ∧ p ∈ ps' := by
  induction h with
  | nil => exact absurd hp (Multiset.notMem_zero p)
  | cons he _ ih =>
      rcases Multiset.mem_add.mp hp with hp | hp
      · exact ⟨[], _, _, _, _, rfl, he, Multiset.le_add_right _ _, hp⟩
      · obtain ⟨a, e, b, k', ps', hes, hR, hle, hp⟩ := ih hp
        exact ⟨_ :: a, e, b, k', ps', congrArg _ hes, hR, hle.trans (Multiset.le_add_left _ _), hp⟩

/-- What a node reads at a position: one of its entries, with a segment of its bindings. -/
theorem NodeAt.kid {h : Nat} {node : BNode} {es : List Entry} {kvs : Contents} {ps : Multiset Nat}
    (hn : NodeAt g h node es kvs ps) {i : Nat} (hi : i < node.nkeys) :
    ∃ e k' ps', (node.getPtr i = e.ptr ∧ node.getKey i = e.key ∧ node.getVal i = e.val) ∧
      EntryAt g h e k' ps' ∧ ps' ≤ ps ∧ k' <:+: kvs := by
  rw [hn.holds.nkeys] at hi
  have hes : es = es.take i ++ es[i] :: es.drop (i + 1) := by
    rw [List.getElem_cons_drop, List.take_append_drop]
  have hholds := hn.holds
  have hconcat := hn.concat
  rw [hes] at hholds hconcat
  obtain ⟨ka, ke, kb, pa, pe, pb, hkvs, hps, _, he, _⟩ := concat_split.mp hconcat
  have hptr := hholds.getPtr
  have hkey := hholds.getKey
  have hval := hholds.getVal
  rw [List.length_take, Nat.min_eq_left (le_of_lt hi)] at hptr hkey hval
  refine ⟨_, ke, pe, ⟨hptr, hkey, hval⟩, he, ?_, ka, kb, hkvs.symm⟩
  rw [hps, add_assoc]
  exact (Multiset.le_add_right _ _).trans (Multiset.le_add_left _ _)

/-- The pages a link owns are reached from it. -/
theorem EntryAt.reaches : ∀ {h : Nat} {e : Entry} {kvs : Contents} {ps : Multiset Nat},
    EntryAt g (h + 1) e kvs ps → (∀ q ∈ ps, q ≠ 0) → ∀ p ∈ ps, Reaches g e.ptr p
  | h, e, kvs, ps, he, hne, p, hp => by
      obtain ⟨_, node, es, ps', hget, hn, _, _, hps⟩ := entryAt_succ.mp he
      have hroot : Reaches g e.ptr e.ptr := .root (hne _ (by rw [hps]; exact Multiset.mem_cons_self _ _))
      rw [hps] at hp
      rcases Multiset.mem_cons.mp hp with hp | hp
      · rw [hp]
        exact hroot
      · obtain ⟨a, x, b, k', px, hes, hR, hle, hpx⟩ := hn.concat.mem_pages hp
        cases h with
        | zero =>
            -- a leaf owns no more than itself
            obtain ⟨_, _, h0⟩ := entryAt_zero.mp hR
            rw [h0] at hpx
            exact absurd hpx (Multiset.notMem_zero p)
        | succ h =>
            have hholds := hn.holds
            rw [hes] at hholds
            have hkid : Reaches g e.ptr x.ptr := by
              rw [← hholds.getPtr]
              refine .kid hroot hget hn.btype_succ ?_
              rw [hholds.nkeys]
              simp
            refine hkid.trans (EntryAt.reaches hR (fun q hq => hne q ?_) p hpx)
            rw [hps]
            exact Multiset.mem_cons_of_mem (Multiset.mem_of_le hle hq)

/-- What is reached from a link is a link again, and its pages and bindings are the first one's. -/
theorem EntryAt.of_reaches {h : Nat} {e : Entry} {kvs : Contents} {ps : Multiset Nat}
    (he : EntryAt g (h + 1) e kvs ps) {p : Nat} (hp : Reaches g e.ptr p) :
    ∃ h' e' k' ps', EntryAt g (h' + 1) e' k' ps' ∧ e'.ptr = p ∧ ps' ≤ ps ∧ k' <:+: kvs := by
  induction hp with
  | root _ => exact ⟨h, e, kvs, ps, he, rfl, le_refl _, List.infix_rfl⟩
  | @kid p i node _ hget ht hi ih =>
      obtain ⟨h', e', k', ps', he', hptr, hle, hin⟩ := ih
      obtain ⟨_, node', es, pk, hget', hn, _, _, hps⟩ := entryAt_succ.mp he'
      rw [hptr, hget, Except.ok.injEq] at hget'
      rw [← hget'] at hn
      obtain ⟨x, kx, px, hx, hR, hlex, hinx⟩ := hn.kid hi
      cases h' with
      | zero => exact absurd (ht.symm.trans hn.btype_zero) bnodeNode_ne_leaf
      | succ h' =>
          refine ⟨h', x, kx, px, hR, hx.1.symm, hlex.trans ?_, hinx.trans hin⟩
          rw [hps] at hle
          exact (Multiset.le_cons_self _ _).trans hle

/-- **A tree's pages are those reached from its root.** -/
theorem TreeAt.mem_iff_reaches {root : Nat} {m : Contents} {ps : Multiset Nat}
    (h : TreeAt g root m ps) (hne : ∀ q ∈ ps, q ≠ 0) {p : Nat} : p ∈ ps ↔ Reaches g root p := by
  rcases h with ⟨h0, _, hps⟩ | ⟨_, _, n, he⟩
  · rw [hps, h0]
    exact ⟨fun hp => absurd hp (Multiset.notMem_zero p), fun hp => absurd rfl hp.root_ne⟩
  · constructor
    · exact he.reaches hne p
    · intro hp
      obtain ⟨h', e', k', ps', he', hptr, hle, _⟩ := he.of_reaches hp
      obtain ⟨_, _, _, _, _, _, _, _, hps⟩ := entryAt_succ.mp he'
      refine Multiset.mem_of_le hle ?_
      rw [hps, hptr]
      exact Multiset.mem_cons_self _ _

end Reaches

end SqlDb
