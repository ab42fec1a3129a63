import SqlDb.Base.Follow
import SqlDb.Storage.FreeListProof

/-!
# Two lists in step

The queue a list stands for decides what the list does: which pages it gives out, which it
takes for its nodes, and where its counters go. Two lists that hold the same items in the
same nodes stay so under the same calls, whatever the rest of their pages holds.
-/

namespace SqlDb

open Outcome

namespace FreeList

variable {σ : Type} [FreeListPages σ] {J K : σ → Multiset Nat → Prop} {D : σ → Nat → Prop}
  {E : Fault → Prop} {R : σ → σ → Prop}

/-- Two lists with the same items in the same nodes. What else their pages hold may differ. -/
structure InStep (fl fl' : FreeList σ) (nodes : List Nat) (items : List Item) (used : Nat) :
    Prop where
  left : fl.Queue nodes items used
  right : fl'.Queue nodes items used
  state : fl'.state = fl.state
  version : fl'.version = fl.version
  reader : fl'.minReader = fl.minReader

/-- The two stores have the pages `M`, and `R` relates them. -/
structure Both (J : σ → Multiset Nat → Prop) (R : σ → σ → Prop) (s s' : σ) (M : Multiset Nat) :
    Prop where
  left : J s M
  right : J s' M
  rel : R s s'

end FreeList

/-- `R` relates stores that append the same pages. -/
structure PairLaw {σ : Type} [FreeListPages σ] (R : σ → σ → Prop) : Prop where
  write : ∀ {s t s' t' p f g}, R s t → FreeListPages.writePage s p f = .ok s' →
    FreeListPages.writePage t p g = .ok t' → R s' t'
  append : ∀ {s t}, R s t → Alike (fun r r' => r'.1 = r.1 ∧ R r.2 r'.2)
    (FreeListPages.appendPage s) (FreeListPages.appendPage t)

namespace FreeList

variable {σ : Type} [FreeListPages σ] {J K : σ → Multiset Nat → Prop} {D : σ → Nat → Prop}
  {E : Fault → Prop} {R : σ → σ → Prop} {fl fl' : FreeList σ} {nodes : List Nat}
  {items : List Item} {used ptr : Nat} {M : Multiset Nat}

/-! ## One step of each -/

/-- The item is written whether or not the counter overflows then. -/
theorem appendItem_eq (ptr : Nat) (hL : PagesLaw J D) (h : fl.Queue nodes items used)
    (hJ : J fl.pages M) (hsub : ∀ p ∈ nodes, p ∈ M) :
    ∃ f s', FreeListPages.writePage fl.pages fl.state.tailPage f = .ok s' ∧
      fl.appendItem ptr = (do
        require (fl.state.tailSeq + 1 < 2 ^ 64) .overflow
        return { fl with pages := s', state :=
          { fl.state with tailSeq := fl.state.tailSeq + 1 } }) := by
  obtain ⟨page, hpage, hlen⟩ := h.chain.tail h.tail
  obtain ⟨s', hwrite, _⟩ := hL.write
    (f := fun node => putSlot node (seqToIdx fl.state.tailSeq) ptr fl.version) hJ
    (hsub _ h.tail_mem) hpage hlen (by rw [length_putSlot, hlen])
  refine ⟨_, s', hwrite, ?_⟩
  show (do
    let pages ← FreeListPages.writePage fl.pages fl.state.tailPage fun node =>
      putSlot node (seqToIdx fl.state.tailSeq) ptr fl.version
    require (fl.state.tailSeq + 1 < 2 ^ 64) .overflow
    return { fl with pages := pages, state :=
      { fl.state with tailSeq := fl.state.tailSeq + 1 } }) = _
  rw [hwrite, ok_bind]

theorem appendItem_inStep (hL : PagesLaw J D) (hR : PairLaw R) (h : InStep fl fl' nodes items used)
    (hJ : Both J R fl.pages fl'.pages M) (hsub : ∀ p ∈ nodes, p ∈ M) (hnd : nodes.Nodup)
    (hused : used < freeListCap) (hp : ptr < 2 ^ 64) :
    Alike (fun a b => InStep a b nodes (items ++ [(ptr, fl.version)]) (used + 1) ∧
        Both J R a.pages b.pages M ∧ a.version = fl.version ∧ a.minReader = fl.minReader)
      (fl.appendItem ptr) (fl'.appendItem ptr) := by
  obtain ⟨f, s, hw, heq⟩ := appendItem_eq ptr hL h.left hJ.left hsub
  obtain ⟨f', s', hw', heq'⟩ := appendItem_eq ptr hL h.right hJ.right hsub
  rw [h.state] at hw' heq'
  have hrel := hR.write hJ.rel hw hw'
  by_cases hb : fl.state.tailSeq + 1 < 2 ^ 64
  · obtain ⟨a, ha, s1, rfl, hq, hJ1, _⟩ := (appendItem_spec (E := fun _ => False) hL h.left hJ.left
      hsub hnd hused hp (Or.inl hb)).exists_ok fun _ hf => hf
    obtain ⟨b, hb', s2, rfl, hq', hJ2, _⟩ := (appendItem_spec (E := fun _ => False) hL h.right
      hJ.right hsub hnd hused hp (Or.inl (h.state ▸ hb))).exists_ok fun _ hf => hf
    rw [ha, require_pos hb, ok_bind] at heq
    rw [hb', require_pos hb, ok_bind] at heq'
    have h1 := congrArg FreeList.pages (Except.ok.inj heq)
    have h2 := congrArg FreeList.pages (Except.ok.inj heq')
    dsimp only at h1 h2
    rw [ha, hb']
    have hitems : items ++ [(ptr, fl'.version)] = items ++ [(ptr, fl.version)] := by rw [h.version]
    refine ⟨⟨hq, hitems ▸ hq', ?_, h.version, h.reader⟩, ⟨hJ1, hJ2, by rw [h1, h2]; exact hrel⟩, rfl, rfl⟩
    dsimp only
    rw [h.state]
  · rw [heq, heq', require_neg hb]
    exact .error _

/-- `pop` does the same in both. -/
theorem pop_inStep (h : InStep fl fl' nodes items used) (hnz : ∀ p ∈ nodes, p ≠ 0)
    (hkeep : ∀ it, items = [it] → ¬ it.2 < fl.minReader ∨ used < freeListCap) :
    (Blocked fl.minReader items ∧ fl.pop = .ok ({}, fl) ∧ fl'.pop = .ok ({}, fl')) ∨
    ∃ it rest, items = it :: rest ∧ it.2 < fl.minReader ∧
      fl.pop = .ok (⟨it.1, drainedBy fl.state⟩,
        { fl with state := popState fl.state (nodesLeft fl.state.headSeq nodes) }) ∧
      fl'.pop = .ok (⟨it.1, drainedBy fl.state⟩,
        { fl' with state := popState fl.state (nodesLeft fl.state.headSeq nodes) }) ∧
      InStep { fl with state := popState fl.state (nodesLeft fl.state.headSeq nodes) }
        { fl' with state := popState fl.state (nodesLeft fl.state.headSeq nodes) }
        (nodesLeft fl.state.headSeq nodes) rest used := by
  by_cases hb : Blocked fl.minReader items
  · exact Or.inl ⟨hb, pop_blocked h.left hb, pop_blocked h.right (by rw [h.reader]; exact hb)⟩
  · obtain ⟨it, rest, rfl, hold⟩ := exists_of_not_blocked hb
    have hkeep' : rest ≠ [] ∨ used < freeListCap := by
      by_cases hr : rest = []
      · exact Or.inr ((hkeep it (by rw [hr])).resolve_left fun hn => hn hold)
      · exact Or.inl hr
    obtain ⟨hpop, hq⟩ := pop_item h.left hold hnz hkeep'
    obtain ⟨hpop', hq'⟩ := pop_item h.right (by rw [h.reader]; exact hold) hnz hkeep'
    rw [h.state] at hpop' hq'
    exact Or.inr ⟨it, rest, rfl, hold, hpop, hpop', hq, hq', rfl, h.version, h.reader⟩

theorem link_inStep {next : Nat} (hL : PagesLaw J D) (hR : PairLaw R)
    (h : InStep fl fl' nodes items used) (hused : used = freeListCap)
    (hJ : Both J R fl.pages fl'.pages M) (hsub : ∀ p ∈ nodes, p ∈ M) (hnd : nodes.Nodup)
    (hnext : next ∈ M) (hnew : next ∉ nodes) :
    ∃ s s', (FreeListPages.writePage fl.pages fl.state.tailPage fun node =>
        LNode.setNext node next) = .ok s ∧
      (FreeListPages.writePage fl'.pages fl'.state.tailPage fun node =>
        LNode.setNext node next) = .ok s' ∧
      InStep { fl with pages := s, state := { fl.state with tailPage := next } }
        { fl' with pages := s', state := { fl'.state with tailPage := next } }
        (nodes ++ [next]) items 0 ∧ Both J R s s' M := by
  obtain ⟨s, hw, hq, hJ1, _⟩ := link_spec hL h.left hused hJ.left hsub hnd hnext hnew
  obtain ⟨s', hw', hq', hJ2, _⟩ := link_spec hL h.right hused hJ.right hsub hnd hnext hnew
  have hw2 := hw'
  rw [h.state] at hw2
  refine ⟨s, s', hw, hw', ⟨hq, hq', ?_, h.version, h.reader⟩, hJ1, hJ2, hR.write hJ.rel hw hw2⟩
  dsimp only
  rw [h.state]

/-! ## The calls -/

/-- The same pages handed over, and the same items and nodes. -/
def StillInStep (R : σ → σ → Prop) (fl fl' : FreeList σ) : Prop :=
  R fl.pages fl'.pages ∧ ∃ nodes items used, used < freeListCap ∧ InStep fl fl' nodes items used

/-- What follows the pop of a push that filled the tail. -/
def relink (fl : FreeList σ) (popped : Popped) : Except Fault (FreeList σ) := do
  let (next, fl) ← fl.nextNode popped
  let pages ← FreeListPages.writePage fl.pages fl.state.tailPage fun node =>
    LNode.setNext node next
  let fl := { fl with pages := pages, state := { fl.state with tailPage := next } }
  if popped.drainedHead ≠ 0 then
    fl.appendItem popped.drainedHead
  else
    return fl

/-- Both append a page for the new tail. -/
theorem relink_append (hL : LawfulListPages J K D E) (hR : PairLaw R)
    (h : InStep fl fl' nodes items freeListCap) (hJ : Both J R fl.pages fl'.pages M)
    (hsub : ∀ p ∈ nodes, p ∈ M) (hnd : nodes.Nodup) :
    Alike (StillInStep R) (fl.relink {}) (fl'.relink {}) := by
  unfold relink nextNode
  rw [if_neg (by simp), if_neg (by simp), bind_assoc, bind_assoc]
  refine ((hR.append hJ.rel).and (hL.append hJ.left) (hL.append hJ.right)).bind ?_
  rintro ⟨p, s⟩ ⟨p', s'⟩ hpages
  obtain ⟨⟨rfl, hrel⟩, ⟨hJ1, hread, _⟩, ⟨hJ2, hread', _⟩⟩ := hpages
  dsimp only at hrel hJ1 hread hJ2 hread'
  have hfresh : p' ∉ M := (Multiset.nodup_cons.mp (hL.after.nodup hJ1)).1
  have hne : ∀ q ∈ nodes, q ≠ p' := fun q hq he => hfresh (he ▸ hsub q hq)
  have h1 : InStep { fl with pages := s } { fl' with pages := s' } nodes items freeListCap :=
    ⟨⟨h.left.chain.congr fun q hq => hread q (hne q hq), h.left.head, h.left.tail, h.left.seq,
        h.left.bound, h.left.freed, h.left.version, h.left.reader⟩,
      ⟨h.right.chain.congr fun q hq => hread' q (hne q hq), h.right.head, h.right.tail,
        h.right.seq, h.right.bound, h.right.freed, h.right.version, h.right.reader⟩,
      h.state, h.version, h.reader⟩
  obtain ⟨s1, s2, hw, hw', h2, hJ'⟩ := link_inStep hL.after hR h1 rfl ⟨hJ1, hJ2, hrel⟩
    (fun q hq => Multiset.mem_cons_of_mem (hsub q hq)) hnd (Multiset.mem_cons_self p' M)
    fun hp => hfresh (hsub p' hp)
  rw [pure_bind, pure_bind]
  dsimp only at hw hw' ⊢
  rw [hw, hw', ok_bind, ok_bind, if_neg (by simp), if_neg (by simp)]
  exact ⟨hJ'.rel, nodes ++ [p'], items, 0, by decide, h2⟩

/-- Both take the page for the new tail from the list. -/
theorem relink_popped {it : Item} {drained : Nat} (hL : LawfulListPages J K D E) (hR : PairLaw R)
    (h : InStep fl fl' nodes items freeListCap) (hJ : Both J R fl.pages fl'.pages M)
    (hsub : ∀ p ∈ nodes, p ∈ M) (hnd : nodes.Nodup) (hit : it.1 ∈ M) (hnew : it.1 ∉ nodes)
    (hdrained : drained ≠ 0 → drained ∈ M) :
    Alike (StillInStep R) (fl.relink ⟨it.1, drained⟩) (fl'.relink ⟨it.1, drained⟩) := by
  unfold relink nextNode
  rw [if_pos (hL.before.ptr hJ.left _ hit).1, if_pos (hL.before.ptr hJ.left _ hit).1, pure_bind,
    pure_bind]
  obtain ⟨s1, s2, hw, hw', h2, hJ'⟩ := link_inStep hL.before hR h rfl hJ hsub hnd hit hnew
  dsimp only
  rw [hw, hw', ok_bind, ok_bind]
  by_cases hz : drained = 0
  · rw [if_neg (by simpa using hz), if_neg (by simpa using hz)]
    exact ⟨hJ'.rel, nodes ++ [it.1], items, 0, by decide, h2⟩
  · rw [if_pos hz, if_pos hz]
    have hndn : (nodes ++ [it.1]).Nodup :=
      List.nodup_append.mpr ⟨hnd, List.nodup_singleton _, fun a ha b hb => by
        rw [List.mem_singleton.mp hb]
        exact fun hab => hnew (hab ▸ ha)⟩
    have hsubn : ∀ p ∈ nodes ++ [it.1], p ∈ M := by
      intro p hp
      rcases List.mem_append.mp hp with hp | hp
      · exact hsub p hp
      · rw [List.mem_singleton.mp hp]
        exact hit
    refine (appendItem_inStep hL.before hR h2 hJ' hsubn hndn (by decide)
      (hL.before.ptr hJ.left _ (hdrained hz)).2).imp ?_
    intro a b hab
    exact ⟨hab.2.1.rel, _, _, 1, by decide, hab.1⟩

/-- **Pushing** does the same to both. -/
theorem pushTail_inStep {W : Multiset Nat} (hL : LawfulListPages J K D E) (hR : PairLaw R)
    (h : InStep fl fl' nodes items used) (hused : used < freeListCap)
    (hJ : Both J R fl.pages fl'.pages (listPages nodes items + (ptr ::ₘ W))) :
    Alike (StillInStep R) (fl.pushTail ptr) (fl'.pushTail ptr) := by
  have hnodup := hL.before.nodup hJ.left
  have hnd := nodup_nodes hnodup
  have hptr := hL.before.ptr hJ.left ptr (by simp)
  have hver : versionBefore fl.version fl.minReader = false := by
    have h1 := h.left.version
    have h2 := h.left.reader
    rw [versionBefore_iff h1 (by omega), decide_eq_false (by omega)]
  unfold pushTail
  rw [h.version, h.reader, require_pos hptr.1, ok_bind, ok_bind, require_pos hver, ok_bind, ok_bind]
  refine (appendItem_inStep hL.before hR h hJ (fun p hp => mem_of_node hp) hnd hused hptr.2).bind ?_
  intro a b hab
  obtain ⟨h1, hJ1, hv, hm⟩ := hab
  rw [h1.state, h1.left.idx]
  by_cases hfull : used + 1 = freeListCap
  · -- the tail is full
    rw [if_neg (by rw [hfull, Nat.mod_self]; simp), if_neg (by rw [hfull, Nat.mod_self]; simp)]
    rw [hfull, ← hv] at h1
    rw [listPages_push nodes items W ptr a.version] at hJ1
    have hnodup1 := hL.before.nodup hJ1.left
    have hnz : ∀ p ∈ nodes, p ≠ 0 := fun p hp => (hL.before.ptr hJ1.left p (mem_of_node hp)).1
    have hkeep : ∀ it, items ++ [(ptr, a.version)] = [it] →
        ¬ it.2 < a.minReader ∨ freeListCap < freeListCap := by
      intro it hit
      have hlast := congrArg List.getLast? hit
      rw [List.getLast?_append, List.getLast?_singleton, List.getLast?_singleton] at hlast
      have hr := h1.left.reader
      rw [← Option.some.inj hlast]
      exact Or.inl (by simpa using hr)
    -- both lists append a page, or both reuse the same one
    rcases pop_inStep h1 hnz hkeep with ⟨_, hpop, hpop'⟩ | ⟨it, rest, hitems, _, hpop, hpop', h2⟩
    · rw [hpop, hpop', ok_bind, ok_bind]
      exact relink_append hL hR h1 hJ1 (fun p hp => mem_of_node hp) hnd
    · rw [hpop, hpop', ok_bind, ok_bind]
      have hsub : ∀ p ∈ nodesLeft a.state.headSeq nodes, p ∈ nodes := by
        intro p hp
        unfold nodesLeft at hp
        split at hp
        · exact List.mem_of_mem_tail hp
        · exact hp
      have hit : it ∈ items ++ [(ptr, a.version)] := by
        rw [hitems]
        exact List.mem_cons_self
      refine relink_popped hL hR h2 hJ1 (fun p hp => mem_of_node (hsub p hp)) ?_ (mem_of_item hit)
        (fun hp => item_not_node hnodup1 hit (hsub _ hp)) fun hz => ?_
      · unfold nodesLeft
        split
        · exact hnd.tail
        · exact hnd
      · by_cases hidx : seqToIdx (a.state.headSeq + 1) = 0
        · rw [drainedBy, if_pos hidx]
          exact mem_of_node (List.mem_of_mem_head? h1.left.head)
        · exact absurd (if_neg hidx) hz
  · rw [if_pos (by rw [Nat.mod_eq_of_lt (by omega)]; omega),
      if_pos (by rw [Nat.mod_eq_of_lt (by omega)]; omega)]
    exact ⟨hJ1.rel, _, _, used + 1, by omega, h1⟩

/-- **Popping** does the same to both, and gives out the same page. -/
theorem popHead_inStep {W : Multiset Nat} (hL : LawfulListPages J K D E) (hR : PairLaw R)
    (h : InStep fl fl' nodes items used) (hused : used < freeListCap)
    (hJ : Both J R fl.pages fl'.pages (listPages nodes items + W)) :
    Alike (fun r r' => r'.1 = r.1 ∧ StillInStep R r.2 r'.2) fl.popHead fl'.popHead := by
  have hnz : ∀ p ∈ nodes, p ≠ 0 := fun p hp => (hL.before.ptr hJ.left p (mem_of_node hp)).1
  unfold popHead
  rcases pop_inStep h hnz fun _ _ => Or.inr hused with
    ⟨_, hpop, hpop'⟩ | ⟨it, rest, hitems, _, hpop, hpop', h1⟩
  · rw [hpop, hpop', ok_bind, ok_bind]
    exact ⟨rfl, hJ.rel, nodes, items, used, hused, h⟩
  · rw [hpop, hpop', ok_bind, ok_bind]
    dsimp only
    rw [hitems, listPages_take] at hJ
    by_cases hidx : seqToIdx (fl.state.headSeq + 1) = 0
    · -- the drained node is pushed
      obtain ⟨ps, hps⟩ := List.head?_eq_some_iff.mp h.left.head
      have hleft : nodesLeft fl.state.headSeq nodes = ps := by
        rw [nodesLeft, if_pos hidx, hps, List.tail_cons]
      have hdrained : drainedBy fl.state = fl.state.headPage := if_pos hidx
      have hz : fl.state.headPage ≠ 0 := hnz _ (by rw [hps]; exact List.mem_cons_self)
      rw [hdrained, if_pos hz, if_pos hz, hleft]
      rw [hleft] at h1
      rw [hps, listPages_drain] at hJ
      refine (pushTail_inStep hL hR h1 hused hJ).bind ?_
      intro a b hab
      exact ⟨rfl, hab⟩
    · have hleft : nodesLeft fl.state.headSeq nodes = nodes := if_neg hidx
      have hdrained : drainedBy fl.state = 0 := if_neg hidx
      rw [hdrained, if_neg (by simp), if_neg (by simp)]
      exact ⟨rfl, hJ.rel, _, rest, used, hused, h1⟩

end FreeList

end SqlDb
