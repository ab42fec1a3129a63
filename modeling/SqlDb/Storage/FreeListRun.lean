import SqlDb.Storage.FreeListProof

/-!
# Any sequence of pushes and pops

The list among owners who do what they like. Between two calls the pages the list
has given out, and every other page it is not stored in, are overwritten; the
version rises, the oldest reader is chosen anew, and so is the page `append_page`
would return next. Through all of this the list is a queue gated by version, and
no page it ever received gets lost or gets a second owner.
-/

namespace SqlDb

open Outcome FreeList

/-! ## What one operation conserves -/

section Conserve

variable {σ : Type} [FreeListPages σ] {D : σ → Nat → Prop} {fl fl' : FreeList σ}
  {nodes nodes' : List Nat} {items items' app out : List Item} {used : Nat} {new drained : List Nat}

/-- **Pages are conserved.** The pages received are the list's own, those it received and no more
besides a page it had appended; none but the ones given out leave it. -/
theorem FreeList.Turn.conserve {ps : List Nat} {M : Multiset Nat} {ret : List Nat}
    {inner : List Item}
    (ht : Turn D fl fl' nodes nodes' items items' used (freedAt fl.version (ps ++ drained)) out new
      drained)
    (hout : out.map Prod.fst = ret ++ inner.map Prod.fst) (hnew : NewNodes M inner new) :
    listPages nodes items + (ps : Multiset Nat) ≤ listPages nodes' items' + (ret : Multiset Nat) := by
  have h1 : (nodes : Multiset Nat) + (new : Multiset Nat) = drained + nodes' := by
    rw [Multiset.coe_add, Multiset.coe_add, ht.chain]
  have h2 : (items.map Prod.fst : Multiset Nat) + (ps + drained) =
      ret + (inner.map Prod.fst : Multiset Nat) + (items'.map Prod.fst : Multiset Nat) := by
    have := congrArg (List.map Prod.fst) ht.fifo
    rw [List.map_append, List.map_append, hout, map_fst_freedAt] at this
    rw [Multiset.coe_add, Multiset.coe_add, Multiset.coe_add, Multiset.coe_add, this]
  have hsum : listPages nodes items + ps + new + drained =
      listPages nodes' items' + ret + (inner.map Prod.fst : Multiset Nat) + drained := by
    have h3 : listPages nodes items + ps + new + drained =
        ((nodes : Multiset Nat) + new) + ((items.map Prod.fst : Multiset Nat) + (ps + drained)) := by
      unfold listPages
      abel
    rw [h3, h1, h2]
    unfold listPages
    abel
  have hsum' := add_right_cancel hsum
  rcases hnew with hnew | ⟨hinner, p, hnew, _⟩
  · rw [hnew] at hsum'
    exact le_of_eq (add_right_cancel hsum')
  · rw [hinner, List.map_nil, Multiset.coe_nil, add_zero] at hsum'
    rw [← hsum']
    exact Multiset.le_add_right _ _

end Conserve

/-! ## The owners around the list -/

/-- The pages, and the one `append_page` is to return next. -/
structure ListMemory where
  mem : Nat → Bytes
  fresh : Option Nat

/-- The pages with one of them overwritten. -/
def ListMemory.put (s : ListMemory) (p : Nat) (page : Bytes) : Nat → Bytes :=
  fun q => if q = p then page else s.mem q

def ListMemory.append (s : ListMemory) : Except Fault (Nat × ListMemory) :=
  match s.fresh with
  | none => .error .diverges
  | some p => .ok (p, ⟨s.put p (List.replicate btreePageSize 0), none⟩)

instance : FreeListPages ListMemory where
  readPage s p := .ok (s.mem p)
  writePage s p f := .ok { s with mem := s.put p (f (s.mem p)) }
  appendPage s := s.append

inductive ListOp where
  | push (ptr : Nat)
  | pop

/-- The pages an operation hands to the list. -/
def ListOp.given : ListOp → List Nat
  | .push ptr => [ptr]
  | .pop => []

def ListOp.call (fl : FreeList ListMemory) : ListOp → Except Fault (Nat × FreeList ListMemory)
  | .push ptr => do
      let fl ← fl.pushTail ptr
      return (0, fl)
  | .pop => fl.popHead

/-- The page a call handed out, if any. -/
def handed (ret : Nat) : List Nat := if ret = 0 then [] else [ret]

/-- A call, and all that is chosen before it: the versions, the page to append, and what the pages
hold after their owners wrote to them. -/
structure ListTurn where
  op : ListOp
  version : Nat
  minReader : Nat
  fresh : Nat
  mem : Nat → Bytes

/-- The list, the pages handed out and not given back, and the history: every page pushed, every
item appended and every item taken, in order. -/
structure ListWorld where
  list : FreeList ListMemory
  out : List Nat := []
  given : List Nat := []
  appended : List Item := []
  taken : List Item := []

namespace ListWorld

/-- Every page the list owns or has handed out. -/
def owned (w : ListWorld) : List Nat := w.list.nodes ++ w.list.items.map Prod.fst ++ w.out

/-- The list as the call finds it. -/
def before (w : ListWorld) (t : ListTurn) : FreeList ListMemory :=
  ⟨⟨t.mem, some t.fresh⟩, w.list.state, t.version, t.minReader⟩

/-- The pages handed out before that a turn does not push. -/
def kept (w : ListWorld) (t : ListTurn) : List Nat := w.out.filter fun p => p ∉ t.op.given

/-- One turn. The counters say how many items were taken; the rest of the items it ends with are
the ones appended. -/
def turn (w : ListWorld) (t : ListTurn) : Except Fault (Nat × ListWorld) := do
  let before := w.before t
  let (ret, list) ← t.op.call before
  let count := list.state.headSeq - before.state.headSeq
  return (ret, {
    list := list
    out := handed ret ++ w.kept t
    given := t.op.given ++ w.given
    appended := w.appended ++ list.items.drop (before.items.length - count)
    taken := w.taken ++ before.items.take count })

def run (w : ListWorld) : List ListTurn → Except Fault ListWorld
  | [] => .ok w
  | t :: turns => do
      let (_, w) ← w.turn t
      run w turns

/-- One empty node, and nothing handed out. -/
structure Initial (w : ListWorld) : Prop where
  page : w.list.state.headPage ≠ 0 ∧ w.list.state.headPage < 2 ^ 64
  state : w.list.state = ⟨w.list.state.headPage, 0, w.list.state.headPage, 0⟩
  mem : ∀ p, (w.list.pages.mem p).length = btreePageSize
  version : w.list.version < 2 ^ 63
  reader : w.list.minReader ≤ w.list.version
  ghost : w.out = [] ∧ w.given = [] ∧ w.appended = [] ∧ w.taken = []

/-- What may be chosen: versions that never fall, a reader not past the version, a page to append
that nobody owns, anything in the pages except the list's own nodes, and a page to push that is
not the list's. -/
structure Allowed (w : ListWorld) (t : ListTurn) : Prop where
  version : w.list.version ≤ t.version ∧ t.version < 2 ^ 63
  reader : t.minReader ≤ t.version
  fresh : t.fresh ≠ 0 ∧ t.fresh < 2 ^ 64 ∧ t.fresh ∉ w.owned ∧ t.fresh ∉ t.op.given
  mem : ∀ p, (t.mem p).length = btreePageSize
  nodes : ∀ p ∈ w.list.nodes, t.mem p = w.list.pages.mem p
  push : ∀ p ∈ t.op.given, p ≠ 0 ∧ p < 2 ^ 64 ∧
    p ∉ w.list.nodes ++ w.list.items.map Prod.fst

/-- Every turn is allowed when it comes. -/
def Allows (w : ListWorld) : List ListTurn → Prop
  | [] => True
  | t :: turns => w.Allowed t ∧ ∀ ret w', w.turn t = .ok (ret, w') → Allows w' turns

end ListWorld

/-! ## Laws of the pages -/

/-- The pages exist below `N`, each a page long. -/
structure ListMemory.Exists (N : Nat) (s : ListMemory) (M : Multiset Nat) : Prop where
  limit : N ≤ 2 ^ 64
  nodup : M.Nodup
  ptr : ∀ p ∈ M, p ≠ 0 ∧ p < N
  mem : ∀ p, (s.mem p).length = btreePageSize

/-- And one more may be appended. -/
def ListMemory.Appendable (N : Nat) (s : ListMemory) (M : Multiset Nat) : Prop :=
  s.Exists N M ∧ ∃ p, s.fresh = some p ∧ p ∉ M ∧ p ≠ 0 ∧ p < N

theorem ListMemory.length_put {s : ListMemory} {p : Nat} {page : Bytes}
    (hmem : ∀ q, (s.mem q).length = btreePageSize) (hpage : page.length = btreePageSize) (q : Nat) :
    (s.put p page q).length = btreePageSize := by
  unfold put
  by_cases hq : q = p
  · rw [if_pos hq]; exact hpage
  · rw [if_neg hq]; exact hmem q

theorem ListMemory.exists_law (N : Nat) : PagesLaw (ListMemory.Exists N) fun _ _ => True where
  nodup h := h.nodup
  ptr h p hp := ⟨(h.ptr p hp).1, lt_of_lt_of_le (h.ptr p hp).2 h.limit⟩
  read {s M p} h _ := ⟨s.mem p, rfl, h.mem p⟩
  write {s M p page f} h _ hpage hlen hf := by
    obtain rfl : s.mem p = page := Except.ok.inj hpage
    exact ⟨_, rfl, ⟨h.limit, h.nodup, h.ptr, length_put h.mem hf⟩, congrArg Except.ok (if_pos rfl),
      fun q hq => congrArg Except.ok (if_neg hq), fun _ _ => Or.inl trivial⟩

theorem ListMemory.appendable_law (N : Nat) : PagesLaw (ListMemory.Appendable N) fun _ _ => True where
  nodup h := h.1.nodup
  ptr h := (exists_law N).ptr h.1
  read h := (exists_law N).read h.1
  write h hp hpage hlen hf := by
    obtain ⟨s', hw, hJ, hrest⟩ := (exists_law N).write h.1 hp hpage hlen hf
    refine ⟨s', hw, ⟨hJ, ?_⟩, hrest⟩
    obtain rfl := Except.ok.inj hw
    exact h.2

/-- **One append is always possible.** -/
theorem ListMemory.lawful (N : Nat) : LawfulListPages (ListMemory.Appendable N)
    (ListMemory.Exists N) (fun _ _ => True) (fun _ => False) where
  before := appendable_law N
  after := exists_law N
  weaken h := h.1
  append {s M} h := by
    obtain ⟨hs, p, hp, hM, hne, hlt⟩ := h
    have happend : FreeListPages.appendPage s =
        Except.ok (p, ⟨s.put p (List.replicate btreePageSize 0), none⟩) := by
      show s.append = _
      rw [ListMemory.append, hp]
    rw [happend]
    refine ⟨⟨hs.limit, Multiset.nodup_cons.mpr ⟨hM, hs.nodup⟩, fun q hq => ?_,
      length_put hs.mem List.length_replicate⟩, fun q hq => congrArg Except.ok (if_neg hq),
      fun _ _ => Or.inl trivial⟩
    rcases Multiset.mem_cons.mp hq with hq | hq
    · rw [hq]; exact ⟨hne, hlt⟩
    · exact hs.ptr q hq

/-! ## Every turn -/

/-- What a pop should give out: the oldest item, when it was freed before `minReader`. -/
def oldest (minReader : Nat) : List Item → Nat
  | [] => 0
  | (ptr, version) :: _ => if version < minReader then ptr else 0

/-- **One call of the list**, whichever it is. -/
theorem ListOp.call_spec {fl : FreeList ListMemory} {nodes : List Nat} {items : List Item}
    {used N : Nat} {R : Multiset Nat} (op : ListOp) (h : fl.Queue nodes items used)
    (hused : used < freeListCap)
    (hJ : fl.pages.Appendable N (listPages nodes items + ((op.given : Multiset Nat) + R)))
    (hov : fl.state.tailSeq + 2 < 2 ^ 64) :
    ∃ ret fl', op.call fl = .ok (ret, fl') ∧ ∃ nodes' items' out inner new drained,
      Turn (fun _ _ => True) fl fl' nodes nodes' items items' used
        (freedAt fl.version (op.given ++ drained)) out new drained ∧
      (op.given ++ drained).length ≤ 2 ∧
      NewNodes (listPages nodes items + ((op.given : Multiset Nat) + R)) inner new ∧
      fl'.pages.Exists N (listPages nodes' items' + ((handed ret : Multiset Nat) + R)) ∧
      out.map Prod.fst = handed ret ++ inner.map Prod.fst ∧
      (op = .pop → ret = oldest fl.minReader items) := by
  cases op with
  | push ptr =>
      have hR : ((ListOp.push ptr).given : Multiset Nat) + R = ptr ::ₘ R := by
        simp [ListOp.given]
      rw [hR] at hJ ⊢
      obtain ⟨fl', hok, nodes', items', out, new, drained, ht, hfew, hnew, hJ'⟩ :=
        (pushTail_spec (ListMemory.lawful N) h hused hJ (Or.inl hov)).exists_ok fun _ hf => hf
      refine ⟨0, fl', ?_, nodes', items', out, out, new, drained, ht, ?_, hnew, ?_, rfl,
        fun h => nomatch h⟩
      · rw [ListOp.call, hok]; rfl
      · simp [ListOp.given]; omega
      · simpa [handed] using hJ'
  | pop =>
      have hR : ((ListOp.pop).given : Multiset Nat) + R = R := by simp [ListOp.given]
      rw [hR] at hJ ⊢
      by_cases hb : Blocked fl.minReader items
      · -- every item may still be seen: nothing is given out
        refine ⟨0, fl, popHead_blocked h hb, nodes, items, [], [], [], [],
          ⟨⟨used, hused, fun _ => le_refl _, h⟩, rfl, rfl, rfl,
            by simp [freedAt, ListOp.given], by simp, by simp, Footprint.refl _ _ _⟩,
          by simp [ListOp.given], Or.inl rfl, ?_, rfl, fun _ => ?_⟩
        · simpa [handed] using hJ.1
        · cases items with
          | nil => rfl
          | cons it items =>
              have := hb it (by simp)
              rw [oldest, if_neg (by omega)]
      · obtain ⟨it, rest, hitems, hold⟩ := exists_of_not_blocked hb
        rw [hitems] at h hJ ⊢
        have hit : it.1 ≠ 0 := (hJ.1.ptr it.1 (by simp [listPages])).1
        obtain ⟨⟨ret, fl'⟩, hok, hret, nodes', items', out, new, drained, ht, hfew, hnew, hJ'⟩ :=
          (popHead_spec (ListMemory.lawful N) h hused hold hJ (Or.inl hov)).exists_ok fun _ hf => hf
        dsimp only at hret ht hJ'
        refine ⟨ret, fl', hok, nodes', items', it :: out, out, new, drained, ht,
          by simpa [ListOp.given] using hfew, hnew, ?_, ?_, fun _ => ?_⟩
        · rw [hret, handed, if_neg hit]
          simpa using hJ'
        · rw [hret, handed, if_neg hit]; rfl
        · rw [hret, oldest, if_pos hold]

namespace ListWorld

/-- What holds after any `n` turns. -/
structure Inv (w : ListWorld) (n : Nat) : Prop where
  queue : ∃ used, used < freeListCap ∧ w.list.Queue w.list.nodes w.list.items used
  nodup : w.owned.Nodup
  ptr : ∀ p ∈ w.owned, p ≠ 0 ∧ p < 2 ^ 64
  mem : ∀ p, (w.list.pages.mem p).length = btreePageSize
  given : ∀ p ∈ w.given, p ∈ w.owned
  fifo : w.appended = w.taken ++ w.list.items
  seq : w.list.state.tailSeq ≤ 2 * n

theorem coe_owned (w : ListWorld) :
    (w.owned : Multiset Nat) = listPages w.list.nodes w.list.items + (w.out : Multiset Nat) := by
  simp [owned, listPages]

theorem Initial.inv {w : ListWorld} (h : w.Initial) : w.Inv 0 := by
  obtain ⟨hout, hgiven, happ, htaken⟩ := h.ghost
  have hstate := h.state
  have hqueue : w.list.Queue [w.list.state.headPage] [] 0 :=
    ⟨.last rfl (h.mem _) (by rw [hstate]; rfl) (by decide) (holdsItems_nil _ _), rfl,
      by rw [hstate]; rfl, by rw [hstate]; rfl, by rw [hstate]; exact Nat.two_pow_pos 64, by simp,
      h.version, h.reader⟩
  have hnodes := hqueue.nodes_eq (by decide)
  have hitems := hqueue.items_eq (by decide)
  have howned : w.owned = [w.list.state.headPage] := by
    rw [owned, hnodes, hitems, hout]; rfl
  refine ⟨⟨0, by decide, by rw [hnodes, hitems]; exact hqueue⟩, ?_, ?_, h.mem, ?_, ?_, ?_⟩
  · rw [howned]; exact List.nodup_singleton _
  · intro p hp
    rw [howned, List.mem_singleton] at hp
    rw [hp]
    exact h.page
  · rw [hgiven]; intro p hp; cases hp
  · rw [happ, htaken, hitems]; rfl
  · rw [hstate]

/-- The list as the call finds it is the list the last call left. -/
theorem Inv.before {w : ListWorld} {n : Nat} {t : ListTurn} (h : w.Inv n) (ht : w.Allowed t) :
    ∃ used, used < freeListCap ∧ (w.before t).Queue w.list.nodes w.list.items used := by
  obtain ⟨used, hused, hq⟩ := h.queue
  refine ⟨used, hused, ?_, hq.head, hq.tail, hq.seq, hq.bound, fun it hit => ?_, ht.version.2,
    ht.reader⟩
  · exact hq.chain.congr fun p hp => congrArg Except.ok (ht.nodes p hp)
  · exact le_trans (hq.freed it hit) ht.version.1

/-- What a turn does: a pop answers with the oldest item if it was freed before `min_reader`, and
the items appended are the page pushed and the nodes drained, all at the turn's version. -/
structure Does (w : ListWorld) (t : ListTurn) (ret : Nat) (w' : ListWorld) : Prop where
  ret : t.op = .pop → ret = oldest t.minReader w.list.items
  appended : ∃ new drained, w.list.nodes ++ new = drained ++ w'.list.nodes ∧
    w'.appended = w.appended ++ freedAt t.version (t.op.given ++ drained)

/-- The numbers of all pages that a turn may come to. -/
structure Below (w : ListWorld) (t : ListTurn) (N : Nat) : Prop where
  limit : N ≤ 2 ^ 64
  owned : ∀ p ∈ w.owned, p < N
  fresh : t.fresh < N
  given : ∀ p ∈ t.op.given, p < N

theorem Inv.below {w : ListWorld} {n : Nat} {t : ListTurn} (h : w.Inv n) (ht : w.Allowed t) :
    w.Below t (2 ^ 64) :=
  ⟨le_refl _, fun p hp => (h.ptr p hp).2, ht.fresh.2.1, fun p hp => (ht.push p hp).2.1⟩

/-- What the call may touch: the list's pages, the page pushed, and the others handed out. -/
theorem Inv.appendable {w : ListWorld} {n N : Nat} {t : ListTurn} (h : w.Inv n) (ht : w.Allowed t)
    (hN : w.Below t N) : (w.before t).pages.Appendable N (listPages w.list.nodes w.list.items +
      ((t.op.given : Multiset Nat) + (w.kept t : Multiset Nat))) := by
  have hnd := Multiset.coe_nodup.mpr h.nodup
  rw [coe_owned] at hnd
  obtain ⟨hnd1, hnd2, hdisj⟩ := Multiset.nodup_add.mp hnd
  have hkept : ∀ p ∈ w.kept t, p ∈ w.out ∧ p ∉ t.op.given := fun p hp => by
    have := List.mem_filter.mp hp
    exact ⟨this.1, by simpa using this.2⟩
  have hlist : ∀ p ∈ listPages w.list.nodes w.list.items, p ∈ w.owned := fun p hp => by
    rw [← Multiset.mem_coe, coe_owned]
    exact Multiset.mem_add.mpr (Or.inl hp)
  have hout : ∀ p ∈ w.kept t, p ∈ w.owned := fun p hp => by
    rw [← Multiset.mem_coe, coe_owned]
    exact Multiset.mem_add.mpr (Or.inr (hkept p hp).1)
  refine ⟨⟨hN.limit, ?_, ?_, ht.mem⟩, t.fresh, rfl, ?_, ht.fresh.1, hN.fresh⟩
  · -- the page pushed is in neither the list nor what stays out
    refine Multiset.nodup_add.mpr ⟨hnd1, Multiset.nodup_add.mpr ⟨?_, ?_, ?_⟩, ?_⟩
    · cases t.op with
      | push ptr => exact Multiset.coe_nodup.mpr (List.nodup_singleton ptr)
      | pop => exact Multiset.coe_nodup.mpr List.nodup_nil
    · exact Multiset.coe_nodup.mpr (List.Nodup.filter _ (Multiset.coe_nodup.mp hnd2))
    · rw [Multiset.disjoint_left]
      intro p hp hp'
      exact (hkept p hp').2 hp
    · rw [Multiset.disjoint_left]
      intro p hp hp'
      rcases Multiset.mem_add.mp hp' with hp' | hp'
      · exact (ht.push p hp').2.2 (List.mem_append.mpr (mem_listPages.mp hp))
      · exact Multiset.disjoint_left.mp hdisj hp (hkept p hp').1
  · intro p hp
    rcases Multiset.mem_add.mp hp with hp | hp
    · exact ⟨(h.ptr p (hlist p hp)).1, hN.owned p (hlist p hp)⟩
    · rcases Multiset.mem_add.mp hp with hp | hp
      · exact ⟨(ht.push p hp).1, hN.given p hp⟩
      · exact ⟨(h.ptr p (hout p hp)).1, hN.owned p (hout p hp)⟩
  · intro hp
    rcases Multiset.mem_add.mp hp with hp | hp
    · exact ht.fresh.2.2.1 (hlist _ hp)
    · rcases Multiset.mem_add.mp hp with hp | hp
      · exact ht.fresh.2.2.2 hp
      · exact ht.fresh.2.2.1 (hout _ hp)

/-- **One turn.** -/
theorem turn_spec {w : ListWorld} {n N : Nat} {t : ListTurn} (h : w.Inv n) (ht : w.Allowed t)
    (hN : w.Below t N) (hn : 2 * n + 2 < 2 ^ 64) :
    ∃ ret w', w.turn t = .ok (ret, w') ∧ w'.Inv (n + 1) ∧ w.Does t ret w' ∧
      w'.list.version = t.version ∧ ∀ p ∈ w'.owned, p < N := by
  obtain ⟨used, hused, hq⟩ := h.before ht
  have hitems := hq.items_eq hused
  have hov : (w.before t).state.tailSeq + 2 < 2 ^ 64 := by
    have := h.seq
    show w.list.state.tailSeq + 2 < 2 ^ 64
    omega
  obtain ⟨ret, fl', hok, nodes', items', out, inner, new, drained, hturn, hfew, hnew, hpages', hout,
    hret⟩ := t.op.call_spec hq hused (h.appendable ht hN) hov
  obtain ⟨used', hused', _, hq'⟩ := hturn.queue
  have hnodes' := hq'.nodes_eq hused'
  have hitems' := hq'.items_eq hused'
  -- the counters tell which items were taken and which appended
  have happ : ∀ it ∈ freedAt (w.before t).version (t.op.given ++ drained),
      (w.before t).minReader ≤ it.2 := by
    intro it hit
    obtain ⟨p, _, hp⟩ := List.mem_map.mp hit
    rw [← hp]
    exact ht.reader
  obtain ⟨keep, hkeep, hkeep'⟩ := hturn.prefix happ
  have hcount : fl'.state.headSeq - (w.before t).state.headSeq = out.length := by
    rw [hturn.headSeq]; omega
  have hlen := congrArg List.length hkeep
  rw [List.length_append] at hlen
  have hdrop : fl'.items.drop ((w.before t).items.length - out.length) =
      freedAt t.version (t.op.given ++ drained) := by
    rw [hitems', hitems, hkeep', show w.list.items.length - out.length = keep.length by omega,
      List.drop_left]
    rfl
  have htake : (w.before t).items.take out.length = out := by
    rw [hitems, hkeep, List.take_left]
  -- what the world owns afterwards, as the list's pages and those handed out
  have howned : ((fl'.nodes ++ fl'.items.map Prod.fst ++ (handed ret ++ w.kept t) : List Nat) :
      Multiset Nat) = listPages nodes' items' + (handed ret + w.kept t) := by
    rw [hnodes', hitems', listPages, Multiset.coe_add, Multiset.coe_add, Multiset.coe_add]
  have hmem : ∀ p, p ∈ fl'.nodes ++ fl'.items.map Prod.fst ++ (handed ret ++ w.kept t) ↔
      p ∈ listPages nodes' items' + ((handed ret : Multiset Nat) + w.kept t) := by
    intro p
    rw [← howned, Multiset.mem_coe]
  refine ⟨ret, ⟨fl', handed ret ++ w.kept t, t.op.given ++ w.given,
    w.appended ++ freedAt t.version (t.op.given ++ drained), w.taken ++ out⟩, ?_, ?_,
    ⟨hret, new, drained, by rw [hturn.chain, ← hnodes'], rfl⟩, hturn.version,
    fun p hp => (hpages'.ptr p ((hmem p).mp hp)).2⟩
  · rw [turn, hok, ok_bind]
    dsimp only
    rw [hcount, hdrop, htake]
    rfl
  · refine ⟨⟨used', hused', ?_⟩, ?_, fun p hp => ?_, hpages'.mem, ?_, ?_, ?_⟩
    · show fl'.Queue fl'.nodes fl'.items used'
      rw [hnodes', hitems']
      exact hq'
    · show (fl'.nodes ++ fl'.items.map Prod.fst ++ (handed ret ++ w.kept t)).Nodup
      rw [← Multiset.coe_nodup, howned]
      exact hpages'.nodup
    · obtain ⟨hne, hlt⟩ := hpages'.ptr p ((hmem p).mp hp)
      exact ⟨hne, lt_of_lt_of_le hlt hN.limit⟩
    · -- every page pushed is still somewhere
      intro p hp
      refine (hmem p).mpr ?_
      have hconserve := hturn.conserve hout hnew
      have hstay : p ∈ listPages w.list.nodes w.list.items + (t.op.given : Multiset Nat) →
          p ∈ listPages nodes' items' + ((handed ret : Multiset Nat) + w.kept t) := by
        intro hp
        rw [← add_assoc]
        exact Multiset.mem_add.mpr (Or.inl (Multiset.mem_of_le hconserve hp))
      by_cases hgiven : p ∈ t.op.given
      · exact hstay (Multiset.mem_add.mpr (Or.inr hgiven))
      · rcases List.mem_append.mp hp with hp | hp
        · exact absurd hp hgiven
        · have hp := h.given p hp
          rw [← Multiset.mem_coe, coe_owned] at hp
          rcases Multiset.mem_add.mp hp with hp | hp
          · exact hstay (Multiset.mem_add.mpr (Or.inl hp))
          · refine Multiset.mem_add.mpr (Or.inr (Multiset.mem_add.mpr (Or.inr ?_)))
            exact List.mem_filter.mpr ⟨hp, by simpa using hgiven⟩
    · show w.appended ++ freedAt t.version (t.op.given ++ drained) = w.taken ++ out ++ fl'.items
      rw [h.fifo, hitems', List.append_assoc, List.append_assoc]
      exact congrArg _ hturn.fifo
    · -- a turn appends at most two items
      show fl'.state.tailSeq ≤ 2 * (n + 1)
      have h1 := hq'.seq
      have h2 := hq.seq
      have h3 := h.seq
      have h4 := congrArg List.length hturn.fifo
      rw [List.length_append, List.length_append, freedAt, List.length_map] at h4
      rw [hturn.headSeq] at h1
      have h5 : (w.before t).state.tailSeq = w.list.state.tailSeq := rfl
      omega

/-- Any number of turns. -/
theorem run_spec {w : ListWorld} {n : Nat} {turns : List ListTurn} (h : w.Inv n)
    (hallow : w.Allows turns) (hn : n + turns.length < 2 ^ 63) :
    ∃ w', w.run turns = .ok w' ∧ w'.Inv (n + turns.length) := by
  induction turns generalizing w n with
  | nil => exact ⟨w, rfl, h⟩
  | cons t turns ih =>
      rw [List.length_cons] at hn ⊢
      obtain ⟨ret, w1, hok, h1, _⟩ := turn_spec h hallow.1 (h.below hallow.1) (by omega)
      obtain ⟨w', hrun, h'⟩ := ih h1 (hallow.2 ret w1 hok) (by omega)
      refine ⟨w', ?_, by rw [show n + (turns.length + 1) = n + 1 + turns.length by omega]; exact h'⟩
      rw [run, hok, ok_bind]
      exact hrun

end ListWorld

/-- **The free list is a versioned queue that conserves pages.** Whatever is chosen between the
calls, they all return: the items come out in the order they were appended, every page pushed has
exactly one place — a queued item, a node, or the hands of one owner —, and the next call does what
it should. -/
theorem FreeList.versioned_fifo {w : ListWorld} (h : w.Initial) (turns : List ListTurn)
    (hallow : w.Allows turns) (hcount : turns.length < 2 ^ 63) :
    ∃ w', w.run turns = .ok w' ∧ w'.appended = w'.taken ++ w'.list.items ∧
      (w'.list.nodes ++ w'.list.items.map Prod.fst ++ w'.out).Nodup ∧
      (∀ p ∈ w'.given, p ∈ w'.list.nodes ++ w'.list.items.map Prod.fst ++ w'.out) ∧
      ∀ t, w'.Allowed t → turns.length + 1 < 2 ^ 63 →
        ∃ ret w'', w'.turn t = .ok (ret, w'') ∧ w'.Does t ret w'' := by
  obtain ⟨w', hrun, hinv⟩ := ListWorld.run_spec h.inv hallow (by omega)
  rw [Nat.zero_add] at hinv
  refine ⟨w', hrun, hinv.fifo, hinv.nodup, hinv.given, fun t ht hlt => ?_⟩
  obtain ⟨ret, w'', hok, _, hdoes, _⟩ := ListWorld.turn_spec hinv ht (hinv.below ht) (by omega)
  exact ⟨ret, w'', hok, hdoes⟩

/-- A list of one empty node, in zeroed pages. -/
def ListWorld.emptyNode (p : Nat) : ListWorld where
  list := ⟨⟨fun _ => List.replicate btreePageSize 0, none⟩, ⟨p, 0, p, 0⟩, 0, 0⟩

theorem ListWorld.initial_emptyNode {p : Nat} (hp : p ≠ 0) (hlt : p < 2 ^ 64) :
    (emptyNode p).Initial :=
  ⟨⟨hp, hlt⟩, rfl, fun _ => List.length_replicate, Nat.two_pow_pos 63, le_refl 0, rfl, rfl, rfl, rfl⟩

theorem ListWorld.owned_emptyNode (p : Nat) : (emptyNode p).owned = [p] := by
  simp [owned, FreeList.nodes, FreeList.items, chainFrom, emptyNode]

/-! ## A run that fills a node and drains it -/

namespace ListWorld

/-- Turns that leave the pages to the list: the `n`-th makes the call `ops n` at version `v n`,
which is the oldest reader's too, and finds a page to append that is numbered on. -/
def drive (ops : Nat → ListOp) (v : Nat → Nat) : Nat → Nat → ListWorld → List ListTurn
  | 0, _, _ => []
  | count + 1, n, w =>
      let t : ListTurn := ⟨ops n, v n, v n, 2 * n + 3, w.list.pages.mem⟩
      t :: match w.turn t with
        | .ok (_, w') => drive ops v count (n + 1) w'
        | .error _ => []

/-- After `n` such turns. -/
structure Driven (v : Nat → Nat) (w : ListWorld) (n : Nat) : Prop where
  inv : w.Inv n
  version : w.list.version ≤ v n
  numbered : ∀ p ∈ w.owned, p < 2 * n + 2

section Drive

variable {ops : Nat → ListOp} {v : Nat → Nat} {w : ListWorld} {n : Nat}

theorem driven_emptyNode : Driven v (emptyNode 1) 0 where
  inv := (initial_emptyNode (by decide) (by decide)).inv
  version := Nat.zero_le _
  numbered p hp := by
    rw [owned_emptyNode, List.mem_singleton] at hp
    omega

/-- Pushes are of pages that are numbered on, and versions do not fall. -/
structure Steady (ops : Nat → ListOp) (v : Nat → Nat) : Prop where
  given : ∀ n, ∀ p ∈ (ops n).given, p = 2 * n + 2
  mono : Monotone v
  bound : ∀ n, v n < 2 ^ 63

/-- Such a turn is allowed. -/
theorem Driven.allowed (h : Driven v w n) (hs : Steady ops v) (hn : n < 2 ^ 62) :
    w.Allowed ⟨ops n, v n, v n, 2 * n + 3, w.list.pages.mem⟩ where
  version := ⟨h.version, hs.bound n⟩
  reader := le_refl _
  fresh := by
    have hlt : 2 * n + 3 < 2 ^ 64 := by omega
    have hown : 2 * n + 3 ∉ w.owned := fun hp => absurd (h.numbered _ hp) (by omega)
    have hgiven : 2 * n + 3 ∉ (ops n).given := fun hp => absurd (hs.given n _ hp) (by omega)
    exact ⟨Nat.succ_ne_zero _, hlt, hown, hgiven⟩
  mem := h.inv.mem
  nodes _ _ := rfl
  push p hp := by
    have he := hs.given n p hp
    have hlt : p < 2 ^ 64 := by omega
    refine ⟨by omega, hlt, fun hmem => ?_⟩
    exact absurd (h.numbered p (List.mem_append_left _ hmem)) (by omega)

/-- And it returns. -/
theorem Driven.turn (h : Driven v w n) (hs : Steady ops v) (hn : n < 2 ^ 62) :
    ∃ ret w', w.turn ⟨ops n, v n, v n, 2 * n + 3, w.list.pages.mem⟩ = .ok (ret, w') ∧
      Driven v w' (n + 1) := by
  have hbelow : w.Below ⟨ops n, v n, v n, 2 * n + 3, w.list.pages.mem⟩ (2 * (n + 1) + 2) := by
    refine ⟨by omega, fun p hp => lt_trans (h.numbered p hp) (by omega), by
      show 2 * n + 3 < _
      omega, fun p hp => ?_⟩
    rw [hs.given n p hp]
    omega
  obtain ⟨ret, w', hok, hinv, _, hversion, howned⟩ :=
    turn_spec h.inv (h.allowed hs hn) hbelow (by omega)
  exact ⟨ret, w', hok, hinv, hversion ▸ hs.mono (Nat.le_succ n), howned⟩

/-- **Such turns** are allowed one after another, and all return. -/
theorem Driven.run (hs : Steady ops v) (count : Nat) (h : Driven v w n) (hn : n + count < 2 ^ 62) :
    w.Allows (drive ops v count n w) ∧ (drive ops v count n w).length = count ∧
      ∃ w', w.run (drive ops v count n w) = .ok w' ∧ Driven v w' (n + count) := by
  induction count generalizing n w with
  | zero => exact ⟨trivial, rfl, w, rfl, h⟩
  | succ count ih =>
      obtain ⟨ret, w1, hok, h1⟩ := h.turn hs (by omega)
      obtain ⟨hallows, hlen, w', hrun, h'⟩ := ih h1 (by omega)
      rw [drive, hok]
      refine ⟨⟨h.allowed hs (by omega), fun ret' w1' hok' => ?_⟩, congrArg Nat.succ hlen, w', ?_, ?_⟩
      · rw [hok, Except.ok.injEq, Prod.mk.injEq] at hok'
        exact hok'.2 ▸ hallows
      · rw [ListWorld.run, hok, ok_bind]
        exact hrun
      · rw [show n + (count + 1) = n + 1 + count by omega]
        exact h'

end Drive

end ListWorld

/-- Pages go in for 300 turns, more than a node has room for; then as many turns take pages out; then
pages go in again. -/
def ListOp.fillAndDrain (n : Nat) : ListOp :=
  if n < 300 ∨ 600 ≤ n then .push (2 * n + 2) else .pop

/-- While the first pages go in, the version rises. -/
def risingVersion (n : Nat) : Nat := min (n + 1) 301

theorem ListWorld.steady_fillAndDrain : Steady ListOp.fillAndDrain risingVersion where
  given n p hp := by
    unfold ListOp.fillAndDrain at hp
    split at hp
    · exact List.mem_singleton.mp hp
    · cases hp
  mono a b hab := by
    unfold risingVersion
    omega
  bound n := by
    unfold risingVersion
    omega

/-- The first 600 of these turns, on a list of one empty node. -/
def ListWorld.filledAndDrained : List ListTurn :=
  drive ListOp.fillAndDrain risingVersion 600 0 (emptyNode 1)

theorem FreeList.versioned_fifo_filled_and_drained :
    ListWorld.filledAndDrained.length = 600 ∧
    ∃ w', (ListWorld.emptyNode 1).run ListWorld.filledAndDrained = .ok w' ∧
      w'.appended = w'.taken ++ w'.list.items ∧
      (w'.list.nodes ++ w'.list.items.map Prod.fst ++ w'.out).Nodup ∧
      (∀ p ∈ w'.given, p ∈ w'.list.nodes ++ w'.list.items.map Prod.fst ++ w'.out) ∧
      ∀ t, w'.Allowed t → ListWorld.filledAndDrained.length + 1 < 2 ^ 63 →
        ∃ ret w'', w'.turn t = .ok (ret, w'') ∧ w'.Does t ret w'' := by
  obtain ⟨hallows, hlen, _⟩ :=
    ListWorld.driven_emptyNode.run ListWorld.steady_fillAndDrain 600 (by decide)
  have hfew : ListWorld.filledAndDrained.length < 2 ^ 63 := lt_of_eq_of_lt hlen (by decide)
  have hinit := ListWorld.initial_emptyNode (p := 1) (by decide) (by decide)
  exact ⟨hlen, FreeList.versioned_fifo hinit ListWorld.filledAndDrained hallows hfew⟩

end SqlDb
