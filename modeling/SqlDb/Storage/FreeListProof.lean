import SqlDb.Storage.FreeList
import Mathlib.Algebra.Order.Group.Multiset
import Mathlib.Data.Multiset.AddSub
import Mathlib.Tactic.Abel

/-!
# The free list is a queue

What the list holds, read off its pages: `Chain` peels the nodes from the head,
each full but the last, and the items in their slots. The operations are then
equations between lists — what was queued and what was appended is what was taken
and what is queued still — and the same for the chain of nodes. Pages the list
takes from itself as nodes, and drained nodes it gives back to itself, show up in
these equations and nowhere else.
-/

namespace SqlDb

open Outcome

/-- A free page and the version that freed it. -/
abbrev Item := Nat × Nat

theorem freeListCap_eq : freeListCap = 255 := by decide

/-- Below half the counter's range the signed distance is the order. -/
theorem versionBefore_iff {a b : Nat} (ha : a < 2 ^ 63) (hb : b < 2 ^ 63) :
    versionBefore a b = decide (a < b) := by
  unfold versionBefore
  rw [Nat.mod_eq_of_lt (show b < 2 ^ 64 by omega)]
  by_cases h : a < b
  · rw [Nat.mod_eq_of_lt (by omega)]
    simp [h]; omega
  · rw [show a + 2 ^ 64 - b = (a - b) + 2 ^ 64 by omega, Nat.add_mod_right,
      Nat.mod_eq_of_lt (by omega)]
    simp [h]; omega

/-! ## Slots -/

/-- The item in a node's slot. -/
def slotAt (page : Bytes) (idx : Nat) : Item := (LNode.getPtr page idx, LNode.getVersion page idx)

theorem slotAt_fst (page : Bytes) (idx : Nat) : (slotAt page idx).1 = LNode.getPtr page idx := rfl

theorem slotAt_snd (page : Bytes) (idx : Nat) :
    (slotAt page idx).2 = LNode.getVersion page idx := rfl

/-- The node with an item put in its slot. -/
def putSlot (page : Bytes) (idx ptr version : Nat) : Bytes :=
  LNode.setVersion (LNode.setPtr page idx ptr) idx version

@[simp] theorem length_setNext (page : Bytes) (ptr : Nat) :
    (LNode.setNext page ptr).length = page.length := Bytes.length_writeU64 _ _ _

@[simp] theorem length_putSlot (page : Bytes) (idx ptr version : Nat) :
    (putSlot page idx ptr version).length = page.length := by
  simp [putSlot, LNode.setVersion, LNode.setPtr]

theorem slotAt_putSlot_self {page : Bytes} {idx ptr version : Nat}
    (hlen : page.length = btreePageSize) (hidx : idx < freeListCap) (hp : ptr < 2 ^ 64)
    (hv : version < 2 ^ 64) : slotAt (putSlot page idx ptr version) idx = (ptr, version) := by
  rw [freeListCap_eq] at hidx
  unfold btreePageSize at hlen
  unfold slotAt putSlot LNode.getPtr LNode.getVersion LNode.setVersion LNode.setPtr LNode.slot
    freeListHeader freeListItemSize
  refine Prod.ext ?_ ?_
  · show Bytes.readU64 (Bytes.writeAt _ _ (Bytes.le 8 version)) _ = ptr
    rw [Bytes.readU64_writeAt_of_disjoint (Or.inl (by omega))]
    exact Bytes.readU64_writeU64_self (by omega) hp
  · exact Bytes.readU64_writeU64_self (by rw [Bytes.length_writeU64]; omega) hv

theorem slotAt_putSlot_of_ne {page : Bytes} {idx i ptr version : Nat} (h : i ≠ idx) :
    slotAt (putSlot page idx ptr version) i = slotAt page i := by
  have h8 : ∀ v, (Bytes.le 8 v).length = 8 := fun v => Bytes.length_le 8 v
  unfold slotAt putSlot LNode.getPtr LNode.getVersion LNode.setVersion LNode.setPtr LNode.slot
    freeListHeader freeListItemSize Bytes.writeU64
  rcases Nat.lt_or_gt_of_ne h with hlt | hgt
  · rw [Bytes.readU64_writeAt_of_disjoint (Or.inl (by omega)),
      Bytes.readU64_writeAt_of_disjoint (Or.inl (by omega)),
      Bytes.readU64_writeAt_of_disjoint (Or.inl (by omega)),
      Bytes.readU64_writeAt_of_disjoint (Or.inl (by omega))]
  · rw [Bytes.readU64_writeAt_of_disjoint (Or.inr (by rw [h8]; omega)),
      Bytes.readU64_writeAt_of_disjoint (Or.inr (by rw [h8]; omega)),
      Bytes.readU64_writeAt_of_disjoint (Or.inr (by rw [h8]; omega)),
      Bytes.readU64_writeAt_of_disjoint (Or.inr (by rw [h8]; omega))]

theorem slotAt_setNext (page : Bytes) (ptr i : Nat) :
    slotAt (LNode.setNext page ptr) i = slotAt page i := by
  have h8 : (Bytes.le 8 ptr).length = 8 := Bytes.length_le 8 ptr
  unfold slotAt LNode.getPtr LNode.getVersion LNode.setNext LNode.slot freeListHeader
    freeListItemSize Bytes.writeU64
  rw [Bytes.readU64_writeAt_of_disjoint (Or.inr (by rw [h8]; omega)),
    Bytes.readU64_writeAt_of_disjoint (Or.inr (by rw [h8]; omega))]

theorem next_setNext {page : Bytes} {ptr : Nat} (hlen : page.length = btreePageSize)
    (hp : ptr < 2 ^ 64) : LNode.next (LNode.setNext page ptr) = ptr := by
  unfold btreePageSize at hlen
  exact Bytes.readU64_writeU64_self (by omega) hp

/-- The node's slots from `off` on hold `items`. -/
def HoldsItems (page : Bytes) (off : Nat) (items : List Item) : Prop :=
  ∀ i it, items[i]? = some it → slotAt page (off + i) = it

theorem holdsItems_nil (page : Bytes) (off : Nat) : HoldsItems page off [] := by
  intro i it h; simp at h

theorem holdsItems_cons {page : Bytes} {off : Nat} {it : Item} {items : List Item} :
    HoldsItems page off (it :: items) ↔ slotAt page off = it ∧ HoldsItems page (off + 1) items := by
  constructor
  · intro h
    refine ⟨h 0 it rfl, fun i it' hi => ?_⟩
    rw [show off + 1 + i = off + (i + 1) by omega]
    exact h (i + 1) it' (by simpa using hi)
  · intro h i it' hi
    cases i with
    | zero => rw [Nat.add_zero, h.1]; simpa using hi
    | succ i =>
        rw [show off + (i + 1) = off + 1 + i by omega]
        exact h.2 i it' (by simpa using hi)

/-- Items are added behind the ones a node holds. -/
theorem HoldsItems.put {page : Bytes} {off ptr version : Nat} {items : List Item}
    (h : HoldsItems page off items) (hlen : page.length = btreePageSize)
    (hcap : off + items.length < freeListCap) (hp : ptr < 2 ^ 64) (hv : version < 2 ^ 64) :
    HoldsItems (putSlot page (off + items.length) ptr version) off (items ++ [(ptr, version)]) := by
  intro i it hi
  rcases Nat.lt_trichotomy i items.length with hlt | heq | hgt
  · rw [List.getElem?_append_left hlt] at hi
    rw [slotAt_putSlot_of_ne (by omega)]
    exact h i it hi
  · rw [heq] at hi ⊢
    rw [slotAt_putSlot_self hlen hcap hp hv]
    simpa using hi
  · rw [List.getElem?_eq_none (by simp; omega)] at hi
    cases hi

theorem HoldsItems.setNext {page : Bytes} {off ptr : Nat} {items : List Item}
    (h : HoldsItems page off items) : HoldsItems (LNode.setNext page ptr) off items := by
  intro i it hi
  rw [slotAt_setNext]
  exact h i it hi

/-! ## The chain of nodes -/

/-- The chain through `nodes` holds `items` from slot `off` of its head on; `used` slots of its
tail are taken. Every node but the last is full, and names the next. -/
inductive Chain (read : Nat → Except Fault Bytes) :
    Nat → List Nat → List Item → Nat → Prop where
  | last {off used p : Nat} {page : Bytes} {items : List Item} : read p = .ok page →
      page.length = btreePageSize → used = off + items.length → used ≤ freeListCap →
      HoldsItems page off items → Chain read off [p] items used
  | more {off used p q : Nat} {page : Bytes} {xs ys : List Item} {ps : List Nat} :
      read p = .ok page → page.length = btreePageSize → xs ≠ [] →
      off + xs.length = freeListCap → HoldsItems page off xs → LNode.next page = q →
      Chain read 0 (q :: ps) ys used → Chain read off (p :: q :: ps) (xs ++ ys) used

variable {read read' : Nat → Except Fault Bytes}

theorem Chain.ne_nil {off used : Nat} {nodes : List Nat} {items : List Item}
    (h : Chain read off nodes items used) : nodes ≠ [] := by
  cases h <;> simp

/-- The chain depends on its nodes' pages alone. -/
theorem Chain.congr {off used : Nat} {nodes : List Nat} {items : List Item}
    (h : Chain read off nodes items used) (hr : ∀ p ∈ nodes, read' p = read p) :
    Chain read' off nodes items used := by
  induction h with
  | last hp hlen hu hcap hit =>
      exact .last ((hr _ (by simp)).trans hp) hlen hu hcap hit
  | more hp hlen hne hfull hit hnext _ ih =>
      exact .more ((hr _ (by simp)).trans hp) hlen hne hfull hit hnext
        (ih fun p hp => hr p (List.mem_cons_of_mem _ hp))

/-- The tail's slot follows from the head's and the number of items. -/
theorem Chain.used_mod {off used : Nat} {nodes : List Nat} {items : List Item}
    (h : Chain read off nodes items used) : used % freeListCap = (off + items.length) % freeListCap := by
  induction h with
  | last _ _ hu _ _ => rw [hu]
  | @more off _ _ _ _ xs ys _ _ _ _ hfull _ _ _ ih =>
      rw [ih, List.length_append, ← Nat.add_assoc, hfull, Nat.add_mod_left, Nat.zero_add]

/-- **The head of the chain.** Its first item is in the head node's slot; taking it leaves a chain,
of one node less when the slot was the node's last. -/
theorem Chain.pop {off used : Nat} {nodes : List Nat} {it : Item} {items : List Item}
    (h : Chain read off nodes (it :: items) used) (hoff : off < freeListCap) :
    ∃ p ps page, nodes = p :: ps ∧ read p = .ok page ∧ slotAt page off = it ∧
      ((off + 1 < freeListCap ∧ Chain read (off + 1) nodes items used) ∨
       (off + 1 = freeListCap ∧ ∃ q qs, ps = q :: qs ∧ LNode.next page = q ∧
          Chain read 0 ps items used) ∨
       (off + 1 = freeListCap ∧ items = [] ∧ used = freeListCap)) := by
  generalize heq : it :: items = all at h
  cases h with
  -- one node: its items may end with the one popped
  | last hp hlen hu hcap hit =>
      rw [← heq] at hit hu
      obtain ⟨hslot, hit⟩ := holdsItems_cons.mp hit
      rw [List.length_cons] at hu
      refine ⟨_, [], _, rfl, hp, hslot, ?_⟩
      by_cases hlast : off + 1 = freeListCap
      · exact Or.inr (Or.inr ⟨hlast, List.length_eq_zero_iff.mp (by omega), by omega⟩)
      · exact Or.inl ⟨by omega, .last hp hlen (by omega) hcap hit⟩
  -- a full node: drained when its last slot goes
  | @more _ _ _ q page xs ys ps hp hlen hne hfull hit hnext hrest =>
      cases xs with
      | nil => exact absurd rfl hne
      | cons x xs =>
          obtain ⟨hx, hxs⟩ := List.cons.inj heq
          obtain ⟨hslot, hit⟩ := holdsItems_cons.mp hit
          rw [List.length_cons] at hfull
          refine ⟨_, _, page, rfl, hp, by rw [hslot]; exact hx.symm, ?_⟩
          by_cases hlast : off + 1 = freeListCap
          · have hnil : xs = [] := List.length_eq_zero_iff.mp (by omega)
            rw [hnil] at hxs
            exact Or.inr (Or.inl ⟨hlast, q, ps, rfl, hnext, by rw [hxs]; exact hrest⟩)
          · refine Or.inl ⟨by omega, ?_⟩
            rw [hxs]
            exact .more hp hlen (fun h => hlast (by rw [h] at hfull; simpa using hfull))
              (by omega) hit hnext hrest

/-- The tail's page. -/
theorem Chain.tail {off used t : Nat} {nodes : List Nat} {items : List Item}
    (h : Chain read off nodes items used) (ht : nodes.getLast? = some t) :
    ∃ page, read t = .ok page ∧ page.length = btreePageSize := by
  induction h with
  | last hp hlen _ _ _ =>
      rw [List.getLast?_singleton, Option.some.injEq] at ht
      rw [← ht]
      exact ⟨_, hp, hlen⟩
  | more _ _ _ _ _ _ _ ih => exact ih (by simpa [List.getLast?_cons_cons] using ht)

/-- **Appending an item**: one slot of the tail is written. -/
theorem Chain.append {off used t ptr version : Nat} {nodes : List Nat} {items : List Item}
    {page : Bytes} (h : Chain read off nodes items used) (ht : nodes.getLast? = some t)
    (hnd : nodes.Nodup) (hused : used < freeListCap) (hp : ptr < 2 ^ 64) (hv : version < 2 ^ 64)
    (hpage : read t = .ok page) (hpage' : read' t = .ok (putSlot page used ptr version))
    (hr : ∀ q, q ≠ t → read' q = read q) :
    Chain read' off nodes (items ++ [(ptr, version)]) (used + 1) := by
  induction h with
  | @last off used p b items hb hlen hu hcap hit =>
      rw [List.getLast?_singleton, Option.some.injEq] at ht
      rw [← ht, hb, Except.ok.injEq] at hpage
      rw [← ht, ← hpage, hu] at hpage'
      refine .last hpage' (by simpa using hlen) (by simp; omega) (by omega) ?_
      exact hit.put hlen (by omega) hp hv
  | @more off used p q b xs ys ps hb hlen hne hfull hit hnext hrest ih =>
      have ht' : (q :: ps).getLast? = some t := by simpa [List.getLast?_cons_cons] using ht
      have hpt : p ≠ t := by
        intro he
        rw [he] at hnd
        exact (List.nodup_cons.mp hnd).1 (List.mem_of_getLast? ht')
      rw [List.append_assoc]
      exact .more ((hr p hpt).trans hb) hlen hne hfull hit hnext
        (ih ht' (List.nodup_cons.mp hnd).2 hused hpage')

/-- **Linking a node** behind a full tail. -/
theorem Chain.link {off used t next : Nat} {nodes : List Nat} {items : List Item}
    {page page' : Bytes} (h : Chain read off nodes items used) (ht : nodes.getLast? = some t)
    (hnd : nodes.Nodup) (hused : used = freeListCap) (hitems : off < freeListCap)
    (hnext : next < 2 ^ 64) (hpage : read t = .ok page)
    (hpage' : read' t = .ok (LNode.setNext page next)) (hnew : read' next = .ok page')
    (hlen' : page'.length = btreePageSize) (hr : ∀ q ∈ nodes, q ≠ t → read' q = read q) :
    Chain read' off (nodes ++ [next]) items 0 := by
  induction h with
  | @last off used p b items hb hlen hu hcap hit =>
      rw [List.getLast?_singleton, Option.some.injEq] at ht
      rw [← ht, hb, Except.ok.injEq] at hpage
      rw [← ht, ← hpage] at hpage'
      rw [← List.append_nil items]
      refine .more hpage' (by simpa using hlen) ?_ (by omega) hit.setNext (next_setNext hlen hnext)
        (.last hnew hlen' rfl (Nat.zero_le _) (holdsItems_nil _ _))
      intro hnil
      rw [hnil, List.length_nil] at hu
      omega
  | @more off used p q b xs ys ps hb hlen hne hfull hit hnext' hrest ih =>
      have ht' : (q :: ps).getLast? = some t := by simpa [List.getLast?_cons_cons] using ht
      have hpt : p ≠ t := by
        intro he
        rw [he] at hnd
        exact (List.nodup_cons.mp hnd).1 (List.mem_of_getLast? ht')
      exact .more ((hr p (by simp) hpt).trans hb) hlen hne hfull hit hnext'
        (ih ht' (List.nodup_cons.mp hnd).2 hused (by decide) fun x hx =>
          hr x (List.mem_cons_of_mem _ hx))

/-- Rewriting the tail past its last item, and its `next` with that, changes nothing. -/
theorem Chain.retail {off used t : Nat} {nodes : List Nat} {items : List Item} {page page' : Bytes}
    (h : Chain read off nodes items used) (ht : nodes.getLast? = some t) (hnd : nodes.Nodup)
    (hpage : read t = .ok page) (hpage' : read' t = .ok page') (hlen' : page'.length = page.length)
    (hslots : ∀ i < used, slotAt page' i = slotAt page i)
    (hr : ∀ q ∈ nodes, q ≠ t → read' q = read q) : Chain read' off nodes items used := by
  induction h with
  | @last off used p b items hb hlen hu hcap hit =>
      rw [List.getLast?_singleton, Option.some.injEq] at ht
      rw [← ht, hb, Except.ok.injEq] at hpage
      rw [← hpage] at hlen' hslots
      refine .last (ht ▸ hpage') (hlen'.trans hlen) hu hcap fun i it hi => ?_
      have hlt := (List.getElem?_eq_some_iff.mp hi).1
      rw [hslots _ (by omega)]
      exact hit i it hi
  | @more off used p q b xs ys ps hb hlen hne hfull hit hnext hrest ih =>
      have ht' : (q :: ps).getLast? = some t := by simpa [List.getLast?_cons_cons] using ht
      have hpt : p ≠ t := by
        intro he
        rw [he] at hnd
        exact (List.nodup_cons.mp hnd).1 (List.mem_of_getLast? ht')
      exact .more ((hr p (by simp) hpt).trans hb) hlen hne hfull hit hnext
        (ih ht' (List.nodup_cons.mp hnd).2 hslots fun x hx => hr x (List.mem_cons_of_mem _ hx))

/-! ## The queue -/

/-- The list's pages hold `items`, oldest first, in the nodes `nodes`. -/
structure FreeList.Queue {σ : Type} [FreeListPages σ] (fl : FreeList σ) (nodes : List Nat)
    (items : List Item) (used : Nat) : Prop where
  chain : Chain (FreeListPages.readPage fl.pages) (seqToIdx fl.state.headSeq) nodes items used
  head : nodes.head? = some fl.state.headPage
  tail : nodes.getLast? = some fl.state.tailPage
  seq : fl.state.headSeq + items.length = fl.state.tailSeq
  bound : fl.state.tailSeq < 2 ^ 64
  freed : ∀ it ∈ items, it.2 ≤ fl.version
  version : fl.version < 2 ^ 63
  reader : fl.minReader ≤ fl.version

/-- What the list needs of its pages: `J s M` says that the pages `M` exist, and `D s p` that page
`p` was written. -/
structure PagesLaw {σ : Type} [FreeListPages σ] (J : σ → Multiset Nat → Prop)
    (D : σ → Nat → Prop) : Prop where
  nodup : ∀ {s M}, J s M → M.Nodup
  ptr : ∀ {s M}, J s M → ∀ p ∈ M, p ≠ 0 ∧ p < 2 ^ 64
  read : ∀ {s M p}, J s M → p ∈ M →
    ∃ page, FreeListPages.readPage s p = .ok page ∧ page.length = btreePageSize
  write : ∀ {s M p page f}, J s M → p ∈ M → FreeListPages.readPage s p = .ok page →
    page.length = btreePageSize → (f page).length = btreePageSize →
    ∃ s', FreeListPages.writePage s p f = .ok s' ∧ J s' M ∧
      FreeListPages.readPage s' p = .ok (f page) ∧
      (∀ q, q ≠ p → FreeListPages.readPage s' q = FreeListPages.readPage s q) ∧
      ∀ q, D s' q → D s q ∨ q = p

/-- And of appending to them. An operation appends one page at most, so appending may lead from `J`
to a weaker `K`. -/
structure LawfulListPages {σ : Type} [FreeListPages σ] (J K : σ → Multiset Nat → Prop)
    (D : σ → Nat → Prop) (E : Fault → Prop) : Prop where
  before : PagesLaw J D
  after : PagesLaw K D
  weaken : ∀ {s M}, J s M → K s M
  append : ∀ {s M}, J s M → Ends E (fun r => K r.2 (r.1 ::ₘ M) ∧
      (∀ q, q ≠ r.1 → FreeListPages.readPage r.2 q = FreeListPages.readPage s q) ∧
      ∀ q, D r.2 q → D s q ∨ q = r.1) (FreeListPages.appendPage s)

namespace FreeList

variable {σ : Type} [FreeListPages σ] {J K : σ → Multiset Nat → Prop} {D : σ → Nat → Prop}
  {E : Fault → Prop}

theorem seqToIdx_lt (seq : Nat) : seqToIdx seq < freeListCap := Nat.mod_lt _ (by decide)

theorem seqToIdx_succ (seq : Nat) : seqToIdx (seq + 1) =
    if seqToIdx seq + 1 = freeListCap then 0 else seqToIdx seq + 1 := by
  unfold seqToIdx
  rw [freeListCap_eq]
  split <;> omega

/-- The slot the next item goes to. -/
theorem Queue.idx {fl : FreeList σ} {nodes : List Nat} {items : List Item} {used : Nat}
    (h : fl.Queue nodes items used) : seqToIdx fl.state.tailSeq = used % freeListCap := by
  rw [h.chain.used_mod, ← h.seq]
  unfold seqToIdx
  rw [Nat.mod_add_mod]

/-- Nothing is taken from a list whose oldest item is still visible. -/
theorem pop_blocked {fl : FreeList σ} {nodes : List Nat} {items : List Item} {used : Nat}
    (h : fl.Queue nodes items used) (hold : ∀ it ∈ items.head?, fl.minReader ≤ it.2) :
    fl.pop = .ok ({}, fl) := by
  unfold pop
  have hseq := h.seq
  cases items with
  | nil =>
      rw [if_pos (by rw [← hseq]; rfl)]
      rfl
  | cons it items =>
      rw [if_neg (by rw [← hseq, List.length_cons]; omega)]
      obtain ⟨p, ps, page, hnodes, hread, hslot, _⟩ := h.chain.pop (seqToIdx_lt _)
      have hhead : fl.state.headPage = p := by
        have := h.head
        rw [hnodes, List.head?_cons, Option.some.injEq] at this
        exact this.symm
      have hv : LNode.getVersion page (seqToIdx fl.state.headSeq) = it.2 := by
        rw [← hslot, slotAt_snd]
      have h1 := hold it (by simp)
      have h2 := h.freed it (by simp)
      have h3 := h.version
      have h4 := h.reader
      -- the oldest item may still be seen
      have hvis : versionBefore it.2 fl.minReader = false := by
        rw [versionBefore_iff (by omega) (by omega), decide_eq_false (by omega)]
      rw [hhead, hread, ok_bind]
      dsimp only
      rw [hv, hvis]
      rfl

/-- The nodes left when the item at `seq` is taken: the head goes with the last of its items. -/
def nodesLeft (seq : Nat) (nodes : List Nat) : List Nat :=
  if seqToIdx (seq + 1) = 0 then nodes.tail else nodes

/-- The state `pop` leaves when it takes an item and `nodes` are left. -/
def popState (st : FreeListState) (nodes : List Nat) : FreeListState :=
  { st with headPage := nodes.headD 0, headSeq := st.headSeq + 1 }

/-- The node `pop` drains when it takes an item; 0 for none. -/
def drainedBy (st : FreeListState) : Nat := if seqToIdx (st.headSeq + 1) = 0 then st.headPage else 0

/-- **Taking the oldest item**: what is given out and the state that is left follow from the items
and the nodes alone. -/
theorem pop_item {fl : FreeList σ} {nodes : List Nat} {it : Item} {items : List Item} {used : Nat}
    (h : fl.Queue nodes (it :: items) used) (hold : it.2 < fl.minReader)
    (hnz : ∀ p ∈ nodes, p ≠ 0) (hkeep : items ≠ [] ∨ used < freeListCap) :
    fl.pop = .ok (⟨it.1, drainedBy fl.state⟩,
        { fl with state := popState fl.state (nodesLeft fl.state.headSeq nodes) }) ∧
      Queue { fl with state := popState fl.state (nodesLeft fl.state.headSeq nodes) }
        (nodesLeft fl.state.headSeq nodes) items used := by
  unfold pop
  have hseq := h.seq
  obtain ⟨p, ps, page, hnodes, hread, hslot, hcases⟩ := h.chain.pop (seqToIdx_lt _)
  have hhead : fl.state.headPage = p := by
    have := h.head
    rw [hnodes, List.head?_cons, Option.some.injEq] at this
    exact this.symm
  have hv : LNode.getVersion page (seqToIdx fl.state.headSeq) = it.2 := by
    rw [← hslot, slotAt_snd]
  have hp : LNode.getPtr page (seqToIdx fl.state.headSeq) = it.1 := by
    rw [← hslot, slotAt_fst]
  have h3 := h.version
  have h4 := h.reader
  have hne : ¬ fl.state.headSeq = fl.state.tailSeq := by
    rw [← hseq, List.length_cons]; omega
  have hvis : versionBefore it.2 fl.minReader = true := by
    rw [versionBefore_iff (by omega) (by omega), decide_eq_true hold]
  rw [if_neg hne, hhead, hread, ok_bind]
  dsimp only
  rw [hv, hvis, hp, Bool.not_true, if_neg Bool.false_ne_true]
  have hfreed : ∀ x ∈ items, x.2 ≤ fl.version := fun x hx =>
    h.freed x (List.mem_cons_of_mem _ hx)
  have hseq' : fl.state.headSeq + 1 + items.length = fl.state.tailSeq := by
    rw [← hseq, List.length_cons]; omega
  rcases hcases with ⟨hlt, hchain⟩ | ⟨hlast, q, qs, hps, hnext, hchain⟩ | ⟨_, hnil, hfull⟩
  · -- the head node holds more items
    have hidx : seqToIdx (fl.state.headSeq + 1) = seqToIdx fl.state.headSeq + 1 := by
      rw [seqToIdx_succ, if_neg (by omega)]
    have hidx' : ¬ seqToIdx (fl.state.headSeq + 1) = 0 := by omega
    have hst : popState fl.state nodes = { fl.state with headSeq := fl.state.headSeq + 1 } := by
      rw [popState, hnodes, List.headD_cons, ← hhead]
    rw [nodesLeft, if_neg hidx', drainedBy, if_neg hidx', if_neg hidx', hst]
    exact ⟨rfl, by rw [hidx]; exact hchain, h.head, h.tail, hseq', h.bound, hfreed, h3, h4⟩
  · -- the head node is drained
    have hidx : seqToIdx (fl.state.headSeq + 1) = 0 := by rw [seqToIdx_succ, if_pos hlast]
    have hq : q ≠ 0 := hnz q (by rw [hnodes, hps]; simp)
    have htail := h.tail
    rw [hnodes, hps, List.getLast?_cons_cons] at htail
    rw [nodesLeft, if_pos hidx, drainedBy, if_pos hidx, if_pos hidx, hnodes, hps, List.tail_cons,
      popState, List.headD_cons, hnext, require_pos hq, ok_bind, hhead]
    refine ⟨rfl, by rw [hidx, ← hps]; exact hchain, rfl, htail, hseq', h.bound, hfreed, h3, h4⟩
  · -- the last node and its last item: ruled out
    rcases hkeep with h | h
    · exact absurd hnil h
    · omega

/-- The head node goes with the item when it was the node's last. -/
theorem pop_taken {fl : FreeList σ} {nodes : List Nat} {it : Item} {items : List Item} {used : Nat}
    (h : fl.Queue nodes (it :: items) used) (hold : it.2 < fl.minReader)
    (hnz : ∀ p ∈ nodes, p ≠ 0) (hkeep : items ≠ [] ∨ used < freeListCap) :
    ∃ st nodes' drained, fl.pop = .ok (⟨it.1, drained⟩, { fl with state := st }) ∧
      Queue { fl with state := st } nodes' items used ∧ st.tailPage = fl.state.tailPage ∧
      st.tailSeq = fl.state.tailSeq ∧ st.headSeq = fl.state.headSeq + 1 ∧
      (drained = 0 ∧ nodes' = nodes ∨ drained ≠ 0 ∧ nodes = drained :: nodes') := by
  obtain ⟨hpop, hq⟩ := pop_item h hold hnz hkeep
  refine ⟨_, _, _, hpop, hq, rfl, rfl, rfl, ?_⟩
  unfold drainedBy nodesLeft
  by_cases hidx : seqToIdx (fl.state.headSeq + 1) = 0
  · rw [if_pos hidx, if_pos hidx]
    obtain ⟨ps, hps⟩ : ∃ ps, nodes = fl.state.headPage :: ps := List.head?_eq_some_iff.mp h.head
    exact Or.inr ⟨hnz _ (by rw [hps]; simp), by rw [hps]; rfl⟩
  · rw [if_neg hidx, if_neg hidx]
    exact Or.inl ⟨rfl, rfl⟩

/-! ## What an operation touches -/

/-- From `s` to `s'` only the pages `W` and the page `t` were written, and the slots of `t` below
`used` are as they were. -/
structure Footprint (D : σ → Nat → Prop) (s s' : σ) (t used : Nat) (W : List Nat) : Prop where
  read : ∀ q, q ≠ t → q ∉ W → FreeListPages.readPage s' q = FreeListPages.readPage s q
  dirty : ∀ q, D s' q → D s q ∨ q = t ∨ q ∈ W
  kept : ∀ page, FreeListPages.readPage s t = .ok page →
    ∃ page', FreeListPages.readPage s' t = .ok page' ∧ page'.length = page.length ∧
      ∀ i < used, slotAt page' i = slotAt page i

theorem Footprint.refl (s : σ) (t used : Nat) : Footprint D s s t used [] :=
  ⟨fun _ _ _ => rfl, fun _ h => Or.inl h, fun page h => ⟨page, h, rfl, fun _ _ => rfl⟩⟩

theorem Footprint.trans {s s1 s2 : σ} {t used : Nat} {W W' : List Nat}
    (h : Footprint D s s1 t used W) (h' : Footprint D s1 s2 t used W') :
    Footprint D s s2 t used (W ++ W') := by
  refine ⟨fun q hq hW => ?_, fun q hq => ?_, fun page hpage => ?_⟩
  · rw [List.mem_append, not_or] at hW
    rw [h'.read q hq hW.2, h.read q hq hW.1]
  · rcases h'.dirty q hq with hq | hq | hq
    · rcases h.dirty q hq with hq | hq | hq
      · exact Or.inl hq
      · exact Or.inr (Or.inl hq)
      · exact Or.inr (Or.inr (List.mem_append_left _ hq))
    · exact Or.inr (Or.inl hq)
    · exact Or.inr (Or.inr (List.mem_append_right _ hq))
  · obtain ⟨page1, h1, hlen1, hs1⟩ := h.kept page hpage
    obtain ⟨page2, h2, hlen2, hs2⟩ := h'.kept page1 h1
    exact ⟨page2, h2, hlen2.trans hlen1, fun i hi => (hs2 i hi).trans (hs1 i hi)⟩

/-- A footprint counted in a list of more pages. -/
theorem Footprint.mono {s s' : σ} {t used : Nat} {W W' : List Nat} (h : Footprint D s s' t used W)
    (hW : ∀ q ∈ W, q ∈ W') : Footprint D s s' t used W' :=
  ⟨fun q hq hq' => h.read q hq fun hm => hq' (hW q hm),
    fun q hq => (h.dirty q hq).imp id (Or.imp id (hW q)), h.kept⟩

/-- A write to another page than `t`. -/
theorem Footprint.other {s s' : σ} {t n used : Nat} (hne : t ≠ n)
    (hread : ∀ q, q ≠ n → FreeListPages.readPage s' q = FreeListPages.readPage s q)
    (hdirty : ∀ q, D s' q → D s q ∨ q = n) : Footprint D s s' t used [n] :=
  ⟨fun q _ hq => hread q (by simpa using hq),
    fun q hq => (hdirty q hq).imp id fun h => Or.inr (by simp [h]),
    fun page hpage => ⟨page, (hread t hne).trans hpage, rfl, fun _ _ => rfl⟩⟩

/-- A footprint in another page, counted from `t`. -/
theorem Footprint.shift {s s' : σ} {t n used k : Nat} (h : Footprint D s s' n k []) (hne : t ≠ n) :
    Footprint D s s' t used [n] :=
  .other hne (fun q hq => h.read q hq (by simp)) fun q hq =>
    (h.dirty q hq).imp id fun h => h.resolve_right (by simp)

/-- The pages the list is made of, or holds. -/
def listPages (nodes : List Nat) (items : List Item) : Multiset Nat :=
  (nodes : Multiset Nat) + (items.map Prod.fst : Multiset Nat)

theorem mem_listPages {nodes : List Nat} {items : List Item} {p : Nat} :
    p ∈ listPages nodes items ↔ p ∈ nodes ∨ p ∈ items.map Prod.fst := by
  simp [listPages]

theorem mem_of_node {nodes : List Nat} {items : List Item} {M : Multiset Nat} {p : Nat}
    (hp : p ∈ nodes) : p ∈ listPages nodes items + M :=
  Multiset.mem_add.mpr (Or.inl (mem_listPages.mpr (Or.inl hp)))

theorem mem_of_item {nodes : List Nat} {items : List Item} {M : Multiset Nat} {it : Item}
    (hit : it ∈ items) : it.1 ∈ listPages nodes items + M :=
  Multiset.mem_add.mpr (Or.inl (mem_listPages.mpr (Or.inr (List.mem_map_of_mem hit))))

theorem nodup_nodes {nodes : List Nat} {items : List Item} {M : Multiset Nat}
    (h : (listPages nodes items + M).Nodup) : nodes.Nodup :=
  Multiset.coe_nodup.mp (Multiset.nodup_of_le (Multiset.le_add_right _ _)
    (Multiset.nodup_of_le (Multiset.le_add_right _ M) h))

/-- A page that is pushed becomes one the list holds. -/
theorem listPages_push (nodes : List Nat) (items : List Item) (M : Multiset Nat)
    (ptr version : Nat) : listPages nodes items + (ptr ::ₘ M) =
      listPages nodes (items ++ [(ptr, version)]) + M := by
  rw [listPages, listPages, List.map_append, ← Multiset.coe_add, List.map_singleton,
    Multiset.coe_singleton, ← Multiset.singleton_add]
  abel

/-- An item that is taken leaves it. -/
theorem listPages_take (nodes : List Nat) (it : Item) (items : List Item) (M : Multiset Nat) :
    listPages nodes (it :: items) + M = listPages nodes items + (it.1 ::ₘ M) := by
  rw [listPages, listPages, List.map_cons, ← Multiset.cons_coe, ← Multiset.singleton_add,
    ← Multiset.singleton_add]
  abel

/-- A node that is drained becomes a page to be pushed. -/
theorem listPages_drain (p : Nat) (nodes : List Nat) (items : List Item) (M : Multiset Nat) :
    listPages (p :: nodes) items + M = listPages nodes items + (p ::ₘ M) := by
  rw [listPages, listPages, ← Multiset.cons_coe, ← Multiset.singleton_add,
    ← Multiset.singleton_add]
  abel

/-- A queued page is no node. -/
theorem item_not_node {nodes : List Nat} {items : List Item} {M : Multiset Nat} {it : Item}
    (h : (listPages nodes items + M).Nodup) (hit : it ∈ items) : it.1 ∉ nodes := by
  intro hp
  have hdisj : Disjoint (nodes : Multiset Nat) _ :=
    (Multiset.nodup_add.mp (Multiset.nodup_of_le (Multiset.le_add_right _ M) h)).2.2
  exact Multiset.disjoint_left.mp hdisj (Multiset.mem_coe.mpr hp)
    (Multiset.mem_coe.mpr (List.mem_map_of_mem hit))

theorem Queue.tail_mem {fl : FreeList σ} {nodes : List Nat} {items : List Item} {used : Nat}
    (h : fl.Queue nodes items used) : fl.state.tailPage ∈ nodes := List.mem_of_getLast? h.tail

/-- **Appending an item.** -/
theorem appendItem_spec (hL : PagesLaw J D) {fl : FreeList σ} {nodes : List Nat}
    {items : List Item} {used ptr : Nat} {M : Multiset Nat} (h : fl.Queue nodes items used)
    (hJ : J fl.pages M) (hsub : ∀ p ∈ nodes, p ∈ M) (hnd : nodes.Nodup) (hused : used < freeListCap)
    (hp : ptr < 2 ^ 64) (hov : fl.state.tailSeq + 1 < 2 ^ 64 ∨ E .overflow) :
    Ends E (fun fl' => ∃ pages, fl' = { fl with pages := pages, state :=
          { fl.state with tailSeq := fl.state.tailSeq + 1 } } ∧
        fl'.Queue nodes (items ++ [(ptr, fl.version)]) (used + 1) ∧ J pages M ∧
        Footprint D fl.pages pages fl.state.tailPage used []) (fl.appendItem ptr) := by
  obtain ⟨page, hpage, hlen⟩ := h.chain.tail h.tail
  have hidx : seqToIdx fl.state.tailSeq = used := by
    rw [h.idx, Nat.mod_eq_of_lt hused]
  obtain ⟨s', hwrite, hJ', hread, hother, hdirty⟩ := hL.write
    (f := fun node => putSlot node used ptr fl.version) hJ (hsub _ h.tail_mem) hpage hlen
    (by rw [length_putSlot, hlen])
  unfold appendItem
  dsimp only
  rw [hidx]
  show Ends E _ (do
    let pages ← FreeListPages.writePage fl.pages fl.state.tailPage fun node =>
      putSlot node used ptr fl.version
    require (fl.state.tailSeq + 1 < 2 ^ 64) .overflow
    return { fl with pages := pages, state := { fl.state with tailSeq := fl.state.tailSeq + 1 } })
  rw [hwrite, ok_bind]
  by_cases hb : fl.state.tailSeq + 1 < 2 ^ 64
  · have hv : fl.version < 2 ^ 64 := lt_trans h.version (by decide)
    rw [require_pos hb, ok_bind]
    -- one slot of the tail is written, the one the counter points at
    refine ⟨s', rfl, ⟨?_, h.head, h.tail, ?_, hb, ?_, h.version, h.reader⟩, hJ', ?_⟩
    · exact h.chain.append h.tail hnd hused hp hv hpage hread hother
    · rw [List.length_append, ← Nat.add_assoc, h.seq]; rfl
    · intro it hit
      rcases List.mem_append.mp hit with hit | hit
      · exact h.freed it hit
      · rw [List.mem_singleton.mp hit]
    · refine ⟨fun q hq _ => hother q hq, fun q hq => (hdirty q hq).imp id Or.inl,
        fun page' hpage' => ?_⟩
      rw [hpage, Except.ok.injEq] at hpage'
      refine ⟨_, hread, by rw [length_putSlot, hpage'], fun i hi => ?_⟩
      rw [slotAt_putSlot_of_ne (by omega), hpage']
  · rw [require_neg hb, error_bind]
    exact hov.resolve_left hb

/-- **Linking a new tail.** -/
theorem link_spec (hL : PagesLaw J D) {fl : FreeList σ} {nodes : List Nat}
    {items : List Item} {used next : Nat} {M : Multiset Nat} (h : fl.Queue nodes items used)
    (hused : used = freeListCap) (hJ : J fl.pages M) (hsub : ∀ p ∈ nodes, p ∈ M)
    (hnd : nodes.Nodup) (hnext : next ∈ M) (hnew : next ∉ nodes) :
    ∃ pages, (FreeListPages.writePage fl.pages fl.state.tailPage fun node =>
        LNode.setNext node next) = .ok pages ∧
      Queue { fl with pages := pages, state := { fl.state with tailPage := next } }
        (nodes ++ [next]) items 0 ∧ J pages M ∧
      ∀ n, Footprint D fl.pages pages fl.state.tailPage n [] := by
  obtain ⟨page, hpage, hlen⟩ := h.chain.tail h.tail
  obtain ⟨s', hwrite, hJ', hread, hother, hdirty⟩ := hL.write
    (f := fun node => LNode.setNext node next) hJ (hsub _ h.tail_mem) hpage hlen
    (by rw [length_setNext, hlen])
  obtain ⟨page', hpage', hlen'⟩ := hL.read hJ hnext
  have hne : next ≠ fl.state.tailPage := fun he => hnew (he ▸ h.tail_mem)
  refine ⟨s', hwrite, ⟨?_, ?_, by simp, h.seq, h.bound, h.freed, h.version, h.reader⟩, hJ', ?_⟩
  · exact h.chain.link h.tail hnd hused (seqToIdx_lt _) (hL.ptr hJ next hnext).2 hpage hread
      ((hother next hne).trans hpage') hlen' fun q _ hq => hother q hq
  · have hhead := h.head
    cases nodes with
    | nil => cases hhead
    | cons p ps => exact hhead
  · refine fun n => ⟨fun q hq _ => hother q hq, fun q hq => (hdirty q hq).imp id Or.inl,
      fun page' hpage' => ?_⟩
    rw [hpage, Except.ok.injEq] at hpage'
    exact ⟨_, hread, by rw [length_setNext, hpage'], fun i _ => by rw [slotAt_setNext, hpage']⟩

/-! ## The operations -/

/-- One operation's effect: `app` was appended to the items and `out` taken from them, `new` was
linked behind the nodes and `drained` dropped before them, and nothing else was written. -/
structure Turn (D : σ → Nat → Prop) (fl fl' : FreeList σ) (nodes nodes' : List Nat)
    (items items' : List Item) (used : Nat) (app out : List Item) (new drained : List Nat) :
    Prop where
  queue : ∃ used', used' < freeListCap ∧ (new = [] → used ≤ used') ∧ fl'.Queue nodes' items' used'
  version : fl'.version = fl.version
  reader : fl'.minReader = fl.minReader
  headSeq : fl'.state.headSeq = fl.state.headSeq + out.length
  fifo : items ++ app = out ++ items'
  chain : nodes ++ new = drained ++ nodes'
  old : ∀ it ∈ out, it.2 < fl.minReader
  touched : Footprint D fl.pages fl'.pages fl.state.tailPage used new

/-- The items a version appends when it gives these pages up. -/
def freedAt (version : Nat) (ps : List Nat) : List Item := ps.map fun p => (p, version)

@[simp] theorem map_fst_freedAt (version : Nat) (ps : List Nat) :
    (freedAt version ps).map Prod.fst = ps := by
  simp [freedAt, Function.comp_def]

/-- Items that are taken come before those that are too recent. -/
theorem taken_first {items app out items' : List Item} {minReader : Nat}
    (h : items ++ app = out ++ items') (hold : ∀ it ∈ out, it.2 < minReader)
    (happ : ∀ it ∈ app, minReader ≤ it.2) :
    ∃ keep, items = out ++ keep ∧ items' = keep ++ app := by
  rcases List.append_eq_append_iff.mp h with ⟨a, hout, happ'⟩ | ⟨c, hitems, hitems'⟩
  · cases a with
    | nil =>
        rw [List.append_nil] at hout
        rw [List.nil_append] at happ'
        exact ⟨[], by rw [hout, List.append_nil], by rw [happ']; rfl⟩
    | cons x a =>
        have h1 := hold x (by rw [hout]; simp)
        have h2 := happ x (by rw [happ']; simp)
        exact absurd h1 (by omega)
  · exact ⟨c, hitems, hitems'⟩

/-- What is taken was queued before: the items appended meanwhile are too recent. -/
theorem Turn.prefix {D : σ → Nat → Prop} {fl fl' : FreeList σ} {nodes nodes' : List Nat}
    {items items' app out : List Item} {used : Nat} {new drained : List Nat}
    (ht : Turn D fl fl' nodes nodes' items items' used app out new drained)
    (happ : ∀ it ∈ app, fl.minReader ≤ it.2) :
    ∃ keep, items = out ++ keep ∧ items' = keep ++ app := taken_first ht.fifo ht.old happ

/-- A linked node comes from the list itself, or is a page that did not exist before. -/
def NewNodes (M : Multiset Nat) (out : List Item) (new : List Nat) : Prop :=
  new = out.map Prod.fst ∨ out = [] ∧ ∃ p, new = [p] ∧ p ∉ M

/-- What is given out by a pop whose head item may be seen by a reader is nothing. -/
def Blocked (minReader : Nat) (items : List Item) : Prop := ∀ it ∈ items.head?, minReader ≤ it.2

instance (minReader : Nat) (items : List Item) : Decidable (Blocked minReader items) :=
  inferInstanceAs (Decidable (∀ it ∈ items.head?, minReader ≤ it.2))

theorem exists_of_not_blocked {minReader : Nat} {items : List Item}
    (h : ¬ Blocked minReader items) : ∃ it rest, items = it :: rest ∧ it.2 < minReader := by
  cases items with
  | nil => exact absurd (fun it hit => by cases hit) h
  | cons it rest =>
      refine ⟨it, rest, rfl, Nat.lt_of_not_le fun hle => h fun it' hit => ?_⟩
      rw [List.head?_cons, Option.mem_some_iff] at hit
      rw [← hit]
      exact hle

/-- The second half of a push that filled the tail: a page is found for the new tail, linked, and a
node drained on the way is given back. -/
theorem refill_spec (hL : LawfulListPages J K D E) {fl : FreeList σ} {nodes : List Nat}
    {items : List Item} {M : Multiset Nat} {ptr : Nat}
    (h : fl.Queue nodes (items ++ [(ptr, fl.version)]) freeListCap) (hJ : J fl.pages M)
    {R : Multiset Nat} (hM : M = listPages nodes (items ++ [(ptr, fl.version)]) + R)
    (hov : fl.state.tailSeq + 1 < 2 ^ 64 ∨ E .overflow) (used : Nat) :
    Ends E (fun fl' => ∃ nodes' items' out new drained,
        Turn D fl fl' nodes nodes' (items ++ [(ptr, fl.version)]) items' used
          (freedAt fl.version drained) out new drained ∧ drained.length ≤ 1 ∧
        NewNodes M out new ∧ K fl'.pages (listPages nodes' items' + R))
      (do
        let (popped, fl) ← fl.pop
        let (next, fl) ← fl.nextNode popped
        let pages ← FreeListPages.writePage fl.pages fl.state.tailPage fun node =>
          LNode.setNext node next
        let fl := { fl with pages := pages, state := { fl.state with tailPage := next } }
        if popped.drainedHead ≠ 0 then
          fl.appendItem popped.drainedHead
        else
          return fl) := by
  have hnodup := hL.before.nodup hJ
  rw [hM] at hnodup
  have hnd := nodup_nodes hnodup
  have hsub : ∀ p ∈ nodes, p ∈ M := fun p hp => by
    rw [hM]
    exact mem_of_node hp
  by_cases hb : Blocked fl.minReader (items ++ [(ptr, fl.version)])
  · -- nothing can be reused: a page is appended
    rw [pop_blocked h hb, ok_bind]
    dsimp only
    unfold nextNode
    rw [if_neg (by simp), bind_assoc]
    refine Ends.bind (hL.append hJ) ?_
    intro r hr
    obtain ⟨p, s1⟩ := r
    obtain ⟨hJ1, hread1, hdirty1⟩ := hr
    dsimp only at hJ1 hread1 hdirty1
    -- the new page is no page of the list, so linking it keeps every node as it was
    have hfresh : p ∉ M := (Multiset.nodup_cons.mp (hL.after.nodup hJ1)).1
    have hne : fl.state.tailPage ≠ p := fun he => hfresh (he ▸ hsub _ h.tail_mem)
    have h1 : Queue { fl with pages := s1 } nodes (items ++ [(ptr, fl.version)]) freeListCap :=
      ⟨h.chain.congr fun q hq => hread1 q fun he => hfresh (he ▸ hsub q hq), h.head, h.tail, h.seq,
        h.bound, h.freed, h.version, h.reader⟩
    obtain ⟨s2, hwrite, h2, hJ2, hfoot2⟩ := link_spec hL.after h1 rfl hJ1
      (fun q hq => Multiset.mem_cons_of_mem (hsub q hq)) hnd (Multiset.mem_cons_self p M)
      fun hp => hfresh (hsub p hp)
    rw [pure_bind, hwrite, ok_bind, if_neg (by simp)]
    refine ⟨nodes ++ [p], items ++ [(ptr, fl.version)], [], [p], [],
      ⟨⟨0, by decide, by simp, h2⟩, rfl, rfl, rfl, by simp [freedAt], by simp,
        by simp, ?_⟩, by simp, Or.inr ⟨rfl, p, rfl, hfresh⟩, ?_⟩
    · have := (Footprint.other hne hread1 hdirty1).trans (hfoot2 used)
      simpa using this
    · have : p ::ₘ M = listPages (nodes ++ [p]) (items ++ [(ptr, fl.version)]) + R := by
        rw [hM, listPages, listPages, ← Multiset.coe_add, ← Multiset.singleton_add,
          Multiset.coe_singleton]
        abel
      rw [← this]
      exact hJ2
  · -- the oldest item becomes the tail
    obtain ⟨it, rest, hitems, hold⟩ := exists_of_not_blocked hb
    rw [hitems] at h hM ⊢
    -- the page just freed is too young to be reused, so the queue does not run empty
    have hkeep : rest ≠ [] := by
      intro hnil
      have hlast : it = (ptr, fl.version) := by
        have := congrArg List.getLast? hitems
        rw [hnil, List.getLast?_append, List.getLast?_singleton, List.getLast?_singleton] at this
        simpa using this.symm
      have hr := h.reader
      rw [hlast] at hold
      exact absurd hold (by simpa using hr)
    have hitM : it.1 ∈ M := by
      rw [hM]
      exact mem_of_item List.mem_cons_self
    have hitnodes : it.1 ∉ nodes := item_not_node hnodup (by rw [hitems]; exact List.mem_cons_self)
    obtain ⟨st, nodes1, drained, hpop, h1, htail, hseq2, hhead, hdrained⟩ :=
      pop_taken h hold (fun p hp => (hL.before.ptr hJ p (hsub p hp)).1) (Or.inl hkeep)
    rw [hpop, ok_bind]
    dsimp only
    unfold nextNode
    rw [if_pos (hL.before.ptr hJ _ hitM).1, pure_bind]
    -- the popped item is behind the nodes, whether or not its head is drained
    have hsub1 : ∀ p ∈ nodes1, p ∈ nodes := by
      intro p hp
      rcases hdrained with ⟨_, he⟩ | ⟨_, he⟩
      · rw [← he]; exact hp
      · rw [he]; exact List.mem_cons_of_mem _ hp
    have hnd1 : nodes1.Nodup := by
      rcases hdrained with ⟨_, he⟩ | ⟨_, he⟩
      · rw [he]; exact hnd
      · rw [he] at hnd; exact (List.nodup_cons.mp hnd).2
    obtain ⟨s2, hwrite, h2, hJ2, hfoot2⟩ := link_spec hL.before h1 rfl hJ
      (fun q hq => hsub q (hsub1 q hq)) hnd1 hitM fun hp => hitnodes (hsub1 _ hp)
    rw [hwrite, ok_bind]
    rw [htail] at hfoot2
    have hne : fl.state.tailPage ≠ it.1 := fun he => hitnodes (he ▸ h.tail_mem)
    have hold' : ∀ x ∈ [it], x.2 < fl.minReader := fun x hx => by
      rw [List.mem_singleton.mp hx]; exact hold
    rcases hdrained with ⟨hz, he⟩ | ⟨hnz, he⟩
    · -- the head keeps items: nothing is freed on the way
      rw [if_neg (by simp [hz])]
      refine ⟨nodes1 ++ [it.1], rest, [it], [it.1], [], ⟨⟨0, by decide, by simp, h2⟩, rfl, rfl,
        hhead, by simp [freedAt], by rw [he]; rfl, hold', ?_⟩, by simp, Or.inl rfl, ?_⟩
      · exact (hfoot2 used).mono fun q hq => absurd hq (by simp)
      · have : M = listPages (nodes1 ++ [it.1]) rest + R := by
          rw [hM, he, listPages, listPages, ← Multiset.coe_add, List.map_cons, ← Multiset.cons_coe,
            ← Multiset.singleton_add, Multiset.coe_singleton]
          abel
        rw [← this]
        exact hL.weaken hJ2
    · -- the head is drained: its page is the one item that is freed
      rw [if_pos hnz]
      have hndn : (nodes1 ++ [it.1]).Nodup :=
        List.nodup_append.mpr ⟨hnd1, List.nodup_singleton _, fun a ha b hb => by
          rw [List.mem_singleton.mp hb]
          exact fun hab => hitnodes (hsub1 _ (hab ▸ ha))⟩
      have hsubn : ∀ p ∈ nodes1 ++ [it.1], p ∈ M := by
        intro p hp
        rcases List.mem_append.mp hp with hp | hp
        · exact hsub p (hsub1 p hp)
        · rw [List.mem_singleton.mp hp]; exact hitM
      have hdM : drained ∈ M := hsub drained (by rw [he]; simp)
      refine (appendItem_spec hL.before h2 hJ2 hsubn hndn (by decide)
        (hL.before.ptr hJ _ hdM).2 ?_).imp ?_
      · dsimp only
        rw [hseq2]
        exact hov
      · intro fl' hfl'
        obtain ⟨s3, heq, h3, hJ3, hfoot3⟩ := hfl'
        dsimp only at h3 hfoot3
        refine ⟨nodes1 ++ [it.1], rest ++ [(drained, fl.version)], [it], [it.1], [drained],
          ⟨⟨1, by decide, by simp, h3⟩, by rw [heq], by rw [heq], by rw [heq]; exact hhead,
            by simp [freedAt], by rw [he]; simp, hold', ?_⟩, by simp, Or.inl rfl, ?_⟩
        · have := (hfoot2 used).trans (hfoot3.shift hne)
          rw [heq]
          exact this
        · have : M = listPages (nodes1 ++ [it.1]) (rest ++ [(drained, fl.version)]) + R := by
            rw [hM, he, listPages, listPages, ← Multiset.coe_add, List.map_cons,
              ← Multiset.cons_coe, ← Multiset.cons_coe, List.map_append, ← Multiset.coe_add,
              ← Multiset.singleton_add, ← Multiset.singleton_add, List.map_singleton,
              Multiset.coe_singleton, Multiset.coe_singleton]
            abel
          rw [heq, ← this]
          exact hL.weaken hJ3

/-- **`push_tail` appends the page**, and whatever node it drains on the way. -/
theorem pushTail_spec (hL : LawfulListPages J K D E) {fl : FreeList σ} {nodes : List Nat}
    {items : List Item} {used ptr : Nat} {R : Multiset Nat} (h : fl.Queue nodes items used)
    (hused : used < freeListCap) (hJ : J fl.pages (listPages nodes items + (ptr ::ₘ R)))
    (hov : fl.state.tailSeq + 2 < 2 ^ 64 ∨ E .overflow) :
    Ends E (fun fl' => ∃ nodes' items' out new drained,
        Turn D fl fl' nodes nodes' items items' used (freedAt fl.version (ptr :: drained)) out new
          drained ∧ drained.length ≤ 1 ∧
        NewNodes (listPages nodes items + (ptr ::ₘ R)) out new ∧
        K fl'.pages (listPages nodes' items' + R)) (fl.pushTail ptr) := by
  have hptr := hL.before.ptr hJ ptr (by simp)
  have hnodup := hL.before.nodup hJ
  have hnd := nodup_nodes hnodup
  have hsub : ∀ p ∈ nodes, p ∈ listPages nodes items + (ptr ::ₘ R) := fun p hp => mem_of_node hp
  have hver : versionBefore fl.version fl.minReader = false := by
    have h1 := h.version
    have h2 := h.reader
    rw [versionBefore_iff h1 (by omega), decide_eq_false (by omega)]
  unfold pushTail
  rw [require_pos hptr.1, ok_bind, require_pos hver, ok_bind]
  refine Ends.bind (appendItem_spec hL.before h hJ hsub hnd hused hptr.2 (hov.imp (by omega) id)) ?_
  intro fl1 hfl1
  obtain ⟨s1, heq, h1, hJ1, hfoot1⟩ := hfl1
  have hver1 : fl1.version = fl.version := by rw [heq]
  have htail1 : fl1.state.tailPage = fl.state.tailPage := by rw [heq]
  have hmin1 : fl1.minReader = fl.minReader := by rw [heq]
  have hpages1 : fl1.pages = s1 := by rw [heq]
  have hM := listPages_push nodes items R ptr fl.version
  rw [← hpages1] at hJ1 hfoot1
  by_cases hfull : used + 1 = freeListCap
  · -- the tail is full
    rw [if_neg (by rw [h1.idx, hfull, Nat.mod_self]; simp)]
    rw [hfull, ← hver1] at h1
    have hov1 : fl1.state.tailSeq + 1 < 2 ^ 64 ∨ E .overflow := by
      rw [heq]
      exact hov
    refine (refill_spec hL h1 hJ1 (by rw [hM, hver1]) hov1 used).imp ?_
    intro fl' hfl'
    obtain ⟨nodes', items', out, new, drained, ht, hfew, hnew, hJ'⟩ := hfl'
    rw [hver1] at ht
    refine ⟨nodes', items', out, new, drained, ⟨ht.queue, ht.version.trans hver1,
      ht.reader.trans hmin1, ht.headSeq.trans (by rw [heq]), ?_, ht.chain,
      by rw [← hmin1]; exact ht.old, ?_⟩, hfew, hnew, hJ'⟩
    · rw [← ht.fifo]
      simp [freedAt]
    · have := ht.touched
      rw [htail1] at this
      exact hfoot1.trans this
  · -- the tail has room left
    have hlt : used + 1 < freeListCap := by omega
    rw [if_pos (by rw [h1.idx, Nat.mod_eq_of_lt hlt]; omega)]
    refine ⟨nodes, items ++ [(ptr, fl.version)], [], [], [],
      ⟨⟨used + 1, hlt, fun _ => Nat.le_succ _, h1⟩, hver1, hmin1,
        by rw [heq]; rfl, by simp [freedAt], by simp, by simp, hfoot1⟩, by simp, Or.inl rfl, ?_⟩
    rw [← hM]
    exact hL.weaken hJ1

/-- **`pop_head` gives out nothing while the oldest item may be seen.** -/
theorem popHead_blocked {fl : FreeList σ} {nodes : List Nat} {items : List Item} {used : Nat}
    (h : fl.Queue nodes items used) (hb : Blocked fl.minReader items) :
    fl.popHead = .ok (0, fl) := by
  unfold popHead
  rw [pop_blocked h hb, ok_bind]
  rfl

/-- **`pop_head` gives out the oldest item**, and takes back the node it drained. -/
theorem popHead_spec (hL : LawfulListPages J K D E) {fl : FreeList σ} {nodes : List Nat} {it : Item}
    {items : List Item} {used : Nat} {R : Multiset Nat} (h : fl.Queue nodes (it :: items) used)
    (hused : used < freeListCap) (hold : it.2 < fl.minReader)
    (hJ : J fl.pages (listPages nodes (it :: items) + R))
    (hov : fl.state.tailSeq + 2 < 2 ^ 64 ∨ E .overflow) :
    Ends E (fun r => r.1 = it.1 ∧ ∃ nodes' items' out new drained,
        Turn D fl r.2 nodes nodes' (it :: items) items' used (freedAt fl.version drained)
          (it :: out) new drained ∧ drained.length ≤ 2 ∧
        NewNodes (listPages nodes (it :: items) + R) out new ∧
        K r.2.pages (listPages nodes' items' + (it.1 ::ₘ R))) fl.popHead := by
  have hM := fun ns => listPages_take ns it items R
  have hsub : ∀ p ∈ nodes, p ∈ listPages nodes (it :: items) + R := fun p hp => mem_of_node hp
  obtain ⟨st, nodes1, drained, hpop, h1, htail, hseq, hhead, hdrained⟩ :=
    pop_taken h hold (fun p hp => (hL.before.ptr hJ p (hsub p hp)).1) (Or.inr hused)
  unfold popHead
  rw [hpop, ok_bind]
  dsimp only
  rcases hdrained with ⟨hz, he⟩ | ⟨hnz, he⟩
  · -- the head keeps items: it stays where it is
    rw [if_neg (by simp [hz])]
    refine ⟨rfl, nodes, items, [], [], [],
      ⟨⟨used, hused, fun _ => le_refl _, by rw [← he]; exact h1⟩, rfl, rfl, hhead,
        by simp [freedAt], by simp, fun x hx => by rw [List.mem_singleton.mp hx]; exact hold,
        Footprint.refl _ _ _⟩, by simp, Or.inl rfl, ?_⟩
    rw [← hM]
    exact hL.weaken hJ
  · -- the drained node is pushed
    rw [if_pos hnz]
    have hM1 : listPages nodes (it :: items) + R =
        listPages nodes1 items + (drained ::ₘ (it.1 ::ₘ R)) := by
      rw [hM, he, listPages_drain]
    rw [hM1] at hJ
    refine Ends.bind (pushTail_spec hL h1 hused hJ (by dsimp only; rw [hseq]; exact hov)) ?_
    intro fl' hfl'
    obtain ⟨nodes', items', out, new, drained', ht, hfew, hnew, hJ'⟩ := hfl'
    have htouched := ht.touched
    dsimp only at htouched
    rw [htail] at htouched
    refine ⟨rfl, nodes', items', out, new, drained :: drained', ⟨ht.queue, ht.version, ht.reader,
      ?_, ?_, ?_, ?_, htouched⟩, by rw [List.length_cons]; omega, by rw [hM1]; exact hnew, hJ'⟩
    · rw [ht.headSeq, List.length_cons]
      dsimp only
      omega
    · rw [List.cons_append, List.cons_append, ht.fifo]
    · rw [he, List.cons_append, ht.chain, List.cons_append]
    · intro x hx
      rcases List.mem_cons.mp hx with hx | hx
      · rw [hx]; exact hold
      · exact ht.old x hx

end FreeList

/-! ## Reading the list off its pages -/

/-- `n` more nodes after `p`, by the `next` pointers. -/
def chainFrom (read : Nat → Except Fault Bytes) : Nat → Nat → List Nat
  | 0, p => [p]
  | n + 1, p => p :: match read p with
      | .ok page => chainFrom read n (LNode.next page)
      | .error _ => []

namespace FreeList

variable {σ : Type} [FreeListPages σ]

/-- The list's nodes, from `head_page` to `tail_page`. -/
def nodes (fl : FreeList σ) : List Nat :=
  chainFrom (FreeListPages.readPage fl.pages)
    (fl.state.tailSeq / freeListCap - fl.state.headSeq / freeListCap) fl.state.headPage

/-- The item at a position of the list. -/
def itemAt (fl : FreeList σ) (seq : Nat) : Item :=
  match FreeListPages.readPage fl.pages
      (fl.nodes.getD (seq / freeListCap - fl.state.headSeq / freeListCap) 0) with
  | .ok page => slotAt page (seqToIdx seq)
  | .error _ => (0, 0)

/-- The live items, those at the positions from `head_seq` to `tail_seq`. -/
def items (fl : FreeList σ) : List Item :=
  (List.range (fl.state.tailSeq - fl.state.headSeq)).map fun i => fl.itemAt (fl.state.headSeq + i)

end FreeList

/-- Full nodes and the tail's slots are all the slots there are. -/
theorem Chain.count {off used : Nat} {nodes : List Nat} {items : List Item}
    (h : Chain read off nodes items used) :
    off + items.length = (nodes.length - 1) * freeListCap + used := by
  induction h with
  | last _ _ hu _ _ => simp [hu]
  | more _ _ _ hfull _ _ _ ih =>
      rw [List.length_append, ← Nat.add_assoc, hfull]
      simp only [List.length_cons, Nat.add_sub_cancel] at ih ⊢
      rw [Nat.add_mul]
      omega

theorem Chain.walk {off used p : Nat} {nodes : List Nat} {items : List Item}
    (h : Chain read off nodes items used) (hp : nodes.head? = some p) :
    chainFrom read (nodes.length - 1) p = nodes := by
  induction h generalizing p with
  | last _ _ _ _ _ =>
      rw [List.head?_cons, Option.some.injEq] at hp
      rw [hp]
      rfl
  | more hread _ _ _ _ hnext _ ih =>
      rw [List.head?_cons, Option.some.injEq] at hp
      rw [← hp]
      simp only [List.length_cons, Nat.add_sub_cancel] at ih ⊢
      rw [chainFrom, hread]
      dsimp only
      rw [hnext, ih rfl]

theorem Chain.getItem {off used i : Nat} {nodes : List Nat} {items : List Item} {it : Item}
    (h : Chain read off nodes items used) (hoff : off < freeListCap) (hi : items[i]? = some it)
    (hused : used < freeListCap) :
    ∃ p page, nodes[(off + i) / freeListCap]? = some p ∧ read p = .ok page ∧
      slotAt page ((off + i) % freeListCap) = it := by
  have hcap : 0 < freeListCap := by decide
  induction h generalizing i with
  | last hread _ hu _ hit =>
      have hlt := (List.getElem?_eq_some_iff.mp hi).1
      refine ⟨_, _, ?_, hread, ?_⟩
      · rw [Nat.div_eq_of_lt (by omega)]; rfl
      · rw [Nat.mod_eq_of_lt (by omega)]; exact hit i it hi
  | @more off used p q page xs ys ps hread _ _ hfull hit _ _ ih =>
      by_cases hlt : i < xs.length
      · rw [List.getElem?_append_left hlt] at hi
        refine ⟨p, page, ?_, hread, ?_⟩
        · rw [Nat.div_eq_of_lt (by omega)]; rfl
        · rw [Nat.mod_eq_of_lt (by omega)]; exact hit i it hi
      · rw [List.getElem?_append_right (by omega)] at hi
        obtain ⟨p', page', h1, h2, h3⟩ := ih hcap hi hused
        have hidx : off + i = (0 + (i - xs.length)) + freeListCap := by omega
        refine ⟨p', page', ?_, h2, ?_⟩
        · rw [hidx, Nat.add_div_right _ hcap]
          exact h1
        · rw [hidx, Nat.add_mod_right]
          exact h3

namespace FreeList

variable {σ : Type} [FreeListPages σ]

/-- The nodes a queue is in are the nodes its pages name. -/
theorem Queue.nodes_eq {fl : FreeList σ} {nodes : List Nat} {items : List Item} {used : Nat}
    (h : fl.Queue nodes items used) (hused : used < freeListCap) : fl.nodes = nodes := by
  have hcount := h.chain.count
  have hseq := h.seq
  have hlen : fl.state.tailSeq / freeListCap - fl.state.headSeq / freeListCap = nodes.length - 1 := by
    unfold seqToIdx at hcount
    rw [freeListCap_eq] at hcount hused ⊢
    omega
  rw [FreeList.nodes, hlen]
  exact h.chain.walk h.head

/-- **And its items are the items its pages hold.** -/
theorem Queue.items_eq {fl : FreeList σ} {nodes : List Nat} {items : List Item} {used : Nat}
    (h : fl.Queue nodes items used) (hused : used < freeListCap) : fl.items = items := by
  have hnodes := h.nodes_eq hused
  have hseq := h.seq
  refine List.ext_getElem? fun i => ?_
  rw [FreeList.items, List.getElem?_map, show fl.state.tailSeq - fl.state.headSeq = items.length by
    omega]
  by_cases hi : i < items.length
  · obtain ⟨p, page, h1, h2, h3⟩ := h.chain.getItem (seqToIdx_lt _) (List.getElem?_eq_getElem hi) hused
    rw [List.getElem?_range hi, Option.map_some, List.getElem?_eq_getElem hi]
    have hidx : (fl.state.headSeq + i) / freeListCap - fl.state.headSeq / freeListCap =
        (seqToIdx fl.state.headSeq + i) / freeListCap := by
      unfold seqToIdx
      rw [freeListCap_eq]
      omega
    have hmod : seqToIdx (fl.state.headSeq + i) =
        (seqToIdx fl.state.headSeq + i) % freeListCap := by
      unfold seqToIdx
      rw [Nat.mod_add_mod]
    rw [itemAt, hidx, hnodes, List.getD_eq_getElem?_getD, h1, Option.getD_some, h2, hmod]
    exact congrArg some h3
  · rw [List.getElem?_eq_none (by simpa using hi), List.getElem?_eq_none (by simpa using hi)]
    rfl

end FreeList

end SqlDb
