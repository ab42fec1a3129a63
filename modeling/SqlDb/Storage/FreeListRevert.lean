import SqlDb.Storage.FreeListPair
import SqlDb.Storage.FreeListRun

/-!
# Reverting the free list

An update that fails gives up every page it took and forgets every page it freed, by
setting the counters back; the pages themselves are not restored. That is enough because
the update wrote no slot that was in use, and because what it did write is not read: a
list does what its items and nodes make it do.
-/

namespace SqlDb

open Outcome FreeList

/-! ## What later calls see -/

/-- Two memories that append the same page. -/
def ListMemory.SameFresh (s t : ListMemory) : Prop := s.fresh = t.fresh

theorem ListMemory.pairLaw : PairLaw ListMemory.SameFresh where
  write h hs ht := by
    obtain rfl := Except.ok.inj hs
    obtain rfl := Except.ok.inj ht
    exact h
  append {s t} h := by
    show Alike _ s.append t.append
    unfold append
    rw [← show s.fresh = t.fresh from h]
    cases s.fresh with
    | none => exact .error _
    | some p => exact ⟨rfl, rfl⟩

/-- **One call**, whichever it is, does the same to two lists in step. -/
theorem ListOp.call_inStep (op : ListOp) (fl fl' : FreeList ListMemory) {nodes : List Nat}
    {items : List Item} {used N : Nat} {W : Multiset Nat} (h : InStep fl fl' nodes items used)
    (hused : used < freeListCap)
    (hJ : Both (ListMemory.Appendable N) ListMemory.SameFresh fl.pages fl'.pages
      (listPages nodes items + ((op.given : Multiset Nat) + W))) :
    Alike (fun r r' => r'.1 = r.1 ∧ StillInStep ListMemory.SameFresh r.2 r'.2) (op.call fl)
      (op.call fl') := by
  cases op with
  | push ptr =>
      have hW : ((ListOp.push ptr).given : Multiset Nat) + W = ptr ::ₘ W := by
        simp [ListOp.given]
      rw [hW] at hJ
      refine (pushTail_inStep (ListMemory.lawful N) ListMemory.pairLaw h hused hJ).bind ?_
      intro a b hab
      exact ⟨rfl, hab⟩
  | pop => exact popHead_inStep (ListMemory.lawful N) ListMemory.pairLaw h hused hJ

/-- The same call, whatever the pages hold by then. -/
structure ListTurn.SameCall (t t' : ListTurn) : Prop where
  op : t'.op = t.op
  version : t'.version = t.version
  reader : t'.minReader = t.minReader
  fresh : t'.fresh = t.fresh

namespace ListWorld

/-- The same queue in the same nodes, and the same pages handed out. -/
structure Matches (w w' : ListWorld) : Prop where
  state : w'.list.state = w.list.state
  nodes : w'.list.nodes = w.list.nodes
  items : w'.list.items = w.list.items
  out : w'.out = w.out

/-- A turn's call leaves the list it is said to. -/
theorem call_of_turn {w w' : ListWorld} {t : ListTurn} {ret : Nat}
    (h : w.turn t = .ok (ret, w')) :
    t.op.call (w.before t) = .ok (ret, w'.list) ∧ w'.out = handed ret ++ w.kept t := by
  obtain ⟨⟨ret1, list⟩, hcall, heq⟩ := bind_eq_ok.mp h
  obtain ⟨rfl, rfl⟩ := Prod.mk.inj (Except.ok.inj heq)
  exact ⟨hcall, rfl⟩

/-- **A turn** leaves worlds that match such worlds, and gives out the same page. -/
theorem Matches.turn {w w' : ListWorld} {n : Nat} {t t' : ListTurn} (hm : w.Matches w')
    (h : w.Inv n) (h' : w'.Inv n) (ht : w.Allowed t) (ht' : w'.Allowed t') (hs : t.SameCall t')
    (hn : 2 * n + 2 < 2 ^ 64) :
    ∃ ret a b, w.turn t = .ok (ret, a) ∧ w'.turn t' = .ok (ret, b) ∧ a.Inv (n + 1) ∧
      b.Inv (n + 1) ∧ a.Matches b := by
  obtain ⟨ret, a, ha, hia, _⟩ := turn_spec h ht (h.below ht) hn
  obtain ⟨ret', b, hb, hib, _⟩ := turn_spec h' ht' (h'.below ht') hn
  obtain ⟨hcall, hout⟩ := call_of_turn ha
  obtain ⟨hcall', hout'⟩ := call_of_turn hb
  obtain ⟨used, hused, hq⟩ := h.before ht
  obtain ⟨used', hused', hq'⟩ := h'.before ht'
  rw [hm.nodes, hm.items] at hq'
  -- equal counters point at the same slot
  have hue : used' = used := by
    have h1 := hq.idx
    have h2 := hq'.idx
    rw [Nat.mod_eq_of_lt hused] at h1
    rw [Nat.mod_eq_of_lt hused'] at h2
    rw [← h1, ← h2]
    exact congrArg (fun st => seqToIdx st.tailSeq) hm.state
  have hkept : w'.kept t' = w.kept t := by
    rw [kept, kept, hm.out, hs.op]
  have hJ' := h'.appendable ht' (h'.below ht')
  rw [hm.nodes, hm.items, hs.op, hkept] at hJ'
  rw [hs.op] at hcall'
  have hstep := t.op.call_inStep (w.before t) (w'.before t')
    ⟨hq, hue ▸ hq', hm.state, hs.version, hs.reader⟩ hused
    ⟨h.appendable ht (h.below ht), hJ', congrArg some hs.fresh.symm⟩
  rw [hcall, hcall'] at hstep
  obtain ⟨hret, _, nodes1, items1, used1, hused1, hin⟩ := hstep
  obtain rfl : ret' = ret := hret
  refine ⟨ret', a, b, ha, hb, hia, hib, hin.state, ?_, ?_, ?_⟩
  · rw [hin.right.nodes_eq hused1, hin.left.nodes_eq hused1]
  · rw [hin.right.items_eq hused1, hin.left.items_eq hused1]
  · rw [hout', hout, hkept]

/-- The pages given out, call by call, and the world that is left. -/
def trace (w : ListWorld) : List ListTurn → Except Fault (List Nat × ListWorld)
  | [] => .ok ([], w)
  | t :: turns => do
      let (ret, w) ← w.turn t
      let (rets, w) ← trace w turns
      return (ret :: rets, w)

/-- Any number of turns. -/
theorem Matches.trace {w w' : ListWorld} {n : Nat} {turns turns' : List ListTurn}
    (hm : w.Matches w') (h : w.Inv n) (h' : w'.Inv n) (hallow : w.Allows turns)
    (hallow' : w'.Allows turns') (hs : List.Forall₂ ListTurn.SameCall turns turns')
    (hn : n + turns.length < 2 ^ 63) :
    ∃ rets a b, w.trace turns = .ok (rets, a) ∧ w'.trace turns' = .ok (rets, b) ∧ a.Matches b := by
  induction hs generalizing w w' n with
  | nil => exact ⟨[], w, w', rfl, rfl, hm⟩
  | cons hs _ ih =>
      rw [List.length_cons] at hn
      obtain ⟨ret, w1, w1', ht, ht', h1, h1', hm1⟩ :=
        hm.turn h h' hallow.1 hallow'.1 hs (by omega)
      obtain ⟨rets, a, b, ha, hb, hab⟩ :=
        ih hm1 h1 h1' (hallow.2 ret w1 ht) (hallow'.2 ret w1' ht') (by omega)
      refine ⟨ret :: rets, a, b, ?_, ?_, hab⟩
      · rw [ListWorld.trace, ht, ok_bind]
        dsimp only
        rw [ha]
        rfl
      · rw [ListWorld.trace, ht', ok_bind]
        dsimp only
        rw [hb]
        rfl

/-! ## What an update may not touch -/

/-- What a list with the items and nodes of `s` reads is as in `s`: every node but the tail, which
is full and names the next one, and the tail's slots that are in use. -/
structure Untouched (s w : ListWorld) : Prop where
  nodes : ∀ p ∈ s.list.nodes, p ≠ s.list.state.tailPage → w.list.pages.mem p = s.list.pages.mem p
  slots : ∀ i < seqToIdx s.list.state.tailSeq,
    slotAt (w.list.pages.mem s.list.state.tailPage) i =
      slotAt (s.list.pages.mem s.list.state.tailPage) i

/-- One more turn of an update: its version and oldest reader are fixed, and pages are written by
their owners, so that what the list holds is as the list left it. -/
structure InUpdate (w : ListWorld) (version minReader : Nat) (t : ListTurn) : Prop where
  allowed : w.Allowed t
  version : t.version = version
  reader : t.minReader = minReader
  owners : ∀ p ∈ w.owned, p ∉ w.out → t.mem p = w.list.pages.mem p

/-- Every turn is one of the update's. -/
def Update (version minReader : Nat) (w : ListWorld) : List ListTurn → Prop
  | [] => True
  | t :: turns => w.InUpdate version minReader t ∧
      ∀ ret w', w.turn t = .ok (ret, w') → Update version minReader w' turns

/-- Where an update that began in `s` has got to: it took the oldest items, appended items of its
own version, and linked nodes that are none of `s`. -/
structure Updating (s w : ListWorld) (version minReader : Nat) : Prop where
  untouched : s.Untouched w
  moved : ∃ taken keep freed new drained, s.list.items = taken ++ keep ∧
    w.list.items = keep ++ freedAt version freed ∧ s.list.nodes ++ new = drained ++ w.list.nodes ∧
    (∀ p ∈ drained, p ∈ freed) ∧ (∀ p ∈ new, p ∉ s.list.nodes) ∧
    (new = [] → seqToIdx s.list.state.tailSeq ≤ seqToIdx w.list.state.tailSeq)

theorem Updating.refl (s : ListWorld) (version minReader : Nat) :
    s.Updating s version minReader where
  untouched := ⟨fun _ _ _ => rfl, fun _ _ => rfl⟩
  moved := ⟨[], s.list.items, [], [], [], rfl, (List.append_nil _).symm, List.append_nil _,
    fun _ hp => hp, fun _ hp => absurd hp List.not_mem_nil, fun _ => le_refl _⟩

/-- The nodes it began with are still the list's. -/
theorem Updating.node {s w : ListWorld} {version minReader p : Nat}
    (h : s.Updating w version minReader) (hp : p ∈ s.list.nodes) :
    p ∈ w.list.nodes ∨ p ∈ w.list.items.map Prod.fst := by
  obtain ⟨taken, keep, freed, new, drained, _, hitems, hnodes, hdrained, _⟩ := h.moved
  have hmem : p ∈ drained ++ w.list.nodes := by
    rw [← hnodes]
    exact List.mem_append_left _ hp
  rcases List.mem_append.mp hmem with hd | hw
  · rw [hitems, List.map_append, map_fst_freedAt]
    exact Or.inr (List.mem_append_right _ (hdrained p hd))
  · exact Or.inl hw

/-- The tail it writes is the one it began with, or one it linked. -/
theorem tail_of_moved {s w : ListWorld} {new drained : List Nat} {n m : Nat} (hs : s.Inv n)
    (hw : w.Inv m) (hnodes : s.list.nodes ++ new = drained ++ w.list.nodes) :
    new = [] ∧ w.list.state.tailPage = s.list.state.tailPage ∨ w.list.state.tailPage ∈ new := by
  obtain ⟨_, _, hqs⟩ := hs.queue
  obtain ⟨_, _, hqw⟩ := hw.queue
  have hlast := congrArg List.getLast? hnodes
  rw [List.getLast?_append_of_ne_nil _ hqw.chain.ne_nil, hqw.tail] at hlast
  by_cases hnew : new = []
  · rw [hnew, List.append_nil, hqs.tail, Option.some.injEq] at hlast
    exact Or.inl ⟨hnew, hlast.symm⟩
  · rw [List.getLast?_append_of_ne_nil _ hnew] at hlast
    exact Or.inr (List.mem_of_getLast? hlast)

/-- Nobody else writes to the nodes it began with. -/
theorem Updating.owner {s w : ListWorld} {version minReader m p : Nat} {t : ListTurn}
    (h : s.Updating w version minReader) (hw : w.Inv m) (ht : w.InUpdate version minReader t)
    (hp : p ∈ s.list.nodes) : t.mem p = w.list.pages.mem p := by
  have hlist : p ∈ w.list.nodes ++ w.list.items.map Prod.fst := List.mem_append.mpr (h.node hp)
  refine ht.owners p (List.mem_append_left _ hlist) fun hout => ?_
  exact (List.nodup_append.mp hw.nodup).2.2 p hlist p hout rfl

/-- A call writes to the tail, past the slots in use, and to nodes it links. -/
theorem Untouched.call {s w : ListWorld} {fl fl' : FreeList ListMemory} {used n m : Nat}
    {new drained new' : List Nat} (h : s.Untouched w) (hs : s.Inv n) (hw : w.Inv m)
    (hmem : ∀ p ∈ s.list.nodes, fl.pages.mem p = w.list.pages.mem p)
    (htail : fl.state.tailPage = w.list.state.tailPage)
    (hnodes : s.list.nodes ++ new = drained ++ w.list.nodes)
    (hnew : ∀ p ∈ new, p ∉ s.list.nodes) (hnew' : ∀ p ∈ new', p ∉ s.list.nodes)
    (hused : new = [] → seqToIdx s.list.state.tailSeq ≤ used)
    (hf : Footprint (fun _ _ => True) fl.pages fl'.pages fl.state.tailPage used new') :
    (∀ p ∈ s.list.nodes, p ≠ s.list.state.tailPage →
        fl'.pages.mem p = s.list.pages.mem p) ∧
      ∀ i < seqToIdx s.list.state.tailSeq, slotAt (fl'.pages.mem s.list.state.tailPage) i =
        slotAt (s.list.pages.mem s.list.state.tailPage) i := by
  obtain ⟨_, _, hqs⟩ := hs.queue
  have hother : ∀ p ∈ s.list.nodes, p ≠ w.list.state.tailPage →
      fl'.pages.mem p = w.list.pages.mem p := by
    intro p hp hne
    have := hf.read p (by rw [htail]; exact hne) fun hm => hnew' p hm hp
    rw [← hmem p hp]
    exact Except.ok.inj this
  rcases tail_of_moved hs hw hnodes with ⟨hnil, he⟩ | hmem'
  · -- no node was linked yet
    refine ⟨fun p hp hne => (hother p hp (he ▸ hne)).trans (h.nodes p hp hne), fun i hi => ?_⟩
    obtain ⟨page, hpage, _, hslots⟩ := hf.kept _ rfl
    obtain rfl := Except.ok.inj hpage
    rw [htail, he] at hslots
    rw [← h.slots i hi, ← hmem _ hqs.tail_mem]
    exact hslots i (lt_of_lt_of_le hi (hused hnil))
  · -- the tail is a linked node, and the old one is full
    have hne : ∀ p ∈ s.list.nodes, p ≠ w.list.state.tailPage := fun p hp he =>
      hnew _ hmem' (he ▸ hp)
    refine ⟨fun p hp hp' => (hother p hp (hne p hp)).trans (h.nodes p hp hp'), fun i hi => ?_⟩
    rw [hother _ hqs.tail_mem (hne _ hqs.tail_mem)]
    exact h.slots i hi

/-- **One call of an update.** -/
theorem Updating.turn {s w : ListWorld} {version minReader n m : Nat} {t : ListTurn}
    (h : s.Updating w version minReader) (hs : s.Inv n) (hw : w.Inv m)
    (ht : w.InUpdate version minReader t) (hm : 2 * m + 2 < 2 ^ 64) :
    ∃ ret w', w.turn t = .ok (ret, w') ∧ w'.Inv (m + 1) ∧ s.Updating w' version minReader := by
  have hbelow := hw.below ht.allowed
  obtain ⟨ret, w', hok, hw', _⟩ := turn_spec hw ht.allowed hbelow hm
  refine ⟨ret, w', hok, hw', ?_⟩
  obtain ⟨used, hused, hq⟩ := hw.before ht.allowed
  have hov : (w.before t).state.tailSeq + 2 < 2 ^ 64 := by
    have := hw.seq
    show w.list.state.tailSeq + 2 < 2 ^ 64
    omega
  obtain ⟨ret', fl', hcall, nodes', items', out, inner, new', drained', hturn, _, hnew', _, hout,
    _⟩ := t.op.call_spec hq hused (hw.appendable ht.allowed hbelow) hov
  rw [(call_of_turn hok).1, Except.ok.injEq, Prod.mk.injEq] at hcall
  obtain ⟨_, rfl⟩ := hcall
  obtain ⟨used', hused', hgrow, hq'⟩ := hturn.queue
  have hidx : seqToIdx w.list.state.tailSeq = used := hq.idx.trans (Nat.mod_eq_of_lt hused)
  have hidx' : seqToIdx w'.list.state.tailSeq = used' := hq'.idx.trans (Nat.mod_eq_of_lt hused')
  obtain ⟨taken, keep, freed, new, drained, hitems, hitemsw, hnodes, hdrained, hnew, htail⟩ :=
    h.moved
  -- what the call takes was queued when the update began
  have hrecent : ∀ ps, ∀ it ∈ freedAt t.version ps, t.minReader ≤ it.2 := by
    intro ps it hit
    obtain ⟨p, _, rfl⟩ := List.mem_map.mp hit
    exact ht.allowed.reader
  obtain ⟨left, hleft, hitems'⟩ := hturn.prefix (hrecent _)
  have hqueue : keep ++ freedAt t.version freed = out ++ left := by
    rw [← hleft, hitemsw, ht.version]
  obtain ⟨keep', hkeep, hleft'⟩ := taken_first hqueue hturn.old (hrecent _)
  -- so that a node the call links is none the update began with
  have hfresh : ∀ p ∈ new', p ∉ s.list.nodes := by
    intro p hp hps
    rcases hnew' with he | ⟨_, q, he, hq⟩
    · have hp' : p ∈ out.map Prod.fst := by
        rw [hout, ← he]
        exact List.mem_append_right _ hp
      obtain ⟨it, hit, rfl⟩ := List.mem_map.mp hp'
      have hits : it ∈ s.list.items := by
        rw [hitems, hkeep]
        exact List.mem_append_right _ (List.mem_append_left _ hit)
      have hnd := Multiset.coe_nodup.mpr hs.nodup
      rw [coe_owned] at hnd
      exact item_not_node hnd hits hps
    · rw [he, List.mem_singleton] at hp
      rw [hp] at hps
      exact hq (Multiset.mem_add.mpr (Or.inl (mem_listPages.mpr (h.node hps))))
  have hmem : ∀ p ∈ s.list.nodes, (w.before t).pages.mem p = w.list.pages.mem p :=
    fun p hp => h.owner hw ht hp
  have htailp : (w.before t).state.tailPage = w.list.state.tailPage := rfl
  obtain ⟨hread, hslots⟩ := h.untouched.call hs hw hmem htailp hnodes hnew hfresh
    (fun hnil => hidx ▸ htail hnil) hturn.touched
  refine ⟨⟨hread, hslots⟩, taken ++ out, keep', freed ++ (t.op.given ++ drained'), new ++ new',
    drained ++ drained', ?_, ?_, ?_, ?_, ?_, ?_⟩
  · rw [hitems, hkeep, List.append_assoc]
  · -- the items: what the update leaves of the old ones, then all it freed
    have happ : freedAt t.version freed ++ freedAt (w.before t).version (t.op.given ++ drained') =
        freedAt t.version (freed ++ (t.op.given ++ drained')) := List.map_append.symm
    rw [hq'.items_eq hused', hitems', hleft', ← ht.version, List.append_assoc, happ]
  · rw [← List.append_assoc, hnodes, List.append_assoc, hturn.chain, hq'.nodes_eq hused',
      List.append_assoc]
  · intro p hp
    rcases List.mem_append.mp hp with hp | hp
    · exact List.mem_append_left _ (hdrained p hp)
    · exact List.mem_append_right _ (List.mem_append_right _ hp)
  · intro p hp
    rcases List.mem_append.mp hp with hp | hp
    · exact hnew p hp
    · exact hfresh p hp
  · intro hnil
    -- no node linked so far: the counters grew by what was appended
    obtain ⟨h1, h2⟩ := List.append_eq_nil_iff.mp hnil
    have h3 := htail h1
    have h4 := hgrow h2
    omega

/-- Any number of calls. -/
theorem Updating.run {s w : ListWorld} {version minReader n m : Nat} {turns : List ListTurn}
    (h : s.Updating w version minReader) (hs : s.Inv n) (hw : w.Inv m)
    (ht : Update version minReader w turns) (hm : m + turns.length < 2 ^ 63) :
    ∃ w', w.run turns = .ok w' ∧ w'.Inv (m + turns.length) ∧ s.Updating w' version minReader := by
  induction turns generalizing w m with
  | nil => exact ⟨w, rfl, hw, h⟩
  | cons t turns ih =>
      rw [List.length_cons] at hm ⊢
      obtain ⟨ret, w1, hok, hw1, h1⟩ := h.turn hs hw ht.1 (by omega)
      obtain ⟨w', hrun, hw', h'⟩ := ih h1 hw1 (ht.2 ret w1 hok) (by omega)
      refine ⟨w', ?_, by rw [show m + (turns.length + 1) = m + 1 + turns.length by omega]; exact hw',
        h'⟩
      rw [ListWorld.run, hok, ok_bind]
      exact hrun

theorem Update.take {version minReader : Nat} {turns : List ListTurn} :
    ∀ {w : ListWorld} (k : Nat), Update version minReader w turns →
      Update version minReader w (turns.take k) := by
  induction turns with
  | nil => intro w k _; rw [List.take_nil]; trivial
  | cons t turns ih =>
      intro w k h
      cases k with
      | zero => trivial
      | succ k => exact ⟨h.1, fun ret w' hok => ih k (h.2 ret w' hok)⟩

/-! ## Reverting -/

/-- `revert(s)` after other calls. What they did to the pages stays; the versions are the caller's,
who sets them for the next call. -/
def reverted (w s : ListWorld) : ListWorld :=
  { s with list :=
      { w.list.revert s.list.state with
        version := s.list.version
        minReader := s.list.minReader } }

/-- **The list that is left is the one the update began with**, in the same nodes. -/
theorem reverted_matches {s w : ListWorld} {n m : Nat} (hs : s.Inv n) (hw : w.Inv m)
    (h : s.Untouched w) : (w.reverted s).Inv n ∧ s.Matches (w.reverted s) := by
  obtain ⟨used, hused, hq⟩ := hs.queue
  have hidx : seqToIdx s.list.state.tailSeq = used := hq.idx.trans (Nat.mod_eq_of_lt hused)
  have hnd := Multiset.coe_nodup.mpr hs.nodup
  rw [coe_owned] at hnd
  have hq' : (w.reverted s).list.Queue s.list.nodes s.list.items used := by
    refine ⟨?_, hq.head, hq.tail, hq.seq, hq.bound, hq.freed, hq.version, hq.reader⟩
    refine hq.chain.retail hq.tail (nodup_nodes hnd) rfl rfl ?_ ?_ fun p hp hne => ?_
    · exact (hw.mem _).trans (hs.mem _).symm
    · rw [← hidx]
      exact h.slots
    · exact congrArg Except.ok (h.nodes p hp hne)
  have hnodes := hq'.nodes_eq hused
  have hitems := hq'.items_eq hused
  have howned : (w.reverted s).owned = s.owned := by
    rw [owned, owned, hnodes, hitems]
    rfl
  refine ⟨⟨⟨used, hused, by rw [hnodes, hitems]; exact hq'⟩, by rw [howned]; exact hs.nodup,
    by rw [howned]; exact hs.ptr, hw.mem, by rw [howned]; exact hs.given, ?_, hs.seq⟩, rfl, hnodes,
    hitems, rfl⟩
  rw [hitems]
  exact hs.fifo

end ListWorld

/-- **Reverting restores the list exactly.** An update makes any calls it likes, and what it is
handed out is overwritten. No call of it touches a slot in use, the `next` of a full node, or a
node but the tail; once it is reverted the list holds the items it held, and every later call gives
out the page it would have, had the update not been. -/
theorem FreeList.revert_restores {w s : ListWorld} (h : w.Initial) {turns update : List ListTurn}
    {version minReader : Nat} (hallow : w.Allows turns) (hs : w.run turns = .ok s)
    (hupdate : ListWorld.Update version minReader s update)
    (hcount : turns.length + update.length < 2 ^ 63) :
    (∀ k, ∃ v, s.run (update.take k) = .ok v ∧ s.Untouched v) ∧
    ∃ u, s.run update = .ok u ∧ (u.reverted s).list.items = s.list.items ∧
      (u.reverted s).list.nodes = s.list.nodes ∧
      ∀ later later', s.Allows later → (u.reverted s).Allows later' →
        List.Forall₂ ListTurn.SameCall later later' → turns.length + later.length < 2 ^ 63 →
        ∃ rets a b, s.trace later = .ok (rets, a) ∧ (u.reverted s).trace later' = .ok (rets, b) ∧
          a.Matches b := by
  obtain ⟨s', hs', hinv⟩ := ListWorld.run_spec h.inv hallow (by omega)
  obtain rfl : s' = s := Except.ok.inj (hs'.symm.trans hs)
  rw [Nat.zero_add] at hinv
  have hrefl := ListWorld.Updating.refl s' version minReader
  refine ⟨fun k => ?_, ?_⟩
  · obtain ⟨v, hv, _, hup⟩ := hrefl.run hinv hinv (hupdate.take k)
      (by rw [List.length_take]; omega)
    exact ⟨v, hv, hup.untouched⟩
  · obtain ⟨u, hu, hinvu, hup⟩ := hrefl.run hinv hinv hupdate hcount
    obtain ⟨hinv', hm⟩ := ListWorld.reverted_matches hinv hinvu hup.untouched
    exact ⟨u, hu, hm.items, hm.nodes, fun later later' ha ha' hsame hn =>
      hm.trace hinv hinv' ha ha' hsame hn⟩

/-! ## An update that drains a node and fills one -/

namespace ListWorld

/-- Turns that leave the pages to the list, all at one version, are an update. -/
theorem Driven.update {ops : Nat → ListOp} {v : Nat → Nat} {version : Nat} (hs : Steady ops v)
    {count n : Nat} {w : ListWorld} (h : Driven v w n) (hv : ∀ k, n ≤ k → v k = version)
    (hn : n + count < 2 ^ 62) : Update version version w (drive ops v count n w) := by
  induction count generalizing n w with
  | zero => trivial
  | succ count ih =>
      obtain ⟨ret, w1, hok, h1⟩ := h.turn hs (by omega)
      have hrest := ih h1 (fun k hk => hv k (by omega)) (by omega)
      rw [drive, hok]
      refine ⟨⟨h.allowed hs (by omega), hv n (le_refl n), hv n (le_refl n), fun _ _ _ => rfl⟩,
        fun ret' w1' hok' => ?_⟩
      rw [hok, Except.ok.injEq, Prod.mk.injEq] at hok'
      exact hok'.2 ▸ hrest

/-- The first 300 turns on a list of one empty node. -/
def filled : List ListTurn := drive ListOp.fillAndDrain risingVersion 300 0 (emptyNode 1)

/-- The 600 turns after them, which all are at one version. -/
def drainedAndFilled (s : ListWorld) : List ListTurn :=
  drive ListOp.fillAndDrain risingVersion 600 300 s

end ListWorld

theorem FreeList.revert_restores_drained : ∃ s,
    (ListWorld.emptyNode 1).run ListWorld.filled = .ok s ∧ s.drainedAndFilled.length = 600 ∧
    (∀ k, ∃ v, s.run (s.drainedAndFilled.take k) = .ok v ∧ s.Untouched v) ∧
    ∃ u, s.run s.drainedAndFilled = .ok u ∧ (u.reverted s).list.items = s.list.items ∧
      (u.reverted s).list.nodes = s.list.nodes ∧
      ∀ later later', s.Allows later → (u.reverted s).Allows later' →
        List.Forall₂ ListTurn.SameCall later later' →
        ListWorld.filled.length + later.length < 2 ^ 63 →
        ∃ rets a b, s.trace later = .ok (rets, a) ∧ (u.reverted s).trace later' = .ok (rets, b) ∧
          a.Matches b := by
  obtain ⟨hallows, hfilled, s, hrun, hs⟩ :=
    ListWorld.driven_emptyNode.run ListWorld.steady_fillAndDrain 300 (by decide)
  have hupdate : ListWorld.Update 301 301 s s.drainedAndFilled := by
    refine hs.update ListWorld.steady_fillAndDrain (fun k hk => ?_) (by decide)
    unfold risingVersion
    omega
  obtain ⟨_, hdrained, _⟩ := hs.run ListWorld.steady_fillAndDrain 600 (by decide)
  have hlen : ListWorld.filled.length + s.drainedAndFilled.length < 2 ^ 63 :=
    lt_of_eq_of_lt (congrArg₂ (· + ·) hfilled hdrained) (by decide)
  have hinit := ListWorld.initial_emptyNode (p := 1) (by decide) (by decide)
  exact ⟨s, hrun, hdrained, FreeList.revert_restores hinit hallows hrun hupdate hlen⟩

end SqlDb
