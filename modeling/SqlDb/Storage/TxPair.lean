import SqlDb.Storage.FreeListPair
import SqlDb.Storage.Pair
import SqlDb.Storage.TxProof

/-!
# Two transactions in step

Two transactions whose trees have the same nodes and whose free lists have the same items
do the same, though the files they read differ everywhere else: in the pages that are free,
in the slots of a list node that are not in use, in what lies behind the end. No call reads
any of it before it is written.
-/

namespace SqlDb

open Outcome FreeList OrdMap

namespace TxPages

/-- The same pages are buffered, whatever they hold. -/
structure SameUpdates (s t : TxPages) : Prop where
  flushed : t.flushed = s.flushed
  append : t.pageAppend = s.pageAppend
  keys : t.pageUpdates.map Prod.fst = s.pageUpdates.map Prod.fst
  left : Sorted s.pageUpdates
  right : Sorted t.pageUpdates

variable {s t : TxPages}

theorem SameUpdates.stop (h : SameUpdates s t) : t.stop = s.stop := by
  unfold TxPages.stop
  rw [h.flushed, h.append]

theorem SameUpdates.put (h : SameUpdates s t) (ptr : Nat) (page page' : Bytes) :
    SameUpdates (s.put ptr page) (t.put ptr page') :=
  ⟨h.flushed, h.append, keys_insert h.keys, h.left.insert ptr page, h.right.insert ptr page'⟩

/-- Both hand out the page behind the end. -/
theorem SameUpdates.grow (h : SameUpdates s t) :
    Alike (fun r r' => r'.1 = r.1 ∧ SameUpdates r.2 r'.2 ∧
      r.2 = { s with pageAppend := s.pageAppend + 1 } ∧
      r'.2 = { t with pageAppend := t.pageAppend + 1 }) s.grow t.grow := by
  unfold TxPages.grow
  rw [h.stop]
  by_cases hlt : s.stop + 1 < 2 ^ 64
  · rw [require_pos hlt, ok_bind, ok_bind]
    exact .ok ⟨rfl, ⟨h.flushed, congrArg (· + 1) h.append, h.keys, h.left, h.right⟩, rfl, rfl⟩
  · rw [require_neg hlt]
    exact .error _

theorem pageUse_eq {s s' : TxPages} {p : Nat} {f : Bytes → Bytes} (h : s.pageUse p f = .ok s') :
    ∃ page, s' = s.put p page := by
  obtain ⟨page, _, he⟩ := bind_eq_ok.mp h
  exact ⟨f page, (Except.ok.inj he).symm⟩

theorem pairLaw : PairLaw SameUpdates where
  write {s t s' t' p f g} h hs ht := by
    obtain ⟨page, rfl⟩ := pageUse_eq hs
    obtain ⟨page', rfl⟩ := pageUse_eq ht
    exact h.put p page page'
  append {s t} h := by
    show Alike _ s.appendPage t.appendPage
    unfold TxPages.appendPage
    refine h.grow.bind ?_
    rintro ⟨p, s'⟩ ⟨p', t'⟩ ⟨rfl, h', _, _⟩
    exact .ok ⟨rfl, h'.put p' _ _⟩

/-- The pages `M` exist in some file. -/
def ExistSome (s : TxPages) (M : Multiset Nat) : Prop := ∃ b, Exist b s M

theorem existSome_law : PagesLaw ExistSome Dirty where
  nodup h := by
    obtain ⟨b, h⟩ := h
    exact h.nodup
  ptr h := by
    obtain ⟨b, h⟩ := h
    exact fun _ hp => h.ptr hp
  read h := by
    obtain ⟨b, h⟩ := h
    exact fun hp => h.read hp
  write h hp hpage hlen hf := by
    obtain ⟨b, h⟩ := h
    obtain ⟨s', hw, hE, hrest⟩ := (exist_law b).write h hp hpage hlen hf
    exact ⟨s', hw, ⟨b, hE⟩, hrest⟩

theorem lawful_existSome : LawfulListPages ExistSome ExistSome Dirty (· = .overflow) where
  before := existSome_law
  after := existSome_law
  weaken h := h
  append h := by
    obtain ⟨b, h⟩ := h
    refine ((lawful_list b).append h).imp ?_
    intro r hr
    exact ⟨⟨b, hr.1⟩, hr.2⟩

end TxPages

/-- A list is one queue. -/
theorem FreeList.Queue.unique {σ : Type} [FreeListPages σ] {fl : FreeList σ}
    {nodes nodes' : List Nat}
    {items items' : List Item} {used used' : Nat} (h : fl.Queue nodes items used)
    (h' : fl.Queue nodes' items' used') (hused : used < freeListCap)
    (hused' : used' < freeListCap) :
    nodes' = nodes ∧ items' = items ∧ used' = used := by
  refine ⟨(h'.nodes_eq hused').symm.trans (h.nodes_eq hused),
    (h'.items_eq hused').symm.trans (h.items_eq hused), ?_⟩
  have h1 := h.idx
  have h2 := h'.idx
  rw [Nat.mod_eq_of_lt hused] at h1
  rw [Nat.mod_eq_of_lt hused'] at h2
  omega

/-- The two lists are in step, and the tree's pages, `T`, read the same. -/
structure TwinOwns (b b' : TxBase) (fl fl' : FreeList TxPages) (T : Multiset Nat) : Prop where
  left : TxOwns b fl T
  right : TxOwns b' fl' T
  lists : StillInStep TxPages.SameUpdates fl fl'
  read : ∀ q ∈ T, fl'.pages.pageRead q = fl.pages.pageRead q

section TwinOwns

variable {b b' : TxBase} {fl fl' : FreeList TxPages} {T : Multiset Nat}

/-- They hold the same items in the same nodes. -/
theorem TwinOwns.states (h : TwinOwns b b' fl fl' T) : ∃ nodes items used,
    TxState b fl T nodes items used ∧ TxState b' fl' T nodes items used ∧
      InStep fl fl' nodes items used := by
  obtain ⟨nodes, items, used, hst⟩ := h.left
  obtain ⟨nodes', items', used', hst'⟩ := h.right
  obtain ⟨_, nodes1, items1, used1, hused1, hstep⟩ := h.lists
  obtain ⟨rfl, rfl, rfl⟩ := hst.queue.unique hstep.left hst.room hused1
  obtain ⟨rfl, rfl, rfl⟩ := hst'.queue.unique hstep.right hst'.room hused1
  exact ⟨_, _, _, hst, hst', hstep⟩

/-- The lists read the same pages as before, but one that the tree has now. -/
theorem TxOwns.queue_of_put {fl : FreeList TxPages} {ptr : Nat} {page : Bytes}
    (h : TxOwns b { fl with pages := fl.pages.put ptr page } (ptr ::ₘ T))
    (hsorted : Sorted fl.pages.pageUpdates) {nodes : List Nat} {items : List Item} {used : Nat}
    (hq : fl.Queue nodes items used) (hused : used < freeListCap) :
    Queue { fl with pages := fl.pages.put ptr page } nodes items used := by
  obtain ⟨nodes', items', used', hst⟩ := h
  have hne : ∀ p ∈ nodes', p ≠ ptr := by
    intro p hp he
    refine Multiset.disjoint_left.mp (Multiset.nodup_add.mp hst.pages.nodup).2.2
      (mem_listPages.mpr (Or.inl hp)) ?_
    rw [he]
    exact Multiset.mem_cons_self _ _
  have hback : fl.Queue nodes' items' used' :=
    ⟨hst.queue.chain.congr fun p hp => (TxPages.pageRead_put_of_ne hsorted page (hne p hp)).symm,
      hst.queue.head, hst.queue.tail, hst.queue.seq, hst.queue.bound, hst.queue.freed,
      hst.queue.version, hst.queue.reader⟩
  obtain ⟨rfl, rfl, rfl⟩ := hq.unique hback hused hst.room
  exact hst.queue

/-- Both lists go on after the page they gave out is written. -/
theorem FreeList.StillInStep.put {ptr : Nat} {page page' : Bytes}
    (h : StillInStep TxPages.SameUpdates fl fl')
    (hown : TxOwns b { fl with pages := fl.pages.put ptr page } (ptr ::ₘ T))
    (hown' : TxOwns b' { fl' with pages := fl'.pages.put ptr page' } (ptr ::ₘ T)) :
    StillInStep TxPages.SameUpdates { fl with pages := fl.pages.put ptr page }
      { fl' with pages := fl'.pages.put ptr page' } := by
  obtain ⟨hsame, nodes, items, used, hused, hstep⟩ := h
  exact ⟨hsame.put ptr page page', nodes, items, used, hused,
    hown.queue_of_put hsame.left hstep.left hused, hown'.queue_of_put hsame.right hstep.right hused,
    hstep.state, hstep.version, hstep.reader⟩

/-- **Freeing a page** does the same to both. -/
theorem TwinOwns.del (hb : b.Sound) (hb' : b'.Sound) {ptr : Nat}
    (h : TwinOwns b b' fl fl' (ptr ::ₘ T)) :
    Alike (TwinOwns b b' · · T) (fl.pushTail ptr) (fl'.pushTail ptr) := by
  obtain ⟨nodes, items, used, hst, hst', hstep⟩ := h.states
  have hlists := pushTail_inStep TxPages.lawful_existSome TxPages.pairLaw hstep hst.room
    ⟨⟨b, hst.pages⟩, ⟨b', hst'.pages⟩, h.lists.1⟩
  refine (hlists.and (hst.pushTail hb) (hst'.pushTail hb')).imp ?_
  rintro a a' ⟨hin, ⟨hown, hread⟩, hown', hread'⟩
  refine ⟨hown, hown', hin, fun q hq => ?_⟩
  rw [hread q hq, hread' q hq, h.read q (Multiset.mem_cons_of_mem hq)]

/-- Both lists give out the same page, or the file grows in both. -/
theorem TwinOwns.take (h : TwinOwns b b' fl fl' T) :
    Alike (fun r r' => r'.1 = r.1 ∧ StillInStep TxPages.SameUpdates r.2 r'.2) (TxPages.takePage fl)
      (TxPages.takePage fl') := by
  obtain ⟨nodes, items, used, hst, hst', hstep⟩ := h.states
  unfold TxPages.takePage
  refine (popHead_inStep TxPages.lawful_existSome TxPages.pairLaw hstep hst.room
    ⟨⟨b, hst.pages⟩, ⟨b', hst'.pages⟩, h.lists.1⟩).bind ?_
  rintro ⟨p, a⟩ ⟨p', a'⟩ ⟨rfl, hin⟩
  dsimp only at hin ⊢
  by_cases hp : p' = 0
  · rw [if_pos hp, if_pos hp]
    obtain ⟨hsame, nodes1, items1, used1, hused1, hstep1⟩ := hin
    refine hsame.grow.bind ?_
    rintro ⟨q, s⟩ ⟨q', s'⟩ ⟨rfl, hsame', rfl, rfl⟩
    have hl := hstep1.left
    have hr := hstep1.right
    exact .ok ⟨rfl, hsame', nodes1, items1, used1, hused1,
      ⟨hl.chain, hl.head, hl.tail, hl.seq, hl.bound, hl.freed, hl.version, hl.reader⟩,
      ⟨hr.chain, hr.head, hr.tail, hr.seq, hr.bound, hr.freed, hr.version, hr.reader⟩,
      hstep1.state, hstep1.version, hstep1.reader⟩
  · rw [if_neg hp, if_neg hp]
    exact .ok ⟨rfl, hin⟩

/-- **A new page** gets the same number in both. -/
theorem TwinOwns.newPage (hb : b.Sound) (hb' : b'.Sound) (h : TwinOwns b b' fl fl' T) {node : BNode}
    {t : Nat} {es : List Entry} (hn : Holds node t es) (hsize : nodeSize es ≤ btreePageSize) :
    Alike (fun r r' => r'.1 = r.1 ∧ TwinOwns b b' r.2 r'.2 (r.1 ::ₘ T)) (TxPages.pageNew fl node)
      (TxPages.pageNew fl' node) := by
  obtain ⟨nodes, items, used, hst, hst', _⟩ := h.states
  obtain ⟨page, hencode, _⟩ := encode_spec hn hsize
  have hown := hst.pageNew hb hn hsize
  have hown' := hst'.pageNew hb' hn hsize
  have htake := h.take
  unfold TxPages.pageNew at hown hown' ⊢
  rcases hr : TxPages.takePage fl with f | ⟨p, a⟩
  · rw [hr] at htake
    rcases hr' : TxPages.takePage fl' with f' | r'
    · rw [hr'] at htake
      exact htake
    · rw [hr'] at htake
      exact htake.elim
  · rw [hr] at htake
    obtain ⟨⟨p', a'⟩, hr', hp, hin⟩ := htake.of_ok rfl
    dsimp only at hp hin
    rw [hp] at hr'
    rw [hr, ok_bind] at hown
    rw [hr', ok_bind] at hown'
    rw [hr', ok_bind, ok_bind]
    dsimp only at hown hown' ⊢
    rw [hencode, ok_bind] at hown hown'
    rw [hencode, ok_bind, ok_bind]
    obtain ⟨⟨hown, _⟩, _, hread⟩ := hown
    obtain ⟨⟨hown', _⟩, _, hread'⟩ := hown'
    -- the node is encoded once for both, and put at the same number
    refine .ok ⟨rfl, hown, hown', hin.put hown hown', fun q hq => ?_⟩
    dsimp only
    rcases Multiset.mem_cons.mp hq with hq | hq
    · rw [hq, TxPages.pageRead_put_self hin.1.left, TxPages.pageRead_put_self hin.1.right]
    · have h1 := hread q hq
      have h2 := hread' q hq
      dsimp only at h1 h2
      rw [h1, h2, h.read q hq]

/-- **Transactions in step stay so.** -/
theorem TwinOwns.law (hb : b.Sound) (hb' : b'.Sound) : TwinLaw (TxOwns b) (TwinOwns b b') where
  owns h := h.left
  count h := h.lists.1.stop.symm
  get h q hq := TxPages.get_congr (h.read q hq)
  newPage h hn hsize := h.newPage hb hb' hn hsize
  del h := h.del hb hb'

end TwinOwns

/-! ## Calls -/

/-- Two transactions of the same version and the same map. -/
structure TwinTx (b b' : TxBase) (tx tx' : KVTX) (map : Contents) (ps : Multiset Nat) : Prop where
  version : tx'.version = tx.version
  trees : Twins (TwinOwns b b') tx.tree tx'.tree map ps

section TwinTx

variable {b b' : TxBase} {tx tx' : KVTX} {map : Contents} {ps : Multiset Nat}

theorem TwinTx.right (hb : b.Sound) (hb' : b'.Sound) (h : TwinTx b b' tx tx' map ps) :
    tx'.tree.Denotes (TxOwns b') map ps :=
  ⟨h.trees.right (TwinOwns.law hb hb'), h.trees.pages.right⟩

theorem differ_ne_overflow : ¬ Fault.differ = .overflow := by
  intro h
  cases h

/-- **A `set` does the same to both.** -/
theorem TwinTx.set (hb : b.Sound) (hb' : b'.Sound) (h : TwinTx b b' tx tx' map ps)
    (key val : Bytes) :
    Alike (fun a a' => ∃ ps', TwinTx b b' a a' (OrdMap.insert map key val) ps') (tx.set key val)
      (tx'.set key val) := by
  unfold KVTX.set
  by_cases hv : ValidKey key ∧ ValidVal val
  · refine (h.trees.insert (TwinOwns.law hb hb') (TxPages.lawful hb) differ_ne_overflow hv.1 hv.2).bind ?_
    rintro t t' ⟨ps', ht⟩
    exact .ok ⟨ps', h.version, ht⟩
  · rw [BTree.insert_invalid _ hv, BTree.insert_invalid _ hv]
    exact .error _

/-- **A `del` does the same to both.** -/
theorem TwinTx.del (hb : b.Sound) (hb' : b'.Sound) (h : TwinTx b b' tx tx' map ps) (key : Bytes) :
    Alike (fun r r' => r'.1 = r.1 ∧ ∃ ps', TwinTx b b' r.2 r'.2 (erase map key) ps') (tx.del key)
      (tx'.del key) := by
  unfold KVTX.del
  by_cases hk : ValidKey key
  · refine (h.trees.remove (TwinOwns.law hb hb') (TxPages.lawful hb) differ_ne_overflow hk).bind ?_
    rintro ⟨found, t⟩ ⟨found', t'⟩ ⟨hfound, ps', ht⟩
    exact .ok ⟨hfound, ps', h.version, ht⟩
  · rw [BTree.remove_invalid _ hk, BTree.remove_invalid _ hk]
    exact .error _

end TwinTx

end SqlDb
