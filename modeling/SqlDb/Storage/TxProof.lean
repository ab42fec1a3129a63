import SqlDb.Storage.BTreeDelete
import SqlDb.Storage.Version

/-!
# A transaction's pages

Tree and free list share one view of the file, and between them they own every page
of it, from page 1 to the end: allocating takes a page from the list or from behind
the end, freeing gives it to the list, and the list's own nodes move in and out of it.

The same invariant carries what the commit relies on. A version older than the
transaction that someone may still read, through an open reader or after a power
loss, keeps its pages among those of the tree, the nodes, or the items freed at or
after it, none of which the list gives out. So no page the transaction writes is one
of them, but for the tail node past its last slot in use.
-/

namespace SqlDb

open Outcome FreeList OrdMap

/-- What a transaction began on, and the versions it must keep, each with its tree's pages. -/
structure TxBase where
  file : File
  chunks : List MmapChunk
  flushed : Nat
  version : Nat
  minReader : Nat
  kept : Version → Multiset Nat → Prop

/-- The versions to keep are older than the transaction, and pages are kept back for them. -/
def TxBase.Sound (b : TxBase) : Prop :=
  ∀ V ps, b.kept V ps → b.minReader ≤ V.version ∧ V.version ≤ b.version

namespace TxPages

/-- The page was written. -/
def Dirty (s : TxPages) (p : Nat) : Prop := ∃ page, (p, page) ∈ s.pageUpdates

/-- The pages `M` are all the pages up to the end of the transaction's file, and can be read. -/
structure Exist (b : TxBase) (s : TxPages) (M : Multiset Nat) : Prop where
  file : s.file = b.file
  chunks : s.chunks = b.chunks
  flushed : s.flushed = b.flushed
  pages : M = (List.range' 1 (s.stop - 1) : Multiset Nat)
  bound : 2 ≤ b.flushed ∧ s.stop < 2 ^ 64
  sorted : Sorted s.pageUpdates
  updates : ∀ p page, (p, page) ∈ s.pageUpdates → p ∈ M ∧ page.length = btreePageSize
  appended : ∀ p, b.flushed ≤ p → p < s.stop → s.Dirty p
  mapped : ∀ p, 1 ≤ p → p < b.flushed → ¬ s.Dirty p →
    s.pageGetMapped p = .ok (b.file.page p) ∧ (p + 1) * btreePageSize ≤ b.file.size

variable {b : TxBase} {s : TxPages} {M : Multiset Nat}

theorem Exist.mem_iff (h : Exist b s M) {p : Nat} : p ∈ M ↔ 1 ≤ p ∧ p < s.stop := by
  have h1 : 1 ≤ s.stop := by
    have := h.bound.1
    unfold stop
    rw [h.flushed]
    omega
  rw [h.pages, Multiset.mem_coe, List.mem_range'_1]
  omega

theorem Exist.nodup (h : Exist b s M) : M.Nodup := by
  rw [h.pages]
  exact Multiset.coe_nodup.mpr List.nodup_range'

theorem Exist.ptr (h : Exist b s M) {p : Nat} (hp : p ∈ M) : p ≠ 0 ∧ p < 2 ^ 64 := by
  have h1 := h.mem_iff.mp hp
  have h2 := h.bound
  omega

theorem pageRead_of_mem (h : Sorted s.pageUpdates) {p : Nat} {page : Bytes}
    (hp : (p, page) ∈ s.pageUpdates) : s.pageRead p = .ok page := by
  rw [pageRead, (lookup_eq_some h).mpr hp]

theorem pageRead_of_clean {p : Nat} (hp : ¬ s.Dirty p) : s.pageRead p = s.pageGetMapped p := by
  rw [pageRead, lookup_eq_none.mpr]
  intro r hr he
  exact hp ⟨r.2, he ▸ hr⟩

/-- A page reads as it was written, or as it is in the file. -/
theorem Exist.read_cases (h : Exist b s M) {p : Nat} (hp : p ∈ M) :
    (∃ page, (p, page) ∈ s.pageUpdates ∧ s.pageRead p = .ok page) ∨
      ¬ s.Dirty p ∧ s.pageRead p = .ok (b.file.page p) := by
  by_cases hd : s.Dirty p
  · obtain ⟨page, hpage⟩ := hd
    exact Or.inl ⟨page, hpage, pageRead_of_mem h.sorted hpage⟩
  · have hr := h.mem_iff.mp hp
    have hlt : p < b.flushed := Nat.lt_of_not_le fun hle => hd (h.appended p hle hr.2)
    exact Or.inr ⟨hd, by rw [pageRead_of_clean hd, (h.mapped p hr.1 hlt hd).1]⟩

theorem Exist.read (h : Exist b s M) {p : Nat} (hp : p ∈ M) :
    ∃ page, s.pageRead p = .ok page ∧ page.length = btreePageSize := by
  rcases h.read_cases hp with ⟨page, hm, hr⟩ | ⟨_, hr⟩
  · exact ⟨page, hr, (h.updates p page hm).2⟩
  · exact ⟨_, hr, b.file.length_page p⟩

/-! ## Writing a page -/

theorem mem_put {p q : Nat} {page page' : Bytes} : (q, page') ∈ (s.put p page).pageUpdates ↔
    (q = p ∧ page' = page) ∨ (q, page') ∈ s.pageUpdates ∧ q ≠ p := by
  unfold put
  rw [mem_insert, Prod.mk.injEq]

theorem dirty_put {p q : Nat} {page : Bytes} : (s.put p page).Dirty q ↔ q = p ∨ s.Dirty q := by
  constructor
  · intro h
    obtain ⟨page', h⟩ := h
    rcases mem_put.mp h with h | h
    · exact Or.inl h.1
    · exact Or.inr ⟨page', h.1⟩
  · intro h
    by_cases hq : q = p
    · exact ⟨page, mem_put.mpr (Or.inl ⟨hq, rfl⟩)⟩
    · obtain ⟨page', h⟩ := h.resolve_left hq
      exact ⟨page', mem_put.mpr (Or.inr ⟨h, hq⟩)⟩

theorem pageRead_put_self (h : Sorted s.pageUpdates) (p : Nat) (page : Bytes) :
    (s.put p page).pageRead p = .ok page :=
  pageRead_of_mem (h.insert p page) (mem_put.mpr (Or.inl ⟨rfl, rfl⟩))

theorem pageRead_put_of_ne (h : Sorted s.pageUpdates) {p q : Nat} (page : Bytes) (hq : q ≠ p) :
    (s.put p page).pageRead q = s.pageRead q := by
  rw [pageRead, pageRead, put]
  dsimp only
  rw [lookup_insert_of_ne h page hq]

theorem Exist.put (h : Exist b s M) {p : Nat} {page : Bytes} (hp : p ∈ M)
    (hlen : page.length = btreePageSize) : Exist b (s.put p page) M where
  file := h.file
  chunks := h.chunks
  flushed := h.flushed
  pages := h.pages
  bound := h.bound
  sorted := h.sorted.insert p page
  updates q page' hq := by
    rcases mem_put.mp hq with hq | hq
    · rw [hq.1, hq.2]; exact ⟨hp, hlen⟩
    · exact h.updates q page' hq.1
  appended q h1 h2 := dirty_put.mpr (Or.inr (h.appended q h1 h2))
  mapped q h1 h2 hd := h.mapped q h1 h2 fun hq => hd (dirty_put.mpr (Or.inr hq))

/-- The page behind the end, once written. -/
theorem Exist.grow (h : Exist b s M) {page : Bytes} (hlen : page.length = btreePageSize)
    (hlt : s.stop + 1 < 2 ^ 64) :
    Exist b (TxPages.put { s with pageAppend := s.pageAppend + 1 } s.stop page) (s.stop ::ₘ M) := by
  have hstop : (TxPages.put { s with pageAppend := s.pageAppend + 1 } s.stop page).stop = s.stop + 1 :=
    (Nat.add_assoc _ _ _).symm
  have h1 : 1 ≤ s.stop := by
    have := h.bound.1
    unfold stop
    rw [h.flushed]
    omega
  have hdirty : ∀ {q}, (TxPages.put { s with pageAppend := s.pageAppend + 1 } s.stop page).Dirty q ↔
      q = s.stop ∨ s.Dirty q := dirty_put
  refine ⟨h.file, h.chunks, h.flushed, ?_, ?_, h.sorted.insert _ _, fun q page' hq => ?_,
    fun q hq1 hq2 => ?_, fun q hq1 hq2 hd => h.mapped q hq1 hq2 fun hq => hd (hdirty.mpr (Or.inr hq))⟩
  · rw [hstop, show s.stop + 1 - 1 = (s.stop - 1) + 1 by omega,
      List.range'_concat, ← Multiset.coe_add,
      h.pages, Multiset.coe_singleton, add_comm, Multiset.singleton_add]
    congr 1
    omega
  · rw [hstop]
    exact ⟨h.bound.1, hlt⟩
  · rcases mem_insert.mp hq with hq | hq
    · rw [Prod.mk.injEq] at hq
      rw [hq.1, hq.2]
      exact ⟨Multiset.mem_cons_self _ _, hlen⟩
    · obtain ⟨hm, hl⟩ := h.updates q page' hq.1
      exact ⟨Multiset.mem_cons_of_mem hm, hl⟩
  · rw [hstop] at hq2
    by_cases he : q = s.stop
    · exact hdirty.mpr (Or.inl he)
    · exact hdirty.mpr (Or.inr (h.appended q hq1 (by omega)))

theorem Exist.stop_notMem (h : Exist b s M) : s.stop ∉ M := fun hm =>
  absurd (h.mem_iff.mp hm).2 (lt_irrefl _)

theorem exist_law (b : TxBase) : PagesLaw (Exist b) Dirty where
  nodup h := h.nodup
  ptr h _ hp := h.ptr hp
  read h hp := h.read hp
  write {s M p page f} h hp hpage hlen hf := by
    refine ⟨s.put p (f page), ?_, h.put hp hf, pageRead_put_self h.sorted p _,
      fun q hq => pageRead_put_of_ne h.sorted _ hq, fun q hq => (dirty_put.mp hq).symm⟩
    show s.pageUse p f = _
    have hpage' : s.pageRead p = .ok page := hpage
    rw [pageUse, hpage']
    rfl

/-- **The list's pages.** Only page numbers can run out. -/
theorem lawful_list (b : TxBase) : LawfulListPages (Exist b) (Exist b) Dirty (· = .overflow) where
  before := exist_law b
  after := exist_law b
  weaken h := h
  append {s M} h := by
    show Ends _ _ s.appendPage
    unfold appendPage TxPages.grow
    by_cases hlt : s.stop + 1 < 2 ^ 64
    · rw [require_pos hlt, ok_bind]
      have hs := h.sorted
      refine ⟨h.grow List.length_replicate hlt, fun q hq => ?_, fun q hq => (dirty_put.mp hq).symm⟩
      exact pageRead_put_of_ne (s := { s with pageAppend := s.pageAppend + 1 }) hs _ hq
    · rw [require_neg hlt, error_bind]
      rfl

end TxPages

/-! ## What a later state keeps of a version -/

/-- The pages of `V` are still in the tree, the list's nodes or its items freed since; and if `V`
had the tail node, it was `V`'s tail, with no more slots in use. -/
structure Since (V : Version) (ps T : Multiset Nat) (tail : Nat) (nodes : List Nat)
    (items : List Item) (used : Nat) : Prop where
  cover : ∀ p ∈ V.live ps, p ∈ T ∨ p ∈ nodes ∨ ∃ it ∈ items, it.1 = p ∧ V.version ≤ it.2
  tail : tail ∈ V.live ps → tail = V.freeState.tailPage ∧ V.used ≤ used

section Turn

variable {b : TxBase} {fl fl' : FreeList TxPages} {nodes nodes' : List Nat}
  {items items' app out : List Item} {used used' : Nat} {new drained : List Nat}
  {V : Version} {ps T T' M : Multiset Nat}

/-- An item that is kept for `V` outlives a turn. -/
theorem mem_items_of_old (hfifo : items ++ app = out ++ items')
    (hold : ∀ it ∈ out, it.2 < V.version) {it : Item} (hit : it ∈ items ++ app)
    (hver : V.version ≤ it.2) : it ∈ items' := by
  rw [hfifo] at hit
  rcases List.mem_append.mp hit with hit | hit
  · exact absurd (hold it hit) (by omega)
  · exact hit

/-- What is given out is none of the pages of a version to keep. -/
theorem Since.out_notMem (hs : Since V ps T fl.state.tailPage nodes items used)
    (hnd : (listPages nodes items + T).Nodup) {it : Item} (hit : it ∈ items)
    (hver : it.2 < V.version) : it.1 ∉ V.live ps := by
  have hadd := Multiset.nodup_add.mp hnd
  have hlist := Multiset.nodup_add.mp hadd.1
  have hmem : it.1 ∈ items.map Prod.fst := List.mem_map_of_mem hit
  intro hm
  rcases hs.cover _ hm with hT | hn | hi
  · exact Multiset.disjoint_left.mp hadd.2.2 (mem_listPages.mpr (Or.inr hmem)) hT
  · exact Multiset.disjoint_left.mp hlist.2.2 (Multiset.mem_coe.mpr hn) (Multiset.mem_coe.mpr hmem)
  · obtain ⟨it', hit', he, hv⟩ := hi
    have := List.inj_on_of_nodup_map (Multiset.coe_nodup.mp hlist.2.1) hit' hit he
    rw [this] at hv
    omega

/-- The new tail is the old one, unless a node was linked. -/
theorem tail_of_turn (hq : fl.Queue nodes items used) (hq' : fl'.Queue nodes' items' used')
    (hchain : nodes ++ new = drained ++ nodes') :
    new = [] ∧ fl'.state.tailPage = fl.state.tailPage ∨ fl'.state.tailPage ∈ new := by
  have h1 := congrArg List.getLast? hchain
  rw [List.getLast?_append_of_ne_nil _ hq'.chain.ne_nil, hq'.tail] at h1
  rcases List.eq_nil_or_concat new with h | ⟨xs, x, h⟩
  · rw [h, List.append_nil, hq.tail, Option.some.injEq] at h1
    exact Or.inl ⟨h, h1.symm⟩
  · rw [List.concat_eq_append] at h
    rw [h, ← List.append_assoc, List.getLast?_concat, Option.some.injEq] at h1
    rw [h, ← h1]
    exact Or.inr (by simp)

/-- **What a turn of the list keeps.** The tree may take what was given out, and give up pages
that were appended. -/
theorem Since.turn (hs : Since V ps T fl.state.tailPage nodes items used)
    (hq : fl.Queue nodes items used)
    (ht : Turn TxPages.Dirty fl fl' nodes nodes' items items' used app out new drained)
    (hold : fl.minReader ≤ V.version)
    (hT : ∀ p ∈ T, p ∈ T' ∨ ∃ it ∈ app, it.1 = p ∧ V.version ≤ it.2)
    (hdrained : ∀ p ∈ drained, ∃ it ∈ app, it.1 = p ∧ V.version ≤ it.2)
    (hnew : ∀ p ∈ new, p ∉ V.live ps) :
    ∃ used', used' < freeListCap ∧ fl'.Queue nodes' items' used' ∧
      Since V ps T' fl'.state.tailPage nodes' items' used' := by
  obtain ⟨used', hused', hgrow, hq'⟩ := ht.queue
  have hout : ∀ it ∈ out, it.2 < V.version := fun it hit => lt_of_lt_of_le (ht.old it hit) hold
  have hitem : ∀ it ∈ items ++ app, V.version ≤ it.2 → it ∈ items' := fun it hit hv =>
    mem_items_of_old ht.fifo hout hit hv
  refine ⟨used', hused', hq', fun p hp => ?_, fun htail => ?_⟩
  · -- a page of the version is in the tree, a node of the list, or an item not yet reusable
    rcases hs.cover p hp with h | h | h
    · rcases hT p h with h | ⟨it, hit, he, hv⟩
      · exact Or.inl h
      · exact Or.inr (Or.inr ⟨it, hitem it (List.mem_append_right _ hit) hv, he, hv⟩)
    · have hmem : p ∈ drained ++ nodes' := by rw [← ht.chain]; exact List.mem_append_left _ h
      rcases List.mem_append.mp hmem with h | h
      · obtain ⟨it, hit, he, hv⟩ := hdrained p h
        exact Or.inr (Or.inr ⟨it, hitem it (List.mem_append_right _ hit) hv, he, hv⟩)
      · exact Or.inr (Or.inl h)
    · obtain ⟨it, hit, he, hv⟩ := h
      exact Or.inr (Or.inr ⟨it, hitem it (List.mem_append_left _ hit) hv, he, hv⟩)
  · rcases tail_of_turn hq hq' ht.chain with ⟨hnil, he⟩ | hmem
    · rw [he] at htail ⊢
      obtain ⟨h1, h2⟩ := hs.tail htail
      exact ⟨h1, h2.trans (hgrow hnil)⟩
    · exact absurd htail (hnew _ hmem)

/-- **A turn writes nothing of a version to keep**, but the tail past its last slot. -/
theorem harmless_turn (hs : Since V ps T fl.state.tailPage nodes items used)
    (hq : fl.Queue nodes items used) (hE : TxPages.Exist b fl.pages M)
    (hE' : TxPages.Exist b fl'.pages M') (hsub : ∀ p ∈ nodes, p ∈ M)
    (ht : Turn TxPages.Dirty fl fl' nodes nodes' items items' used app out new drained)
    (hnew : ∀ p ∈ new, p ∉ V.live ps)
    (hw : ∀ p page, (p, page) ∈ fl.pages.pageUpdates → V.Harmless ps b.file ⟨p, page⟩) :
    ∀ p page, (p, page) ∈ fl'.pages.pageUpdates → V.Harmless ps b.file ⟨p, page⟩ := by
  intro p page hpage hlive
  dsimp only at hlive ⊢
  have hread' : fl'.pages.pageRead p = .ok page := TxPages.pageRead_of_mem hE'.sorted hpage
  have hlen := (hE'.updates p page hpage).2
  by_cases htail : p = fl.state.tailPage
  · obtain ⟨h1, h2⟩ := hs.tail (htail ▸ hlive)
    refine ⟨htail.trans h1, hlen, fun i hi => ?_⟩
    have htM : fl.state.tailPage ∈ M := hsub _ hq.tail_mem
    -- the slots in use are as before the turn, and those are as in the file
    have hslots : ∀ page0, fl.pages.pageRead fl.state.tailPage = .ok page0 →
        slotAt page i = slotAt page0 i := by
      intro page0 hread0
      obtain ⟨page1, hread1, _, hk⟩ := ht.touched.kept page0 hread0
      have : fl'.pages.pageRead fl.state.tailPage = .ok page1 := hread1
      rw [← htail, hread', Except.ok.injEq] at this
      rw [this]
      exact hk i (by omega)
    rcases hE.read_cases htM with ⟨page0, hm, hread0⟩ | ⟨_, hread0⟩
    · rw [hslots page0 hread0, htail]
      exact (hw _ page0 hm (htail ▸ hlive)).2.2 i hi
    · rw [hslots _ hread0, htail]
  · rcases ht.touched.dirty p ⟨page, hpage⟩ with hd | hd | hd
    · obtain ⟨page0, hm⟩ := hd
      have hread0 : fl.pages.pageRead p = .ok page0 := TxPages.pageRead_of_mem hE.sorted hm
      have hsame : fl'.pages.pageRead p = fl.pages.pageRead p :=
        ht.touched.read p htail fun hn => hnew p hn hlive
      rw [hread', hread0, Except.ok.injEq] at hsame
      rw [hsame]
      exact hw p page0 hm hlive
    · exact absurd hd htail
    · exact absurd hlive (hnew p hd)

/-- A linked node is new to the tree and to every version to keep. -/
theorem new_notMem (hnd : (listPages nodes items + T).Nodup)
    (ht : Turn TxPages.Dirty fl fl' nodes nodes' items items' used app out new drained)
    (happ : ∀ it ∈ app, fl.minReader ≤ it.2) {inner : List Item} (hinner : ∀ it ∈ inner, it ∈ out)
    (hn : NewNodes (listPages nodes items + T) inner new) {p : Nat} (hp : p ∈ new) :
    p ∉ T ∧ ∀ V ps, fl.minReader ≤ V.version →
      Since V ps T fl.state.tailPage nodes items used → p ∉ V.live ps := by
  rcases hn with hn | ⟨_, q, hn, hq⟩
  · obtain ⟨keep, hitems, _⟩ := ht.prefix happ
    rw [hn] at hp
    obtain ⟨it, hit, he⟩ := List.mem_map.mp hp
    have hmem : it ∈ items := by
      rw [hitems]
      exact List.mem_append_left _ (hinner it hit)
    rw [← he]
    refine ⟨fun hT => ?_, fun V ps hold hs => hs.out_notMem hnd hmem
      (lt_of_lt_of_le (ht.old it (hinner it hit)) hold)⟩
    exact Multiset.disjoint_left.mp (Multiset.nodup_add.mp hnd).2.2
      (mem_listPages.mpr (Or.inr (List.mem_map_of_mem hmem))) hT
  · rw [hn, List.mem_singleton] at hp
    rw [hp]
    refine ⟨fun hT => hq (Multiset.mem_add.mpr (Or.inr hT)), fun V ps _ hs hlive => hq ?_⟩
    rcases hs.cover q hlive with h | h | ⟨it, hit, he, _⟩
    · exact Multiset.mem_add.mpr (Or.inr h)
    · exact Multiset.mem_add.mpr (Or.inl (mem_listPages.mpr (Or.inl h)))
    · rw [← he]
      exact Multiset.mem_add.mpr (Or.inl (mem_listPages.mpr (Or.inr (List.mem_map_of_mem hit))))

end Turn

/-! ## The transaction's state -/

/-- The list holds `items` in `nodes`, the tree has the pages `T`, and every version to keep is
kept. -/
structure TxState (b : TxBase) (fl : FreeList TxPages) (T : Multiset Nat) (nodes : List Nat)
    (items : List Item) (used : Nat) : Prop where
  queue : fl.Queue nodes items used
  room : used < freeListCap
  version : fl.version = b.version
  reader : fl.minReader = b.minReader
  pages : TxPages.Exist b fl.pages (listPages nodes items + T)
  since : ∀ V ps, b.kept V ps → Since V ps T fl.state.tailPage nodes items used
  harmless : ∀ V ps, b.kept V ps → ∀ p page, (p, page) ∈ fl.pages.pageUpdates →
    V.Harmless ps b.file ⟨p, page⟩

/-- The tree's pages are `T`, and the list's are the rest. -/
def TxOwns (b : TxBase) (fl : FreeList TxPages) (T : Multiset Nat) : Prop :=
  ∃ nodes items used, TxState b fl T nodes items used

section TxState

variable {b : TxBase} {fl fl' : FreeList TxPages} {nodes nodes' : List Nat}
  {items items' app out : List Item} {used : Nat} {new drained : List Nat} {T T' : Multiset Nat}

/-- A turn of the list, seen from the transaction. -/
theorem TxState.turn (hb : b.Sound) (h : TxState b fl T nodes items used)
    (ht : Turn TxPages.Dirty fl fl' nodes nodes' items items' used app out new drained)
    {ps : List Nat} (happ : app = freedAt fl.version ps) (hdrained : ∀ p ∈ drained, p ∈ ps)
    {inner : List Item} (hinner : ∀ it ∈ inner, it ∈ out)
    (hn : NewNodes (listPages nodes items + T) inner new)
    (hT : ∀ p ∈ T, p ∈ T' ∨ p ∈ ps)
    (hE : TxPages.Exist b fl'.pages (listPages nodes' items' + T')) :
    TxOwns b fl' T' ∧ ∀ q ∈ T, fl'.pages.pageRead q = fl.pages.pageRead q := by
  have hnd := h.pages.nodup
  have hver : ∀ it ∈ app, it.2 = b.version := by
    intro it hit
    rw [happ, freedAt] at hit
    obtain ⟨p, _, he⟩ := List.mem_map.mp hit
    rw [← he, h.version]
  have hmin := h.queue.reader
  have happ' : ∀ it ∈ app, fl.minReader ≤ it.2 := fun it hit => by
    rw [hver it hit, ← h.version]
    exact hmin
  have hnew := fun p hp => new_notMem hnd ht happ' hinner hn (p := p) hp
  have hgiven : ∀ V qs, b.kept V qs → ∀ p ∈ ps, ∃ it ∈ app, it.1 = p ∧ V.version ≤ it.2 := by
    intro V qs hk p hp
    refine ⟨(p, fl.version), by rw [happ, freedAt]; exact List.mem_map_of_mem hp, rfl, ?_⟩
    rw [h.version]
    exact (hb V qs hk).2
  have hreader : ∀ V qs, b.kept V qs → fl.minReader ≤ V.version := fun V qs hk => by
    rw [h.reader]
    exact (hb V qs hk).1
  have hadd := Multiset.nodup_add.mp hnd
  obtain ⟨used', hused', _, hq'⟩ := ht.queue
  -- every kept version sees the queue move on from its own
  have hsince : ∀ V qs, b.kept V qs →
      Since V qs T' fl'.state.tailPage nodes' items' used' := by
    intro V qs hk
    obtain ⟨used2, hused2, hq2, hs⟩ := (h.since V qs hk).turn h.queue ht (hreader V qs hk)
      (fun p hp => (hT p hp).imp id fun hp => hgiven V qs hk p hp)
      (fun p hp => hgiven V qs hk p (hdrained p hp))
      fun p hp => (hnew p hp).2 V qs (hreader V qs hk) (h.since V qs hk)
    have : used2 = used' := by
      have h1 := hq2.idx
      have h2 := hq'.idx
      rw [Nat.mod_eq_of_lt hused2] at h1
      rw [Nat.mod_eq_of_lt hused'] at h2
      omega
    rw [← this]
    exact hs
  refine ⟨⟨nodes', items', used', hq', hused', ht.version.trans h.version,
    ht.reader.trans h.reader, hE, hsince, fun V qs hk => ?_⟩, fun q hq => ?_⟩
  · exact harmless_turn (h.since V qs hk) h.queue h.pages hE
      (fun p hp => Multiset.mem_add.mpr (Or.inl (mem_listPages.mpr (Or.inl hp)))) ht
      (fun p hp => (hnew p hp).2 V qs (hreader V qs hk) (h.since V qs hk)) (h.harmless V qs hk)
  · -- only the tail and the new nodes are written, and neither is a page of the tree
    refine ht.touched.read q (fun he => ?_) fun hmem => (hnew q hmem).1 hq
    exact Multiset.disjoint_left.mp hadd.2.2
      (mem_listPages.mpr (Or.inl h.queue.tail_mem)) (he ▸ hq)

/-- **Freeing a page** of the tree. -/
theorem TxState.pushTail (hb : b.Sound) {ptr : Nat} (h : TxState b fl (ptr ::ₘ T) nodes items used) :
    Ends (· = .overflow) (fun fl' => TxOwns b fl' T ∧
      ∀ q ∈ T, fl'.pages.pageRead q = fl.pages.pageRead q) (fl.pushTail ptr) := by
  refine (pushTail_spec (TxPages.lawful_list b) h.queue h.room h.pages (Or.inr rfl)).imp ?_
  intro fl' hfl'
  obtain ⟨nodes', items', out, new, drained, ht, _, hn, hE⟩ := hfl'
  have hT : ∀ p ∈ ptr ::ₘ T, p ∈ T ∨ p ∈ ptr :: drained := by
    intro p hp
    rcases Multiset.mem_cons.mp hp with hp | hp
    · exact Or.inr (by simp [hp])
    · exact Or.inl hp
  obtain ⟨h1, h2⟩ := h.turn hb ht rfl (fun p hp => List.mem_cons_of_mem _ hp)
    (fun it hit => hit) hn hT hE
  exact ⟨h1, fun q hq => h2 q (Multiset.mem_cons_of_mem hq)⟩

/-- A page the tree owns may be written: no version to keep has it. -/
theorem TxState.put {ptr : Nat} {page : Bytes} (h : TxState b fl (ptr ::ₘ T) nodes items used)
    (hfree : ∀ V ps, b.kept V ps → ptr ∉ V.live ps) (hlen : page.length = btreePageSize) :
    TxState b { fl with pages := fl.pages.put ptr page } (ptr ::ₘ T) nodes items used := by
  have hmem : ptr ∈ listPages nodes items + (ptr ::ₘ T) := by simp
  have hnot : ∀ p ∈ nodes, p ≠ ptr := by
    intro p hp he
    refine Multiset.disjoint_left.mp (Multiset.nodup_add.mp h.pages.nodup).2.2
      (mem_listPages.mpr (Or.inl hp)) ?_
    rw [he]
    exact Multiset.mem_cons_self _ _
  refine ⟨⟨h.queue.chain.congr fun p hp => ?_, h.queue.head, h.queue.tail, h.queue.seq, h.queue.bound,
    h.queue.freed, h.queue.version, h.queue.reader⟩, h.room, h.version, h.reader,
    h.pages.put hmem hlen, h.since, fun V ps hk p page' hp => ?_⟩
  · exact TxPages.pageRead_put_of_ne h.pages.sorted page (hnot p hp)
  · rcases TxPages.mem_put.mp hp with hp | hp
    · rw [hp.1]
      exact Version.Harmless.of_notMem (hfree V ps hk)
    · exact h.harmless V ps hk p page' hp.1

/-- The pages of a version to keep are still among the transaction's. -/
theorem TxState.live_mem (h : TxState b fl T nodes items used) {V : Version} {ps : Multiset Nat}
    (hk : b.kept V ps) {p : Nat} (hp : p ∈ V.live ps) : p ∈ listPages nodes items + T := by
  rcases (h.since V ps hk).cover p hp with h | h | ⟨it, hit, he, _⟩
  · exact Multiset.mem_add.mpr (Or.inr h)
  · exact Multiset.mem_add.mpr (Or.inl (mem_listPages.mpr (Or.inl h)))
  · rw [← he]
    exact Multiset.mem_add.mpr (Or.inl (mem_listPages.mpr (Or.inr (List.mem_map_of_mem hit))))

/-- A page taken from behind the end, and written. -/
theorem TxState.grow {page : Bytes} (h : TxState b fl T nodes items used)
    (hlen : page.length = btreePageSize) (hlt : fl.pages.stop + 1 < 2 ^ 64) :
    TxState b { fl with pages := TxPages.put { fl.pages with
        pageAppend := fl.pages.pageAppend + 1 } fl.pages.stop page }
      (fl.pages.stop ::ₘ T) nodes items used := by
  have hfresh := h.pages.stop_notMem
  have hsub : ∀ p ∈ nodes, p ∈ listPages nodes items + T := fun p hp =>
    Multiset.mem_add.mpr (Or.inl (mem_listPages.mpr (Or.inl hp)))
  refine ⟨⟨h.queue.chain.congr fun p hp => ?_, h.queue.head, h.queue.tail, h.queue.seq, h.queue.bound,
    h.queue.freed, h.queue.version, h.queue.reader⟩, h.room, h.version, h.reader, ?_,
      fun V ps hk => ?_,
    fun V ps hk p page' hp => ?_⟩
  · exact TxPages.pageRead_put_of_ne
      (s := { fl.pages with pageAppend := fl.pages.pageAppend + 1 }) h.pages.sorted page
      fun he => hfresh (he ▸ hsub p hp)
  · rw [Multiset.add_cons]
    exact h.pages.grow hlen hlt
  · refine ⟨fun p hp => ?_, (h.since V ps hk).tail⟩
    exact ((h.since V ps hk).cover p hp).imp (fun h => Multiset.mem_cons_of_mem h) id
  · rcases TxPages.mem_put.mp hp with hp | hp
    · rw [hp.1]
      exact Version.Harmless.of_notMem fun hm => hfresh (h.live_mem hk hm)
    · exact h.harmless V ps hk p page' hp.1

/-- A new page comes from behind the end of the file while every free one may still be read. -/
theorem TxState.pageNew_grows (h : TxState b fl T nodes items used)
    (hblocked : Blocked fl.minReader items) (hlt : fl.pages.stop + 1 < 2 ^ 64)
    {node : BNode} {t : Nat}
    {es : List Entry} (hn : Holds node t es) (hsize : nodeSize es ≤ btreePageSize) :
    ∃ fl', TxPages.pageNew fl node = .ok (fl.pages.stop, fl') ∧
      TxState b fl' (fl.pages.stop ::ₘ T) nodes items used ∧ fl'.state = fl.state ∧
      fl'.pages.stop = fl.pages.stop + 1 ∧
      (∃ n', TxPages.pageGet fl' fl.pages.stop = .ok n' ∧ Holds n' t es) ∧
      ∀ q ∈ T, fl'.pages.pageRead q = fl.pages.pageRead q := by
  obtain ⟨page, hencode, hlen, hdecode, hpage⟩ := encode_spec hn hsize
  refine ⟨_, ?_, h.grow hlen hlt, rfl, (Nat.add_assoc _ _ _).symm, ⟨⟨page⟩, ?_, hpage⟩, fun q hq => ?_⟩
  · unfold TxPages.pageNew TxPages.takePage
    rw [popHead_blocked h.queue hblocked, ok_bind]
    dsimp only
    rw [if_pos rfl, TxPages.grow, require_pos hlt]
    simp only [ok_bind, pure_bind]
    rw [hencode]
    rfl
  · unfold TxPages.pageGet
    dsimp only
    rw [TxPages.pageRead_put_self (s := { fl.pages with
      pageAppend := fl.pages.pageAppend + 1 }) h.pages.sorted, ok_bind, hdecode]
  · refine TxPages.pageRead_put_of_ne (s := { fl.pages with
      pageAppend := fl.pages.pageAppend + 1 }) h.pages.sorted page fun he => ?_
    exact h.pages.stop_notMem (he ▸ Multiset.mem_add.mpr (Or.inr hq))

/-- **Allocating a page** for the tree: one that no version to keep has. -/
theorem TxState.pageNew (hb : b.Sound) (h : TxState b fl T nodes items used)
    {node : BNode} {t : Nat}
    {es : List Entry} (hn : Holds node t es) (hsize : nodeSize es ≤ btreePageSize) :
    Ends (· = .overflow) (fun r => (TxOwns b r.2 (r.1 ::ₘ T) ∧
        ∀ V ps, b.kept V ps → r.1 ∉ V.live ps) ∧
      (∃ n', TxPages.pageGet r.2 r.1 = .ok n' ∧ Holds n' t es) ∧
      ∀ q ∈ T, r.2.pages.pageRead q = fl.pages.pageRead q) (TxPages.pageNew fl node) := by
  by_cases hblocked : Blocked fl.minReader items
  · -- every free page may still be read: the file grows
    by_cases hlt : fl.pages.stop + 1 < 2 ^ 64
    · obtain ⟨fl', hnew, hgrow, _, _, hget, hread⟩ := h.pageNew_grows hblocked hlt hn hsize
      rw [hnew]
      exact ⟨⟨⟨nodes, items, used, hgrow⟩, fun V ps hk hm => h.pages.stop_notMem (h.live_mem hk hm)⟩,
        hget, hread⟩
    · unfold TxPages.pageNew TxPages.takePage
      rw [popHead_blocked h.queue hblocked, ok_bind]
      dsimp only
      rw [if_pos rfl, TxPages.grow, require_neg hlt]
      rfl
  · -- the oldest free page is reused
    obtain ⟨page, hencode, hlen, hdecode, hpage⟩ := encode_spec hn hsize
    unfold TxPages.pageNew TxPages.takePage
    obtain ⟨it, rest, hitems, hold⟩ := exists_of_not_blocked hblocked
    have hqueue := h.queue
    have hpages := h.pages
    rw [hitems] at hqueue hpages
    rw [bind_assoc]
    refine Ends.bind (popHead_spec (TxPages.lawful_list b) hqueue h.room hold hpages (Or.inr rfl)) ?_
    intro r hr
    obtain ⟨ptr, fl'⟩ := r
    obtain ⟨hptr, nodes', items', out, new, drained, ht, _, hnew, hE⟩ := hr
    dsimp only at hptr ht hE
    have hit : it.1 ≠ 0 := (h.pages.ptr (Multiset.mem_add.mpr (Or.inl (mem_listPages.mpr
      (Or.inr (by rw [hitems]; simp)))))).1
    rw [← hitems] at ht hnew
    obtain ⟨⟨nodes2, items2, used2, hown⟩, hread⟩ := h.turn hb ht rfl (fun p hp => hp)
      (fun x hx => List.mem_cons_of_mem it hx) hnew
      (fun p hp => Or.inl (Multiset.mem_cons_of_mem hp)) hE
    -- it was freed before the oldest version that is kept, so it is in none of them
    have hfree : ∀ V ps, b.kept V ps → it.1 ∉ V.live ps := by
      intro V ps hk
      refine (h.since V ps hk).out_notMem h.pages.nodup (by rw [hitems]; simp) ?_
      have := (hb V ps hk).1
      rw [h.reader] at hold
      exact lt_of_lt_of_le hold this
    have hput := hown.put hfree hlen
    have hfresh : it.1 ∉ T := by
      have := hown.pages.nodup
      exact (Multiset.nodup_cons.mp (Multiset.nodup_add.mp this).2.1).1
    dsimp only
    rw [if_neg (by rw [hptr]; exact hit), pure_bind, hencode, ok_bind, hptr]
    refine ⟨⟨⟨nodes2, items2, used2, hput⟩, hfree⟩, ⟨⟨page⟩, ?_, hpage⟩, fun q hq => ?_⟩
    · unfold TxPages.pageGet
      dsimp only
      rw [TxPages.pageRead_put_self hown.pages.sorted, ok_bind, hdecode]
    · rw [← hread q hq]
      exact TxPages.pageRead_put_of_ne hown.pages.sorted page fun he => hfresh (he ▸ hq)

end TxState

theorem TxPages.get_congr {fl fl' : FreeList TxPages} {q : Nat}
    (h : fl'.pages.pageRead q = fl.pages.pageRead q) :
    PageManager.get fl' q = PageManager.get fl q := by
  show TxPages.pageGet fl' q = TxPages.pageGet fl q
  unfold TxPages.pageGet
  rw [h]

/-- **A transaction's pages are returned as stored.** -/
theorem TxPages.lawful {b : TxBase} (hb : b.Sound) : LawfulPages (TxOwns b) (· = .overflow) where
  nodup h := by
    obtain ⟨nodes, items, used, h⟩ := h
    exact (Multiset.nodup_add.mp h.pages.nodup).2.1
  ptr h p hp := by
    obtain ⟨nodes, items, used, h⟩ := h
    exact h.pages.ptr (Multiset.mem_add.mpr (Or.inr hp))
  count {s M} h := by
    obtain ⟨nodes, items, used, h⟩ := h
    have hle := Multiset.card_le_card (Multiset.le_add_left M (listPages nodes items))
    rw [h.pages.pages, Multiset.coe_card, List.length_range'] at hle
    exact hle.trans (Nat.sub_le _ _)
  newPage h hn hsize := by
    obtain ⟨nodes, items, used, h⟩ := h
    refine (h.pageNew hb hn hsize).imp ?_
    intro r hr
    exact ⟨hr.1.1, hr.2.1, fun q hq => get_congr (hr.2.2 q hq)⟩
  del h := by
    obtain ⟨nodes, items, used, h⟩ := h
    refine (h.pushTail hb).imp ?_
    intro fl' hr
    exact ⟨hr.1, fun q hq => get_congr (hr.2 q hq)⟩

end SqlDb
