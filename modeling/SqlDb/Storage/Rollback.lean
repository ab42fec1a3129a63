import SqlDb.Storage.Isolation
import SqlDb.Storage.Session
import SqlDb.Storage.TxPair

/-!
# A commit that failed early

A commit that fails in phase 1 leaves bytes behind: in pages that are free, behind the end
of the file, in the slots after the free list's last. The store itself is what it was. So it
is in step with the store whose transaction was aborted: the same numbers, the same history,
the same tree in both files. Every call keeps two stores in step and returns the same on
both, as none reads any of the other bytes before they are written again.
-/

namespace SqlDb

open Outcome FreeList OrdMap

/-! ## The store but for its mapping -/

/-- The same store, but for what is mapped. -/
structure SameKV (kv kv' : KV) : Prop where
  root : kv'.root = kv.root
  version : kv'.version = kv.version
  readers : kv'.readers = kv.readers
  flushed : kv'.flushed = kv.flushed
  free : kv'.free = kv.free
  durable : kv'.durableVersion = kv.durableVersion

theorem SameKV.symm {kv kv' : KV} (h : SameKV kv kv') : SameKV kv' kv :=
  ⟨h.root.symm, h.version.symm, h.readers.symm, h.flushed.symm, h.free.symm, h.durable.symm⟩

theorem SameKV.trans {kv kv' kv'' : KV} (h : SameKV kv kv') (h' : SameKV kv' kv'') :
    SameKV kv kv'' :=
  ⟨h'.root.trans h.root, h'.version.trans h.version, h'.readers.trans h.readers,
    h'.flushed.trans h.flushed, h'.free.trans h.free, h'.durable.trans h.durable⟩

theorem SameKV.extend {kv kv' : KV} (h : SameKV kv kv') (size size' : Nat) :
    SameKV (kv.extendMmap size) (kv'.extendMmap size') := by
  obtain ⟨_, _, he⟩ := World.extendMmap_eq kv size
  obtain ⟨_, _, he'⟩ := World.extendMmap_eq kv' size'
  rw [he, he']
  exact ⟨h.root, h.version, h.readers, h.flushed, h.free, h.durable⟩

section SameKV

variable {w w' : World} {b b' : TxBase} {tx tx' : KVTX} {map : Contents} {ps : Multiset Nat}

theorem SameKV.rootWrite (h : SameKV w.kv w'.kv) : w'.rootWrite = w.rootWrite := by
  unfold World.rootWrite KV.saveMeta
  rw [h.root, h.flushed, h.free, h.version]

/-- Both publish the same version. -/
theorem TwinTx.next (h : TwinTx b b' tx tx' map ps) (hkv : SameKV w.kv w'.kv) :
    w'.next tx' map = w.next tx map := by
  obtain ⟨hsame, nodes, items, used, hused, hin⟩ := h.trees.pages.lists
  have hnodes : tx'.free.nodes = tx.free.nodes :=
    (hin.right.nodes_eq hused).trans (hin.left.nodes_eq hused).symm
  have hitems : tx'.free.items = tx.free.items :=
    (hin.right.items_eq hused).trans (hin.left.items_eq hused).symm
  have hstate : tx'.free.state = tx.free.state := hin.state
  have happend : tx'.free.pages.pageAppend = tx.free.pages.pageAppend := hsame.append
  unfold World.next
  rw [hkv.flushed, hkv.version, h.trees.root, happend, hstate, hnodes, hitems]

theorem TwinTx.publish (h : TwinTx b b' tx tx' map ps) {kv kv' : KV} (hkv : SameKV kv kv') :
    SameKV (kv.publish tx) (kv'.publish tx') := by
  obtain ⟨hsame, _, _, _, _, hin⟩ := h.trees.pages.lists
  have happend : tx'.free.pages.pageAppend = tx.free.pages.pageAppend := hsame.append
  refine ⟨h.trees.root, congrArg (· + 1) hkv.version, hkv.readers, ?_, hin.state, hkv.durable⟩
  show kv'.flushed + tx'.free.pages.pageAppend = kv.flushed + tx.free.pages.pageAppend
  rw [hkv.flushed, happend]

end SameKV

namespace World

variable {w w' v v' : World} {pages : Nat → Multiset Nat}

/-! ## One store's commit -/

section Commit

variable {b : TxBase} {tx : KVTX} {map : Contents}

theorem mem_treePages {p : Nat} (hp : p ∈ w.treePages pages) :
    w.kv.version ≠ 0 ∧ p ∈ pages w.kv.version := by
  unfold treePages at hp
  by_cases h0 : w.kv.version = 0
  · rw [if_pos h0] at hp
    exact absurd hp (Multiset.notMem_zero p)
  · rw [if_neg h0] at hp
    exact ⟨h0, hp⟩

/-- **Buffered pages land**, some or all. None of them is the committed tree's. -/
theorem Base.lands (h : w.Base pages) (hb : w.Began pages b) (hfile : b.file = w.file)
    (ht : TxInv b tx map) {ws : List PageWrite} (hws : ∀ pw ∈ ws, pw ∈ pageWrites tx.pageUpdates) :
    ((w.mapped tx).wrote ws).Base pages ∧ ((w.mapped tx).wrote ws).Began pages b ∧
      (∃ stop, Tiled ((w.mapped tx).wrote ws).kv.chunks 0 stop ∧ tx.free.pages.stop ≤ stop) ∧
      ∀ p ∈ w.treePages pages, ((w.mapped tx).wrote ws).file.page p = w.file.page p := by
  obtain ⟨hmapped, hp, stop, htiled, hcover⟩ := h.extend (w.kv.commitSize tx)
  obtain ⟨chunks, total, he⟩ := extendMmap_eq w.kv (w.kv.commitSize tx)
  have hh : ∀ pw ∈ ws, _ := fun pw hpw =>
    h.harmless_updates hb ht (fun _ hx => hx) hfile (hws pw hpw)
  have hne : ∀ pw ∈ ws, pw.ptr ≠ 0 := fun pw hpw => (hh pw hpw).1
  have hbegan : (w.mapped tx).Began pages b := by
    unfold mapped
    rw [he] at hp ⊢
    exact ⟨hb.sound, hb.flushed, hb.version, fun V hV => hb.kept V (hp V hV)⟩
  refine ⟨hmapped.append hne fun pw hpw V hV => (hh pw hpw).2 V (hp V hV), hbegan.append hne,
    ⟨stop, htiled, ?_⟩, fun p hp => ?_⟩
  · obtain ⟨ps, _, nodes, items, used, hst⟩ := ht
    have hle := Nat.le_of_mul_le_mul_right hcover pageSize_pos
    rw [← hb.flushed, ← hst.pages.flushed] at hle
    exact hle
  · obtain ⟨hv, hm⟩ := mem_treePages hp
    have hprot := h.protected_latest hv
    have hs := h.shape _ hprot.mem hprot.ne
    rw [h.latest_version] at hs
    show (w.disk.pwrites (w.pending ++ ws)).page p = _
    rw [File.pwrites_append]
    refine File.page_pwrites_of_notMem fun pw hpw hptr => ?_
    have hharm := (hh pw hpw).2 w.latest hprot
    rw [h.latest_version] at hharm
    -- a harmless write to a page in use is to the list's tail, and that is no tree page
    have htail := (hharm (Multiset.mem_add.mpr (Or.inl (hptr ▸ hm)))).1
    exact hs.disjoint hm (hptr ▸ htail ▸ hs.tail_mem)

/-- Phase 1 has the whole transaction in the file. -/
theorem Base.phaseOne (h : w.Base pages) (hb : w.Began pages b) (hfile : b.file = w.file)
    (ht : TxInv b tx map) : (w.phaseOne tx).Base pages ∧ (w.phaseOne tx).Began pages b ∧
      (∃ stop, Tiled (w.phaseOne tx).kv.chunks 0 stop ∧ tx.free.pages.stop ≤ stop) ∧
      (w.phaseOne tx).disk = b.file.pwrites (pageWrites tx.pageUpdates) := by
  obtain ⟨hbase, hbegan, hchunks, _⟩ := h.lands hb hfile ht fun _ hpw => hpw
  refine ⟨hbase.sync, ⟨hbegan.sound, hbegan.flushed, hbegan.version, fun V hV =>
    hbegan.kept V (hbase.protected_of_sync hV)⟩, hchunks, ?_⟩
  show w.disk.pwrites (w.pending ++ pageWrites tx.pageUpdates) = _
  rw [File.pwrites_append, hfile, World.file]

/-- The store after phase 1, its new tree being of the pages `ps`. -/
theorem Base.published (h : w.Base pages) (hb : w.Began pages b) (hfile : b.file = w.file)
    {ps : Multiset Nat} (ht : tx.tree.Denotes (TxOwns b) map ps) (hlt : w.kv.version + 1 < 2 ^ 63) :
    ((w.phaseOne tx).published tx map).Base (Function.update pages (w.kv.version + 1) ps) ∧
      ((w.phaseOne tx).published tx map).kv.version = w.kv.version + 1 ∧
      ((w.phaseOne tx).published tx map).treePages (Function.update pages (w.kv.version + 1) ps) = ps ∧
      ∀ p ∈ ps, p ≠ 0 ∧
        tx.free.pages.pageRead p = .ok (((w.phaseOne tx).published tx map).file.page p) := by
  obtain ⟨hbase, hbegan, hchunks, hdisk⟩ := h.phaseOne hb hfile ⟨ps, ht⟩
  have hversion : (w.phaseOne tx).kv.version = w.kv.version := by
    obtain ⟨chunks, total, he⟩ := extendMmap_eq w.kv (w.kv.commitSize tx)
    show (w.kv.extendMmap (w.kv.commitSize tx)).version = _
    rw [he]
  have hnext : ((w.phaseOne tx).published tx map).kv.version = w.kv.version + 1 :=
    congrArg (· + 1) hversion
  rw [← hversion] at hlt
  have hinv := hbase.publish hbegan ht hchunks rfl hdisk hlt
  rw [hversion] at hinv
  refine ⟨hinv.base.withStage w.stage, hnext, ?_, fun p hp => ?_⟩
  · rw [treePages, hnext, if_neg (Nat.succ_ne_zero _), Function.update_self]
  · refine ⟨((TxPages.lawful hb.sound).ptr ht.owns p hp).1, ?_⟩
    obtain ⟨nodes, items, used, hst⟩ := ht.owns
    show _ = Except.ok ((w.phaseOne tx).disk.page p)
    rw [hdisk]
    exact hst.pages.written (Multiset.mem_add.mpr (Or.inr hp))

/-- The meta page is written, and none of the tree's pages with it. -/
theorem Base.wroteRoot (h : w.Base pages) (hne : w.kv.version ≠ 0) :
    (w.wrote [w.rootWrite]).Base pages ∧
      ∀ p, p ≠ 0 → (w.wrote [w.rootWrite]).file.page p = w.file.page p := by
  rw [← h.latest_version] at hne
  refine ⟨(h.root hne).base.withStage w.stage, fun p hp => ?_⟩
  show (w.disk.pwrites (w.pending ++ [w.rootWrite])).page p = _
  rw [File.pwrites_append]
  refine File.page_pwrites_of_notMem fun pw hpw he => hp ?_
  rw [← he, List.mem_singleton.mp hpw]
  rfl

theorem Base.settled (h : w.Base pages) (hne : w.kv.version ≠ 0) :
    (w.wrote [w.rootWrite]).settled.Base pages := by
  rw [← h.latest_version] at hne
  have hroot := h.root hne
  exact (hroot.base.settle hroot.stage).base.withStage w.stage

end Commit

/-! ## Stores in step -/

/-- No transaction, or two in step. -/
inductive TwinStage (w w' : World) (pages : Nat → Multiset Nat) : Stage → Stage → Prop where
  | idle : TwinStage w w' pages .idle .idle
  | running {tx tx' : KVTX} {map : Contents} {b b' : TxBase} {ps : Multiset Nat} :
      w.Began pages b → b.file = w.file → w'.Began pages b' → b'.file = w'.file →
      TwinTx b b' tx tx' map ps → TwinStage w w' pages (.running tx map) (.running tx' map)

/-- The same store over files that have the same tree. -/
structure Twin (w w' : World) (pages : Nat → Multiset Nat) : Prop where
  left : w.Base pages
  right : w'.Base pages
  kv : SameKV w.kv w'.kv
  history : w'.history = w.history
  seen : w'.seen = w.seen
  trees : ∀ p ∈ w.treePages pages, w'.file.page p = w.file.page p
  stages : TwinStage w w' pages w.stage w'.stage

section Twin

variable {st st' : Stage}

/-- Transactions are not concerned by what happens to the readers. -/
theorem TwinStage.move (h : TwinStage w w' pages st st') (hs : SameStore w v)
    (hp : ∀ V, v.Protected V → w.Protected V) (hs' : SameStore w' v')
    (hp' : ∀ V, v'.Protected V → w'.Protected V) : TwinStage v v' pages st st' := by
  cases h with
  | idle => exact .idle
  | running hb hf hb' hf' ht =>
      exact .running (hs.began hp hb) (hf.trans hs.file.symm) (hs'.began hp' hb')
        (hf'.trans hs'.file.symm) ht

/-- No transaction in either, or one in both. -/
theorem TwinStage.cases (h : TwinStage w w' pages st st') : (st = .idle ∧ st' = .idle) ∨
    ∃ tx tx' map b b' ps, st = .running tx map ∧ st' = .running tx' map ∧ w.Began pages b ∧
      b.file = w.file ∧ w'.Began pages b' ∧ b'.file = w'.file ∧ TwinTx b b' tx tx' map ps := by
  cases h with
  | idle => exact Or.inl ⟨rfl, rfl⟩
  | running hb hf hb' hf' ht => exact Or.inr ⟨_, _, _, _, _, _, rfl, rfl, hb, hf, hb', hf', ht⟩

theorem TwinStage.left (h : TwinStage w w' pages st st') : w.StageInv pages st := by
  cases h with
  | idle => trivial
  | running hb hf _ _ ht =>
      exact ⟨_, hb, hf, _, ht.trees.tree, ht.trees.pages.left⟩

theorem TwinStage.right (h : TwinStage w w' pages st st') : w'.StageInv pages st' := by
  cases h with
  | idle => trivial
  | running hb _ hb' hf' ht => exact ⟨_, hb', hf', _, ht.right hb.sound hb'.sound⟩

theorem Twin.treePages (h : Twin w w' pages) : w'.treePages pages = w.treePages pages := by
  rw [World.treePages, World.treePages, h.kv.version]

theorem Twin.latest (h : Twin w w' pages) : w'.latest = w.latest := by
  rw [World.latest, World.latest, h.history, h.kv.version]

theorem Twin.readers (h : Twin w w' pages) : w'.readers = w.readers := by
  rw [World.readers, World.readers, h.kv.readers]

/-- **Stores in step look the same.** -/
theorem Twin.numbers (h : Twin w w' pages) : w'.numbers = w.numbers := by
  have hstages := h.stages
  unfold World.numbers
  rw [h.kv.root, h.kv.version, h.kv.durable, h.kv.flushed, h.kv.free, h.history]
  generalize w.stage = st at hstages ⊢
  generalize w'.stage = st' at hstages ⊢
  cases hstages with
  | idle => rfl
  | running _ _ _ _ ht =>
      obtain ⟨hsame, nodes, items, used, _, hin⟩ := ht.trees.pages.lists
      have hstate := hin.state
      have hkeys := hsame.keys
      have happend := hsame.append
      unfold KVTX.pageUpdates KVTX.free
      dsimp only
      rw [ht.version, ht.trees.root, hstate, hkeys, happend]

/-- Only the readers move. -/
theorem Twin.move (h : Twin w w' pages) (hs : SameStore w v)
    (hp : ∀ V, v.Protected V → w.Protected V) (hs' : SameStore w' v')
    (hp' : ∀ V, v'.Protected V → w'.Protected V) (hv : v.Base pages) (hv' : v'.Base pages)
    (hkv : SameKV v.kv v'.kv) (hseen : v'.seen = v.seen) (hstage : v.stage = w.stage)
    (hstage' : v'.stage = w'.stage) : Twin v v' pages := by
  refine ⟨hv, hv', hkv, ?_, hseen, fun p hm => ?_, ?_⟩
  · rw [hs.history, hs'.history, h.history]
  · rw [hs.file, hs'.file]
    refine h.trees p ?_
    rw [World.treePages, hs.version] at hm
    exact hm
  · rw [hstage, hstage']
    exact h.stages.move hs hp hs' hp'

/-- Only the transaction moves. -/
theorem Twin.setStage (h : Twin w w' pages) (hst : TwinStage w w' pages st st') :
    Twin { w with stage := st } { w' with stage := st' } pages :=
  ⟨h.left.withStage st, h.right.withStage st', h.kv, h.history, h.seen, h.trees,
    hst.move (sameStore_stage w st) (fun _ hV => ⟨hV.mem, hV.ne, hV.why⟩) (sameStore_stage w' st')
      fun _ hV => ⟨hV.mem, hV.ne, hV.why⟩⟩

/-! ## Readers -/

theorem Twin.beginRead (h : Twin w w' pages) {id : Nat} (hid : id ∉ w.readers) :
    Twin (w.beginRead id) (w'.beginRead id) pages := by
  obtain ⟨hs, hp, hb⟩ := h.left.beginRead hid
  obtain ⟨hs', hp', hb'⟩ := h.right.beginRead (h.readers.symm ▸ hid)
  refine h.move hs hp hs' hp' hb hb' ⟨h.kv.root, h.kv.version, ?_, h.kv.flushed, h.kv.free,
    h.kv.durable⟩ ?_ rfl rfl
  · show (w'.kv.beginRead id).2.readers = (w.kv.beginRead id).2.readers
    unfold KV.beginRead
    rw [h.kv.readers, h.kv.version]
  · show Function.update w'.seen id w'.latest.map = Function.update w.seen id w.latest.map
    rw [h.seen, h.latest]

theorem Twin.endRead (h : Twin w w' pages) (id : Nat) :
    Alike (fun kv kv' => Twin { w with kv := kv } { w' with kv := kv' } pages) (w.kv.endRead id)
      (w'.kv.endRead id) := by
  rw [KV.endRead, KV.endRead, h.kv.readers]
  cases hremove : w.kv.readers.remove (w.kv.readers.heapIndex id) with
  | error f => exact .error f
  | ok r =>
      obtain ⟨r, heap⟩ := r
      obtain ⟨hs, hp, hb⟩ := h.left.endRead hremove
      obtain ⟨hs', hp', hb'⟩ := h.right.endRead (by rw [h.kv.readers]; exact hremove)
      exact .ok (h.move hs hp hs' hp' hb hb' ⟨h.kv.root, h.kv.version, rfl, h.kv.flushed,
        h.kv.free, h.kv.durable⟩ h.seen rfl rfl)

/-- Open readers read the same. -/
theorem Twin.reader (h : Twin w w' pages) {id : Nat} (hid : id ∈ w.readers) :
    ((w.reader id).tree w.file).ReadsAs (w.seen id) ∧
      ((w'.reader id).tree w'.file).ReadsAs (w.seen id) := by
  have hinv : w.Inv pages := ⟨h.left, h.stages.left⟩
  have hinv' : w'.Inv pages := ⟨h.right, h.stages.right⟩
  obtain ⟨_, hview, _⟩ := hinv.view hid
  obtain ⟨_, hview', _⟩ := hinv'.view (h.readers.symm ▸ hid)
  have hreads := hview'.readsAs
  rw [h.seen] at hreads
  exact ⟨hview.readsAs, hreads⟩

/-! ## Transactions -/

/-- **A transaction begins** on the same tree and the same list. -/
theorem Twin.begin (h : Twin w w' pages) : TwinStage w w' pages
    (.running (w.kv.begin w.file) w.latest.map) (.running (w'.kv.begin w'.file) w'.latest.map) := by
  have hd := h.left.begin_denotes
  have hd' := h.right.begin_denotes
  have hpages := h.treePages
  have hq := h.left.queue
  have hq' := h.right.queue
  rw [hpages] at hd'
  rw [h.latest] at hq' ⊢
  have hupdates : (w'.kv.beginPages w'.file).pageUpdates = (w.kv.beginPages w.file).pageUpdates := by
    show (if w'.kv.version = 0 then _ else _) = if w.kv.version = 0 then _ else _
    rw [h.kv.version]
  obtain ⟨_, _, _, hst⟩ := hd.owns
  obtain ⟨_, _, _, hst'⟩ := hd'.owns
  refine .running h.left.began rfl h.right.began rfl ⟨h.kv.version, h.kv.root, hd.tree, hd.owns,
    hd'.owns, ⟨⟨h.kv.flushed, rfl,
      congrArg (List.map Prod.fst) hupdates, hst.pages.sorted, hst'.pages.sorted⟩, w.latest.nodes,
      w.latest.items, w.latest.used, seqToIdx_lt _, hq, hq', h.kv.free, h.kv.version, ?_⟩,
      fun q hm => ?_⟩
  · show w'.kv.minReader = w.kv.minReader
    rw [KV.minReader, KV.minReader, h.kv.readers, h.kv.durable]
  · -- the pages of the tree are read from the file, where both have them
    obtain ⟨hne, hm'⟩ := mem_treePages hm
    have hne' : w'.kv.version ≠ 0 := by
      rw [h.kv.version]
      exact hne
    have hread := h.left.read_latest hne (Multiset.mem_add.mpr (Or.inl hm'))
    have hread' := h.right.read_latest hne' (Multiset.mem_add.mpr
      (Or.inl (h.kv.version.symm ▸ hm')))
    show (w'.kv.beginPages w'.file).pageRead q = (w.kv.beginPages w.file).pageRead q
    rw [hread, hread', h.trees q hm]

/-! ## Commits -/

variable {b b' : TxBase} {tx tx' : KVTX} {map : Contents} {ps : Multiset Nat}

/-- **A store is in step with what it is once buffered pages are in its file.** -/
theorem Base.twin_lands (h : w.Base pages) (hidle : w.stage = .idle) (hb : w.Began pages b)
    (hfile : b.file = w.file) (ht : TxInv b tx map) {ws : List PageWrite}
    (hws : ∀ pw ∈ ws, pw ∈ pageWrites tx.pageUpdates) :
    Twin w ((w.mapped tx).wrote ws) pages := by
  obtain ⟨hbase, _, _, htrees⟩ := h.lands hb hfile ht hws
  obtain ⟨_, _, he⟩ := extendMmap_eq w.kv (w.kv.commitSize tx)
  refine ⟨h, hbase, ?_, rfl, rfl, htrees, ?_⟩
  · show SameKV w.kv (w.kv.extendMmap (w.kv.commitSize tx))
    rw [he]
    exact ⟨rfl, rfl, rfl, rfl, rfl, rfl⟩
  · show TwinStage _ _ pages w.stage w.stage
    rw [hidle]
    exact .idle

/-- What two transactions in step leave in their files if they are over. -/
structure Ending (w w' : World) (pages : Nat → Multiset Nat) (b b' : TxBase) (tx tx' : KVTX)
    (map : Contents) (ps : Multiset Nat) : Prop where
  stores : Twin w w' pages
  idle : w.stage = .idle
  idle' : w'.stage = .idle
  began : w.Began pages b
  file : b.file = w.file
  began' : w'.Began pages b'
  file' : b'.file = w'.file
  txs : TwinTx b b' tx tx' map ps

theorem Ending.left (h : Ending w w' pages b b' tx tx' map ps) :
    tx.tree.Denotes (TxOwns b) map ps := ⟨h.txs.trees.tree, h.txs.trees.pages.left⟩

theorem Ending.right (h : Ending w w' pages b b' tx tx' map ps) :
    tx'.tree.Denotes (TxOwns b') map ps := h.txs.right h.began.sound h.began'.sound

/-- **Phase 1 fails** in both, and it does not matter what is in the files then. -/
theorem Ending.lands (h : Ending w w' pages b b' tx tx' map ps) {ws ws' : List PageWrite}
    (hws : ∀ pw ∈ ws, pw ∈ pageWrites tx.pageUpdates)
    (hws' : ∀ pw ∈ ws', pw ∈ pageWrites tx'.pageUpdates) :
    Twin ((w.mapped tx).wrote ws) ((w'.mapped tx').wrote ws') pages := by
  have h1 := h.stores.left.twin_lands h.idle h.began h.file ⟨ps, h.left⟩ hws
  have h2 := h.stores.right.twin_lands h.idle' h.began' h.file' ⟨ps, h.right⟩ hws'
  refine ⟨h1.right, h2.right, h1.kv.symm.trans (h.stores.kv.trans h2.kv), h.stores.history,
    h.stores.seen, fun p hp => ?_, ?_⟩
  · rw [h1.treePages] at hp
    rw [h1.trees p hp, h2.trees p (h.stores.treePages.symm ▸ hp), h.stores.trees p hp]
  · show TwinStage _ _ pages w.stage w'.stage
    rw [h.idle, h.idle']
    exact .idle

/-- **Both publish**: what the files have of the new tree is the same. -/
theorem Ending.published (h : Ending w w' pages b b' tx tx' map ps)
    (hlt : w.kv.version + 1 < 2 ^ 63) :
    Twin ((w.phaseOne tx).published tx map) ((w'.phaseOne tx').published tx' map)
      (Function.update pages (w.kv.version + 1) ps) ∧
      ((w.phaseOne tx).published tx map).kv.version ≠ 0 ∧
      ∀ p ∈ ((w.phaseOne tx).published tx map).treePages
        (Function.update pages (w.kv.version + 1) ps), p ≠ 0 := by
  have hlt' : w'.kv.version + 1 < 2 ^ 63 := by
    rw [h.stores.kv.version]
    exact hlt
  obtain ⟨hbase, hversion, htree, hread⟩ := h.stores.left.published h.began h.file h.left hlt
  obtain ⟨hbase', _, _, hread'⟩ := h.stores.right.published h.began' h.file' h.right hlt'
  rw [h.stores.kv.version] at hbase'
  have hkv : SameKV (w.phaseOne tx).kv (w'.phaseOne tx').kv := h.stores.kv.extend _ _
  have hnext : (w'.phaseOne tx').next tx' map = (w.phaseOne tx).next tx map := h.txs.next hkv
  refine ⟨⟨hbase, hbase', h.txs.publish hkv, ?_, h.stores.seen, fun p hp => ?_, ?_⟩, ?_, fun p hp => ?_⟩
  · show w'.history ++ [(w'.phaseOne tx').next tx' map] = w.history ++ [(w.phaseOne tx).next tx map]
    rw [hnext, h.stores.history]
  · rw [htree] at hp
    have h1 := (hread p hp).2
    have h2 := (hread' p hp).2
    -- each file has the page as its transaction read it, and they read the same
    have hsame : tx'.free.pages.pageRead p = tx.free.pages.pageRead p := h.txs.trees.pages.read p hp
    rw [h1, h2, Except.ok.injEq] at hsame
    exact hsame
  · show TwinStage _ _ _ w.stage w'.stage
    rw [h.idle, h.idle']
    exact .idle
  · rw [hversion]
    exact Nat.succ_ne_zero _
  · rw [htree] at hp
    exact (hread p hp).1

theorem Twin.wroteRoot (h : Twin w w' pages) (hidle : w.stage = .idle) (hidle' : w'.stage = .idle)
    (hne : w.kv.version ≠ 0) (hpages : ∀ p ∈ w.treePages pages, p ≠ 0) :
    Twin (w.wrote [w.rootWrite]) (w'.wrote [w'.rootWrite]) pages := by
  obtain ⟨hbase, hpage⟩ := h.left.wroteRoot hne
  obtain ⟨hbase', hpage'⟩ := h.right.wroteRoot (h.kv.version.symm ▸ hne)
  refine ⟨hbase, hbase', h.kv, h.history, h.seen, fun p hp => ?_, ?_⟩
  · rw [hpage p (hpages p hp), hpage' p (hpages p hp), h.trees p hp]
  · show TwinStage _ _ _ w.stage w'.stage
    rw [hidle, hidle']
    exact .idle

theorem Twin.settled (h : Twin w w' pages) (hidle : w.stage = .idle) (hidle' : w'.stage = .idle)
    (hne : w.kv.version ≠ 0) (hpages : ∀ p ∈ w.treePages pages, p ≠ 0) :
    Twin (w.wrote [w.rootWrite]).settled (w'.wrote [w'.rootWrite]).settled pages := by
  have hroot := h.wroteRoot hidle hidle' hne hpages
  refine ⟨h.left.settled hne, h.right.settled (h.kv.version.symm ▸ hne), ⟨h.kv.root, h.kv.version,
    h.kv.readers, h.kv.flushed, h.kv.free, h.kv.version⟩, h.history, h.seen,
    fun p hp => hroot.trees p hp, ?_⟩
  show TwinStage _ _ _ w.stage w'.stage
  rw [hidle, hidle']
  exact .idle

/-- The same reply, and stores in step. -/
def TwinReply (r r' : StoreReply × World) : Prop := r'.1 = r.1 ∧ ∃ pages, Twin r.2 r'.2 pages

/-- **A commit ends alike** in stores in step. -/
theorem Twin.commit (h : Twin w w' pages) (hb : w.Began pages b) (hf : b.file = w.file)
    (hb' : w'.Began pages b') (hf' : b'.file = w'.file) (ht : TwinTx b b' tx tx' map ps)
    (how : CommitEnd) : Alike TwinReply (w.commit tx map how) (w'.commit tx' map how) := by
  have hidle : Twin { w with stage := .idle } { w' with stage := .idle } pages := h.setStage .idle
  have hprot : ∀ (u : World) V, World.Protected { u with stage := .idle } V → u.Protected V :=
    fun _ _ hV => ⟨hV.mem, hV.ne, hV.why⟩
  have hend : Ending { w with stage := .idle } { w' with stage := .idle } pages b b' tx tx' map ps :=
    ⟨hidle, rfl, rfl, (sameStore_stage w .idle).began (hprot w) hb, hf,
      (sameStore_stage w' .idle).began (hprot w') hb', hf', ht⟩
  have hmem : ∀ {us : List (Nat × Bytes)} (f : PageWrite → Bool), ∀ pw ∈ (pageWrites us).filter f,
      pw ∈ pageWrites us := fun _ _ hpw => (List.mem_filter.mp hpw).1
  unfold World.commit
  dsimp only
  rw [h.kv.root, ht.trees.root, h.kv.version]
  -- nothing was written: the commit only ends the transaction
  by_cases hroot : tx.tree.root = w.kv.root
  · rw [if_pos hroot, if_pos hroot]
    exact .ok ⟨rfl, pages, hidle⟩
  · rw [if_neg hroot, if_neg hroot]
    have hpublished : w.kv.version + 1 < 2 ^ 63 → _ := hend.published
    cases how with
    | mmapFails => exact .ok ⟨rfl, pages, hidle⟩
    | writeFails landed => exact .ok ⟨rfl, pages, hend.lands (hmem _) (hmem _)⟩
    | rootFails =>
        dsimp only
        by_cases hlt : w.kv.version + 1 < 2 ^ 63
        · obtain ⟨htwin, _, _⟩ := hpublished hlt
          rw [require_pos hlt, ok_bind, ok_bind]
          exact .ok ⟨rfl, _, htwin⟩
        · rw [require_neg hlt]
          exact .error _
    | settleFails =>
        dsimp only
        by_cases hlt : w.kv.version + 1 < 2 ^ 63
        · obtain ⟨htwin, hne, hpages⟩ := hpublished hlt
          rw [require_pos hlt, ok_bind, ok_bind]
          exact .ok ⟨rfl, _, htwin.wroteRoot rfl rfl hne hpages⟩
        · rw [require_neg hlt]
          exact .error _
    | completes =>
        dsimp only
        by_cases hlt : w.kv.version + 1 < 2 ^ 63
        · obtain ⟨htwin, hne, hpages⟩ := hpublished hlt
          rw [require_pos hlt, ok_bind, ok_bind]
          exact .ok ⟨rfl, _, htwin.settled rfl rfl hne hpages⟩
        · rw [require_neg hlt]
          exact .error _

/-! ## Every call -/

theorem alike_caught {r r' : Except Fault (StoreReply × World)} (h : Twin w w' pages)
    (hr : Alike TwinReply r r') : Alike TwinReply (w.caught r) (w'.caught r') := by
  cases r with
  | ok a => cases r' with
    | ok a' => exact hr
    | error f => exact hr.elim
  | error f => cases r' with
    | ok a' => exact hr.elim
    | error f' =>
        have hf : f = f' := hr
        rw [← hf]
        cases f with
        | throws what => exact .ok ⟨rfl, pages, h⟩
        | _ => exact .error _

/-- Two reads of the same. -/
theorem Twin.reads {α : Type} (h : Twin w w' pages) (reply : α → StoreReply) {r r' : Except Fault α}
    (hr : r' = r) : Alike TwinReply (w.reads reply r) (w'.reads reply r') := by
  refine alike_caught h ?_
  rw [hr]
  cases r with
  | ok a => exact .ok ⟨rfl, pages, h⟩
  | error f => exact .error f

theorem Twin.ofReader {α : Type} (h : Twin w w' pages) (id : Nat) (reply : α → StoreReply)
    {f : BTree MappedPages → Except Fault α}
    (hf : ∀ {t t' : BTree MappedPages} {m : Contents}, t.ReadsAs m → t'.ReadsAs m → f t' = f t) :
    Alike TwinReply (w.ofReader id reply f) (w'.ofReader id reply f) := by
  unfold World.ofReader
  rw [h.readers]
  by_cases hid : id ∈ w.readers
  · obtain ⟨hreads, hreads'⟩ := h.reader hid
    rw [if_pos hid, if_pos hid]
    exact h.reads reply (hf hreads hreads')
  · rw [if_neg hid, if_neg hid]
    exact .ok ⟨rfl, pages, h⟩

/-- A call of the transactions, if there are any. -/
theorem Twin.ofTx (h : Twin w w' pages)
    {f f' : KVTX → Contents → Except Fault (StoreReply × World)}
    (hf : ∀ {tx tx' : KVTX} {map : Contents} {b b' : TxBase} {ps : Multiset Nat},
      w.Began pages b → b.file = w.file → w'.Began pages b' → b'.file = w'.file →
      TwinTx b b' tx tx' map ps → Alike TwinReply (f tx map) (f' tx' map)) :
    Alike TwinReply (w.ofTx f) (w'.ofTx f') := by
  unfold World.ofTx
  rcases h.stages.cases with ⟨hw, hw'⟩ | ⟨tx, tx', map, b, b', ps, hw, hw', hb, hf1, hb', hf1', ht⟩
  · rw [hw, hw']
    exact .ok ⟨rfl, pages, h⟩
  · rw [hw, hw']
    exact hf hb hf1 hb' hf1' ht

theorem readsAs_get_eq {σ τ : Type} [PageManager σ] [PageManager τ] {t : BTree σ} {t' : BTree τ}
    {m : Contents} (h : t.ReadsAs m) (h' : t'.ReadsAs m) (key : Bytes) : t'.get key = t.get key := by
  by_cases hk : ValidKey key
  · rw [h.get key hk, h'.get key hk]
  · rw [BTree.get_invalid t hk, BTree.get_invalid t' hk]

/-- The two trees read the same. -/
theorem TwinTx.reads {b b' : TxBase} {tx tx' : KVTX} {map : Contents} {ps : Multiset Nat}
    (hb : b.Sound) (hb' : b'.Sound) (h : TwinTx b b' tx tx' map ps) :
    tx.tree.ReadsAs map ∧ tx'.tree.ReadsAs map := by
  have hreads : ∀ {b : TxBase} {tx : KVTX}, b.Sound → tx.tree.Denotes (TxOwns b) map ps →
      tx.tree.ReadsAs map := fun hb ht =>
    BTree.readsAs ht.tree (fun p hp => ((TxPages.lawful hb).ptr ht.owns p hp).1)
      ((TxPages.lawful hb).count ht.owns)
  exact ⟨hreads hb ⟨h.trees.tree, h.trees.pages.left⟩, hreads hb' (h.right hb hb')⟩

/-- **Every call keeps stores in step**, and returns the same on both. -/
theorem Twin.call (h : Twin w w' pages) (c : StoreCall) :
    Alike TwinReply (w.call c) (w'.call c) := by
  cases c with
  | beginRead id =>
      show Alike TwinReply (w.openReader id) (w'.openReader id)
      unfold World.openReader
      rw [h.readers]
      by_cases hid : id ∈ w.readers
      · rw [if_pos hid, if_pos hid]
        exact .ok ⟨rfl, pages, h⟩
      · rw [if_neg hid, if_neg hid]
        exact .ok ⟨rfl, pages, h.beginRead hid⟩
  | endRead id =>
      show Alike TwinReply (w.closeReader id) (w'.closeReader id)
      unfold World.closeReader
      rw [h.readers]
      by_cases hid : id ∈ w.readers
      · rw [if_pos hid, if_pos hid]
        refine (h.endRead id).bind ?_
        intro kv kv' hkv
        exact .ok ⟨rfl, pages, hkv⟩
      · rw [if_neg hid, if_neg hid]
        exact .ok ⟨rfl, pages, h⟩
  | readerGet id key => exact h.ofReader id _ fun hr hr' => readsAs_get_eq hr hr' key
  | readerSeek id key cmp moves =>
      refine h.ofReader id .entry (f := fun t => t.walk key cmp moves) ?_
      intro t t' m hr hr'
      rw [hr.walk, hr'.walk]
  | begin =>
      show Alike TwinReply w.openTx w'.openTx
      unfold World.openTx
      -- both are idle, or both run a transaction
      rcases h.stages.cases with ⟨hw, hw'⟩ | ⟨tx, tx', map, b, b', ps, hw, hw', _⟩
      · rw [hw, hw']
        exact .ok ⟨rfl, pages, h.setStage h.begin⟩
      · rw [hw, hw']
        exact .ok ⟨rfl, pages, h⟩
  | get key =>
      refine h.ofTx fun hb _ hb' _ ht => h.reads _ ?_
      obtain ⟨hr, hr'⟩ := TwinTx.reads hb.sound hb'.sound ht
      exact readsAs_get_eq hr hr' key
  | seek key cmp moves =>
      refine h.ofTx fun hb _ hb' _ ht => h.reads _ ?_
      obtain ⟨hr, hr'⟩ := TwinTx.reads hb.sound hb'.sound ht
      rw [hr.walk, hr'.walk]
  | set key val =>
      refine h.ofTx fun hb hf hb' hf' ht => alike_caught h ?_
      refine (ht.set hb.sound hb'.sound key val).bind ?_
      rintro tx tx' ⟨ps, ht'⟩
      exact .ok ⟨rfl, pages, h.setStage (.running hb hf hb' hf' ht')⟩
  | del key =>
      refine h.ofTx fun hb hf hb' hf' ht => alike_caught h ?_
      refine (ht.del hb.sound hb'.sound key).bind ?_
      rintro ⟨found, tx⟩ ⟨found', tx'⟩ ⟨hfound, ps, ht'⟩
      exact .ok ⟨congrArg StoreReply.deleted hfound, pages,
        h.setStage (.running hb hf hb' hf' ht')⟩
  | commit how => exact h.ofTx fun hb hf hb' hf' ht => h.commit hb hf hb' hf' ht how
  | abort => exact h.ofTx fun _ _ _ _ _ => .ok ⟨rfl, pages, h.setStage .idle⟩

/-- **Stores in step answer alike**, to any calls. -/
theorem Twin.results (h : Twin w w' pages) (calls : List StoreCall) :
    w'.results calls = w.results calls := by
  induction calls generalizing w w' pages with
  | nil => rfl
  | cons c calls ih =>
      have hcall := h.call c
      unfold World.results
      cases hr : w.call c with
      | error f =>
          cases hr' : w'.call c with
          | error f' =>
              rw [hr, hr'] at hcall
              have hf : f = f' := hcall
              rw [hf]
          | ok r' =>
              rw [hr, hr'] at hcall
              exact hcall.elim
      | ok r =>
          rw [hr] at hcall
          obtain ⟨r', hr', hreply, pages', htwin⟩ := hcall.of_ok rfl
          rw [hr']
          dsimp only
          rw [hreply, htwin.numbers, ih htwin]

end Twin

/-! ## The failed commit -/

/-- **A commit that fails in phase 1 is a complete rollback.** Whatever it left in the file, every
later sequence of calls returns what it returns after an abort: the same replies, the same committed
maps, the same page numbers. -/
theorem failed_commit_is_abort (h : Reachable w) {how : CommitEnd} (hearly : how.Early)
    (hcommit : w.call (.commit how) = .ok (.failed, v)) : ∃ v',
    w.call .abort = .ok (.done, v') ∧ ∀ calls, v.results calls = v'.results calls := by
  obtain ⟨pages, hinv⟩ := h.inv
  have hbase := hinv.base
  have hstage := hinv.stage
  unfold World.call World.ofTx at hcommit ⊢
  dsimp only at hcommit ⊢
  cases hw : w.stage with
  | running tx map =>
      rw [hw] at hcommit hstage
      dsimp only at hcommit
      refine ⟨_, rfl, fun calls => ?_⟩
      obtain ⟨b, hb, hf, ht⟩ := hstage
      have hbegan := (sameStore_stage w .idle).began (fun _ hV => ⟨hV.mem, hV.ne, hV.why⟩) hb
      unfold World.commit at hcommit
      dsimp only at hcommit
      -- a commit with nothing to write does not fail
      by_cases hroot : tx.tree.root = w.kv.root
      · rw [if_pos hroot] at hcommit
        cases hcommit
      · rw [if_neg hroot] at hcommit
        cases how with
        | mmapFails =>
            cases hcommit
            rfl
        | writeFails landed =>
            have hv := congrArg Prod.snd (Except.ok.inj hcommit)
            dsimp only at hv
            rw [← hv]
            exact ((hbase.withStage .idle).twin_lands rfl hbegan hf ht fun pw hpw =>
              (List.mem_filter.mp hpw).1).results calls
        | _ => exact hearly.elim
  | _ =>
      rw [hw] at hcommit
      cases hcommit

/-- The first commit of a new file, with all its pages written and not durable. -/
theorem failed_first_commit_is_abort : ∃ w v v' : World, Reachable w ∧
    w.call (.commit (.writeFails fun _ => true)) = .ok (.failed, v) ∧
    w.call .abort = .ok (.done, v') ∧ ∀ calls, v.results calls = v'.results calls := by
  obtain ⟨w, tx, map, hw, _, _, hrun, hne⟩ := first_transaction
  have hcommit : ∃ v, w.call (.commit (.writeFails fun _ => true)) = .ok (.failed, v) := by
    refine ⟨World.wrote (World.mapped { w with stage := .idle } tx)
      ((pageWrites tx.pageUpdates).filter fun _ => true), ?_⟩
    unfold World.call World.ofTx
    dsimp only
    rw [hrun]
    dsimp only
    unfold World.commit
    dsimp only
    rw [if_neg hne]
    rfl
  obtain ⟨v, hcommit⟩ := hcommit
  have hearly : (CommitEnd.writeFails fun _ => true).Early := trivial
  obtain ⟨v', habort, hsame⟩ := failed_commit_is_abort hw hearly hcommit
  exact ⟨w, v, v', hw, hcommit, habort, hsame⟩

end World

end SqlDb
