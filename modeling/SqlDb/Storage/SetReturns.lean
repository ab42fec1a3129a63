import Mathlib.Logic.Relation
import SqlDb.Storage.PageNumbers
import SqlDb.Storage.WriteCheck

/-!
# Writes that go through

A transaction can run out of page numbers, and of sequence numbers for its free list. Both
are 64 bits wide, and a call takes a few for each page there is. While they are far from
their end every `set` returns, whichever version the transaction began on, and its commit
can write to the end.
-/

namespace SqlDb

open Outcome FreeList OrdMap

/-! ## The numbers of a transaction -/

namespace TxPages

/-- The file ends at page `p`, and `q` items were appended to the free list, at most. -/
structure Upto (p q : Nat) (fl : FreeList TxPages) : Prop where
  stop : fl.pages.stop ≤ p
  seq : fl.state.tailSeq ≤ q

section Upto

variable {p q : Nat} {s : TxPages} {fl : FreeList TxPages}

theorem quiet_pageRead (s : TxPages) (ptr : Nat) : Quiet (s.pageRead ptr) := by
  have hloop : ∀ chunks start, Quiet (pageGetMappedLoop s.file ptr chunks start) := by
    intro chunks
    induction chunks with
    | nil =>
        intro start
        show Fault.throws _ ≠ .overflow
        exact fun h => by cases h
    | cons chunk chunks ih =>
        intro start
        rw [pageGetMappedLoop]
        split
        · unfold File.mapped
          split
          · trivial
          · show Fault.busError ≠ .overflow
            decide
        · exact ih _
  unfold pageRead
  split
  · trivial
  · exact hloop _ _

/-- A page that is written is none more. -/
theorem upto_pageUse (s : TxPages) (ptr : Nat) (f : Bytes → Bytes) :
    Ends (· ≠ .overflow) (fun s' => s'.stop = s.stop) (s.pageUse ptr f) :=
  (quiet_pageRead s ptr).bind fun _ _ => rfl

theorem upto_appendItem (h : Upto p q fl) (hq : q + 1 < 2 ^ 64) (ptr : Nat) :
    Ends (· ≠ .overflow) (Upto p (q + 1)) (fl.appendItem ptr) := by
  have hseq := h.seq
  refine Ends.bind (upto_pageUse fl.pages fl.state.tailPage _) fun s hs => ?_
  rw [require_pos (by omega), ok_bind]
  exact ⟨hs.trans_le h.stop, Nat.succ_le_succ hseq⟩

theorem upto_pop (h : Upto p q fl) :
    Ends (· ≠ .overflow) (fun r => Upto p q r.2) fl.pop := by
  unfold FreeList.pop
  by_cases hempty : fl.state.headSeq = fl.state.tailSeq
  · rw [if_pos hempty]
    exact h
  rw [if_neg hempty]
  refine Ends.bind (quiet_pageRead fl.pages fl.state.headPage) fun node _ => ?_
  generalize hold : versionBefore (LNode.getVersion node (seqToIdx fl.state.headSeq)) fl.minReader =
    old
  cases old with
  | false =>
      dsimp only
      rw [hold]
      exact h
  | true =>
      dsimp only
      rw [hold, if_neg (by decide)]
      generalize hlast : seqToIdx (fl.state.headSeq + 1) = idx
      by_cases hidx : idx = 0
      · rw [if_pos hidx]
        generalize LNode.next node = next
        refine Ends.bind (quiet_require _ (by decide)) fun _ _ => ?_
        exact ⟨h.stop, h.seq⟩
      · rw [if_neg hidx]
        exact ⟨h.stop, h.seq⟩

theorem upto_grow (h : s.stop ≤ p) (hp : p + 1 < 2 ^ 64) :
    Ends (· ≠ .overflow) (fun r => r.2.stop ≤ p + 1) s.grow := by
  unfold grow
  rw [require_pos (by omega), ok_bind]
  exact Nat.succ_le_succ h

theorem upto_nextNode (h : Upto p q fl) (hp : p + 1 < 2 ^ 64) (popped : Popped) :
    Ends (· ≠ .overflow) (fun r => Upto (p + 1) q r.2) (fl.nextNode popped) := by
  unfold FreeList.nextNode
  split
  · exact ⟨h.stop.trans (Nat.le_succ p), h.seq⟩
  · have hpage : Ends (· ≠ .overflow) (fun r => r.2.stop ≤ p + 1) (appendPage fl.pages) := by
      refine Ends.bind (upto_grow h.stop hp) fun r hr => ?_
      exact hr
    refine Ends.bind hpage fun r hr => ?_
    exact ⟨hr, h.seq⟩

theorem upto_pushTail (h : Upto p q fl) (hp : p + 1 < 2 ^ 64) (hq : q + 2 < 2 ^ 64) (ptr : Nat) :
    Ends (· ≠ .overflow) (Upto (p + 1) (q + 2)) (fl.pushTail ptr) := by
  unfold FreeList.pushTail
  refine Ends.bind (quiet_require _ (by decide)) fun _ _ => ?_
  refine Ends.bind (quiet_require _ (by decide)) fun _ _ => ?_
  refine Ends.bind (upto_appendItem h (by omega) ptr) fun fl h => ?_
  split
  · exact ⟨h.stop.trans (Nat.le_succ p), h.seq.trans (Nat.le_succ _)⟩
  · refine Ends.bind (upto_pop h) fun r h => ?_
    refine Ends.bind (upto_nextNode h hp r.1) fun next h => ?_
    refine Ends.bind (upto_pageUse next.2.pages next.2.state.tailPage _) fun s hs => ?_
    have h' : Upto (p + 1) (q + 1)
        { next.2 with pages := s, state := { next.2.state with tailPage := next.1 } } :=
      ⟨hs.trans_le h.stop, h.seq⟩
    split
    · exact upto_appendItem h' (by omega) _
    · exact ⟨h'.stop, h'.seq.trans (Nat.le_succ _)⟩

theorem upto_popHead (h : Upto p q fl) (hp : p + 1 < 2 ^ 64) (hq : q + 2 < 2 ^ 64) :
    Ends (· ≠ .overflow) (fun r => Upto (p + 1) (q + 2) r.2) fl.popHead := by
  unfold FreeList.popHead
  refine Ends.bind (upto_pop h) fun r h => ?_
  obtain ⟨popped, fl⟩ := r
  dsimp only at h ⊢
  split
  · refine Ends.bind (upto_pushTail h hp hq _) fun fl h => ?_
    exact h
  · exact ⟨h.stop.trans (Nat.le_succ _), h.seq.trans (Nat.le_add_right _ 2)⟩

theorem upto_pageNew (h : Upto p q fl) (hp : p + 2 < 2 ^ 64) (hq : q + 2 < 2 ^ 64) (node : BNode) :
    Ends (· ≠ .overflow) (fun r => Upto (p + 2) (q + 2) r.2) (pageNew fl node) := by
  have htake : Ends (· ≠ .overflow) (fun r => Upto (p + 2) (q + 2) r.2) (takePage fl) := by
    unfold takePage
    refine Ends.bind (upto_popHead h (by omega) hq) fun r h => ?_
    obtain ⟨ptr, fl⟩ := r
    dsimp only at h ⊢
    split
    · refine Ends.bind (upto_grow h.stop hp) fun s hs => ?_
      exact ⟨hs, h.seq⟩
    · exact ⟨h.stop.trans (Nat.le_succ _), h.seq⟩
  have hencode : Quiet (encode node) := (quiet_require _ (by decide)).bind fun _ _ => trivial
  unfold pageNew
  refine Ends.bind htake fun r h => ?_
  refine Ends.bind hencode fun page _ => ?_
  exact ⟨h.stop, h.seq⟩

end Upto

/-- No number past `N` is in use, of either kind. -/
abbrev Within (N : Nat) : FreeList TxPages → Prop := Upto N N

/-- A page that is taken or freed costs two numbers of each kind at most. -/
theorem counts : Counts Within 2 where
  mono h hle := ⟨h.stop.trans hle, h.seq.trans hle⟩
  count h := h.stop
  get fl ptr := (quiet_pageRead fl.pages ptr).bind fun _ _ =>
    Ends.bind (quiet_require _ (by decide)) fun _ _ => trivial
  newPage h hlt node := upto_pageNew h hlt hlt node
  del {N _} h hlt ptr := (upto_pushTail h (Nat.lt_of_succ_lt hlt) hlt ptr).imp fun _ h =>
    ⟨h.stop.trans (Nat.le_succ _), h.seq⟩

/-- A page that is taken for a node is written. -/
theorem dirty_pageNew (fl : FreeList TxPages) (node : BNode) :
    Ends (fun _ => True) (fun r => r.2.pages.Dirty r.1) (PageManager.newPage fl node) := by
  show Ends _ _ (pageNew fl node)
  unfold pageNew
  cases takePage fl with
  | error f => trivial
  | ok r =>
      cases encode node with
      | error f => trivial
      | ok page => exact dirty_put.mpr (Or.inl rfl)

/-- And so is the root that an insert leaves. -/
theorem dirty_insert (t : BTree (FreeList TxPages)) {key val : Bytes} (hk : ValidKey key)
    (hv : ValidVal val) :
    Ends (fun _ => True) (fun t' => t'.pages.pages.Dirty t'.root) (t.insert key val) := by
  have hstored : ∀ (fl : FreeList TxPages) (node : BNode),
      Ends (fun _ => True) (fun t' : BTree (FreeList TxPages) => t'.pages.pages.Dirty t'.root)
        (PageManager.newPage fl node >>= fun r => .ok ⟨r.1, r.2⟩) :=
    fun fl node => Ends.bind (dirty_pageNew fl node) fun r hr => hr
  have hany : ∀ {α : Type} (r : Except Fault α), Ends (fun _ => True) (fun _ => True) r :=
    fun r => by cases r <;> trivial
  have hroot : ∀ (fl : FreeList TxPages) (split : List BNode), Ends (fun _ => True)
      (fun t' => t'.pages.pages.Dirty t'.root) (BTree.newRoot fl split) :=
    fun fl split => (hany _).bind fun r _ => hstored r.2 r.1
  rw [BTree.insert_valid t hk hv, BTree.insertChecked]
  split
  · generalize BNode.zeroed btreePageSize = page
    exact (hany _).bind fun _ _ => (hany _).bind fun new _ => hstored _ new
  · refine (hany _).bind fun node _ => (hany _).bind fun r _ => (hany _).bind fun split _ =>
      (hany _).bind fun fl _ => ?_
    rcases split with _ | ⟨one, _ | ⟨two, rest⟩⟩
    · exact hroot fl _
    · exact hstored fl one
    · exact hroot fl _

end TxPages

/-- **A `set` returns** while the numbers last. -/
theorem KVTX.set_returns {b : TxBase} (hb : b.Sound) {tx : KVTX} {map : Contents} {k : Nat}
    (h : World.TxInv b tx map) (hw : TxPages.Within (8 ^ (k + 1)) tx.free) (hle : k ≤ 19)
    {key val : Bytes} (hk : ValidKey key) (hv : ValidVal val) :
    ∃ tx', tx.set key val = .ok tx' ∧ TxPages.Within (8 ^ (k + 2)) tx'.free ∧
      tx'.free.pages.Dirty tx'.tree.root := by
  obtain ⟨ps, hd⟩ := h
  have hspec := BTree.insert_spec (TxPages.lawful hb) hd hk hv
  have hcount := TxPages.counts.insert_pow (le_refl 2) hle hw hk hv
  have hdirty := TxPages.dirty_insert tx.tree hk hv
  unfold KVTX.set
  cases hr : tx.tree.insert key val with
  | error f =>
      rw [hr] at hspec hcount
      exact absurd hspec hcount
  | ok t =>
      rw [hr] at hcount hdirty
      exact ⟨_, rfl, hcount, hdirty⟩

namespace World

/-! ## Runs -/

/-- The states that a run comes to from `w`. -/
abbrev Runs : World → World → Prop := Relation.ReflTransGen Step

theorem runs_of_reachable {w : World} (h : Reachable w) : Runs {} w := by
  induction h with
  | start => exact .refl
  | step _ hstep ih => exact ih.tail hstep

theorem Reachable.runs {w w' : World} (h : Reachable w) (hruns : Runs w w') : Reachable w' := by
  induction hruns with
  | refl => exact h
  | tail _ hstep ih => exact .step ih hstep

/-! ## A commit, to its end -/

/-- `extend_mmap`. -/
def mapped (w : World) (tx : KVTX) : World :=
  { w with kv := w.kv.extendMmap (w.kv.commitSize tx) }

def wrote (w : World) (ws : List PageWrite) : World := { w with pending := w.pending ++ ws }

/-- `root_` and `version_` are set. -/
def published (w : World) (tx : KVTX) (map : Contents) : World :=
  { w with kv := w.kv.publish tx, history := w.history ++ [w.next tx map] }

def settled (w : World) : World := { w.sync with kv := w.kv.settle }

/-- Phase 1, with all its writes. -/
def phaseOne (w : World) (tx : KVTX) : World := ((w.mapped tx).wrote (pageWrites tx.pageUpdates)).sync

section Runs

variable {w : World} {tx : KVTX} {map : Contents}

/-- `write_pages` writes one page after another. -/
theorem runs_writes (tx : KVTX) (map : Contents) : ∀ (todo : List PageWrite) (w : World),
    w.stage = .writing tx map todo →
      Runs w { w with pending := w.pending ++ todo, stage := .writing tx map [] }
  | [], w, h => by
      have he : w = { w with pending := w.pending ++ [], stage := .writing tx map [] } := by
        rw [List.append_nil, ← h]
      rw [← he]
  | pw :: todo, w, h => by
      have hrest := runs_writes tx map todo
        { w with pending := w.pending ++ [pw], stage := .writing tx map todo } rfl
      have he : w.pending ++ [pw] ++ todo = w.pending ++ pw :: todo := by simp
      rw [he] at hrest
      exact .head (.write h) hrest

/-- Both phases, up to the meta page. -/
theorem runs_published (hrun : w.stage = .running tx map) (hroot : tx.tree.root ≠ w.kv.root)
    (hlt : w.kv.version + 1 < 2 ^ 63) :
    Runs w { (w.phaseOne tx).published tx map with stage := .published } := by
  have hlt' : (w.phaseOne tx).kv.version + 1 < 2 ^ 63 := by
    have hversion : (w.phaseOne tx).kv.version = w.kv.version := by
      show (w.kv.extendMmap _).version = _
      unfold KV.extendMmap
      split <;> rfl
    rw [hversion]
    exact hlt
  have hwrites := runs_writes tx map (pageWrites tx.pageUpdates)
    { w.mapped tx with stage := .writing tx map (pageWrites tx.pageUpdates) } rfl
  exact ((Relation.ReflTransGen.head (.commit hrun hroot) hwrites).tail (.sync rfl)).tail
    (.publish rfl hlt')

end Runs

/-! ## One write after another -/

/-- The store is idle, and it has used no number past `8 ^ (k + 1)`. -/
structure Rests (w : World) (k : Nat) : Prop where
  reachable : Reachable w
  idle : w.stage = .idle
  stop : w.kv.flushed ≤ 8 ^ (k + 1)
  seq : w.kv.free.tailSeq ≤ 8 ^ (k + 1)
  version : w.kv.version ≤ 8 ^ (k + 1)

theorem rests_start : Rests {} 0 := ⟨.start, rfl, by decide, by decide, by decide⟩

section Rests

variable {w : World} {k : Nat}

theorem Rests.beginRead (h : w.Rests k) {id : Nat} (hid : id ∉ w.readers) :
    (w.beginRead id).Rests k :=
  ⟨.step h.reachable (.beginRead hid), h.idle, h.stop, h.seq, h.version⟩

/-- A transaction that has written one key, and could commit. -/
structure Sets (w : World) (k : Nat) (key val : Bytes) (tx : KVTX) : Prop where
  runs : Runs w { w with stage := .running tx (insert w.latest.map key val) }
  root : tx.tree.root ≠ w.kv.root
  numbers : TxPages.Within (8 ^ (k + 2)) tx.free
  flushed : tx.free.pages.flushed = w.kv.flushed
  writes : pageWrites tx.pageUpdates ≠ []

/-- **Any key can be written** while the numbers last. -/
theorem Rests.sets (h : w.Rests k) (hle : k ≤ 19) {key val : Bytes}
    (hk : ValidKey key) (hv : ValidVal val) : ∃ tx, w.Sets k key val tx := by
  obtain ⟨pages, hinv⟩ := h.reachable.inv
  obtain ⟨b, hbegan, _, htx⟩ := hinv.base.begin
  have hwithin : TxPages.Within (8 ^ (k + 1)) (w.kv.begin w.file).free := ⟨h.stop, h.seq⟩
  obtain ⟨tx, hset, hnumbers, page, hdirty⟩ :=
    KVTX.set_returns hbegan.sound htx hwithin hle hk hv
  have hbegin : Step w { w with stage := .running (w.kv.begin w.file) w.latest.map } := .begin h.idle
  refine ⟨tx, (Relation.ReflTransGen.single hbegin).tail (.set rfl hset), ?_, hnumbers, ?_, ?_⟩
  · have hcall : (w.kv.begin w.file).call (.set key val) = .ok (true, tx) := by
      obtain ⟨tree, htree, he⟩ := bind_eq_ok.mp hset
      cases he
      have htree' : BTree.insert (w.kv.begin w.file).tree key val = .ok tree := htree
      rw [KVTX.call, KVTX.answer, htree']
      rfl
    exact ((RootCheck.begin h.reachable).call hcall).ne
  · obtain ⟨_, hden, nodes, items, used, hst⟩ := htx.set hbegan.sound hset
    rw [← hbegan.flushed]
    exact hst.pages.flushed
  · have hpage : ⟨tx.tree.root, page⟩ ∈ pageWrites tx.pageUpdates := mem_pageWrites.mpr hdirty
    exact List.ne_nil_of_mem hpage

variable {key val : Bytes} {tx : KVTX}

theorem mapped_kv (w : World) (tx : KVTX) : ∃ chunks total,
    (w.mapped tx).kv = { w.kv with chunks := chunks, mmapTotal := total } :=
  extendMmap_eq w.kv (w.kv.commitSize tx)

/-- In its commit all its pages are written. -/
def writing (w : World) (tx : KVTX) (map : Contents) : World :=
  { (w.mapped tx).wrote (pageWrites tx.pageUpdates) with stage := .writing tx map [] }

@[simp] theorem latest_writing {map : Contents} : (w.writing tx map).latest = w.latest := by
  obtain ⟨chunks, total, hkv⟩ := w.mapped_kv tx
  show w.history.getD (w.mapped tx).kv.version .initial = _
  rw [hkv]
  rfl

@[simp] theorem readers_writing {map : Contents} : (w.writing tx map).readers = w.readers := by
  obtain ⟨chunks, total, hkv⟩ := w.mapped_kv tx
  show (w.mapped tx).kv.readers.readers = _
  rw [hkv]
  rfl

theorem Sets.writes_all (h : w.Sets k key val tx) :
    Runs w (w.writing tx (insert w.latest.map key val)) :=
  (h.runs.tail (.commit rfl h.root)).trans (runs_writes tx _ (pageWrites tx.pageUpdates)
    { w.mapped tx with stage := .writing tx _ (pageWrites tx.pageUpdates) } rfl)

/-- Its commit fails with all its pages written. -/
theorem Sets.fails (h : w.Sets k key val tx) (hrests : w.Rests k) :
    ((w.mapped tx).wrote (pageWrites tx.pageUpdates)).Rests k := by
  obtain ⟨chunks, total, hkv⟩ := w.mapped_kv tx
  have hruns : Runs w { w.writing tx (insert w.latest.map key val) with stage := .idle } := by
    refine h.writes_all.tail ?_
    have hfails := Step.writeFails (w := w.writing tx (insert w.latest.map key val)) rfl
      (List.Sublist.refl [])
    rwa [List.append_nil] at hfails
  have hidle : { w.writing tx (insert w.latest.map key val) with stage := .idle } =
      (w.mapped tx).wrote (pageWrites tx.pageUpdates) := by
    show _ = { (w.mapped tx).wrote (pageWrites tx.pageUpdates) with stage := w.stage }
    rw [hrests.idle]
    rfl
  rw [hidle] at hruns
  refine ⟨hrests.reachable.runs hruns, hrests.idle, ?_, ?_, ?_⟩
  · show (w.mapped tx).kv.flushed ≤ 8 ^ (k + 1)
    rw [hkv]
    exact hrests.stop
  · show (w.mapped tx).kv.free.tailSeq ≤ 8 ^ (k + 1)
    rw [hkv]
    exact hrests.seq
  · show (w.mapped tx).kv.version ≤ 8 ^ (k + 1)
    rw [hkv]
    exact hrests.version

/-- The store after a commit of a transaction that left these bindings. -/
def committed (w : World) (tx : KVTX) (map : Contents) : World :=
  let w := (w.phaseOne tx).published tx map
  { (w.wrote [w.rootWrite]).settled with stage := .idle }

@[simp] theorem readers_committed {map : Contents} : (w.committed tx map).readers = w.readers := by
  obtain ⟨chunks, total, hkv⟩ := w.mapped_kv tx
  show (w.mapped tx).kv.readers.readers = _
  rw [hkv]
  rfl

/-- Once its meta page is written a commit is as good as durable. -/
theorem Reachable.rooted_durable (h : Reachable w) (hst : w.stage = .rooted) : w.settled.Durable := by
  obtain ⟨pages, hinv⟩ := h.inv
  have hstage := hinv.stage
  rw [hst] at hstage
  obtain ⟨before, hpending, _⟩ := hstage
  show ¬ (w.disk.pwrites w.pending).NoMeta
  rw [hpending, File.pwrites_append]
  exact (File.holdsMeta_pwrite _ (length_save _)).sig

/-- And it is the latest version then. -/
theorem latest_committed {map : Contents} (h : (w.committed tx map).kv.version = w.history.length) :
    (w.committed tx map).latest.map = map := by
  have hhistory : (w.committed tx map).history =
      w.history ++ [(w.phaseOne tx).next tx map] := rfl
  rw [latest, h, hhistory, List.getD_eq_getElem?_getD, List.getElem?_concat_length]
  rfl

/-- **Its commit goes through.** -/
theorem Sets.commits (h : w.Sets k key val tx) (hrests : w.Rests k) (hle : k ≤ 19) :
    (w.committed tx (insert w.latest.map key val)).Rests (k + 1) ∧
      (w.committed tx (insert w.latest.map key val)).Durable ∧
      (w.committed tx (insert w.latest.map key val)).latest.map = insert w.latest.map key val ∧
      (w.committed tx (insert w.latest.map key val)).kv.version = w.kv.version + 1 := by
  obtain ⟨chunks, total, hkv⟩ := w.mapped_kv tx
  have hversion := hrests.version
  have hlast : 8 ^ (k + 1) ≤ 8 ^ 20 := Nat.pow_le_pow_right (by omega) (by omega)
  have hmax : 8 ^ 20 + 1 < 2 ^ 63 := by decide
  have hpublished := h.runs.trans (runs_published rfl h.root
    (show w.kv.version + 1 < 2 ^ 63 by omega))
  have hrooted := hrests.reachable.runs (hpublished.tail (.writeRoot rfl))
  have hsettled := Reachable.step hrooted (.settle rfl)
  have hkv' : (w.committed tx (insert w.latest.map key val)).kv =
      ((w.mapped tx).kv.publish tx).settle := rfl
  have hv : (w.committed tx (insert w.latest.map key val)).kv.version = w.kv.version + 1 := by
    rw [hkv']
    show (w.mapped tx).kv.version + 1 = _
    rw [hkv]
  refine ⟨⟨hsettled, rfl, ?_, h.numbers.seq, ?_⟩, ?_, ?_, hv⟩
  · rw [hkv']
    show (w.mapped tx).kv.flushed + tx.free.pages.pageAppend ≤ _
    rw [hkv]
    show w.kv.flushed + _ ≤ _
    rw [← h.flushed]
    exact h.numbers.stop
  · rw [hv]
    have hpos : 0 < 8 ^ (k + 1) := Nat.pow_pos (by decide)
    rw [pow_succ]
    omega
  · exact hrooted.rooted_durable rfl
  · obtain ⟨pages, hinv⟩ := hrests.reachable.inv
    exact latest_committed (hv.trans hinv.base.length.symm)

/-- **Any key can be the first one committed**, and then it is durable. -/
theorem first_commit {key val : Bytes} (hk : ValidKey key) (hv : ValidVal val) :
    ∃ w : World, w.Rests 1 ∧ w.Durable ∧ w.readers = 0 ∧ w.latest.map = [(key, val)] := by
  obtain ⟨tx, htx⟩ := rests_start.sets (by decide) hk hv
  obtain ⟨hrests, hdurable, hmap, _⟩ := htx.commits rests_start (by decide)
  exact ⟨_, hrests, hdurable, readers_committed, hmap⟩

end Rests

end World

end SqlDb
