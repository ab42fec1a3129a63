import SqlDb.Storage.WorldInv

/-!
# Commits keep the invariant

Phase 1 writes only what is harmless to every protected version, so it can stop
anywhere. When its writes are durable, the transaction's view of the file is the file,
and the new version is intact before anything refers to it. Phase 2 adds the new
version's meta page to those a power loss may bring back, and at its end leaves that
one alone.
-/

namespace SqlDb

open Outcome FreeList OrdMap

/-! ## The writes of phase 1 -/

/-- A buffered page as a write. -/
def toWrite (u : Nat × Bytes) : PageWrite := ⟨u.1, u.2⟩

theorem takeRun_spec (ptr count : Nat) (updates : List (Nat × Bytes)) :
    runWrites ptr (takeRun ptr count updates).1 ++ (takeRun ptr count updates).2.map toWrite =
      updates.map toWrite := by
  induction updates generalizing ptr count with
  | nil => rfl
  | cons u updates ih =>
      rw [takeRun]
      by_cases h : u.1 = ptr ∧ count < maxIovs
      · rw [if_pos h]
        dsimp only
        rw [runWrites, List.cons_append, ih, List.map_cons, ← h.1]
        rfl
      · rw [if_neg h]
        rfl

/-- **Coalescing changes nothing**: every buffered page is written once, in order. -/
theorem pageWrites_eq (updates : List (Nat × Bytes)) : pageWrites updates = updates.map toWrite := by
  induction updates using writeRuns.induct with
  | case1 => simp [pageWrites, writeRuns]
  | case2 first page updates run ih =>
      unfold pageWrites at ih ⊢
      rw [writeRuns, List.flatMap_cons, List.map_cons]
      show runWrites first (page :: run.1) ++ _ = _
      rw [runWrites, List.cons_append, ih, takeRun_spec]
      rfl

theorem mem_pageWrites {updates : List (Nat × Bytes)} {pw : PageWrite} :
    pw ∈ pageWrites updates ↔ (pw.ptr, pw.bytes) ∈ updates := by
  rw [pageWrites_eq, List.mem_map]
  constructor
  · intro h
    obtain ⟨u, hu, he⟩ := h
    rw [← he]
    exact hu
  · intro h
    exact ⟨_, h, rfl⟩

/-- Once its pages are written, a transaction sees what is in the file. -/
theorem TxPages.Exist.written {b : TxBase} {s : TxPages} {M : Multiset Nat}
    (h : Exist b s M) {p : Nat}
    (hp : p ∈ M) : s.pageRead p = .ok ((b.file.pwrites (pageWrites s.pageUpdates)).page p) := by
  have hnd : ((pageWrites s.pageUpdates).map PageWrite.ptr).Nodup := by
    rw [pageWrites_eq, List.map_map]
    have := sorted_iff_map.mp h.sorted
    exact this.imp fun hlt => ne_of_lt hlt
  rcases h.read_cases hp with ⟨page, hm, hr⟩ | ⟨hd, hr⟩
  · have hlen := (h.updates p page hm).2
    rw [hr, File.page_pwrites_of_mem (w := ⟨p, page⟩) (mem_pageWrites.mpr hm) hnd hlen]
  · rw [hr, File.page_pwrites_of_notMem fun pw hpw he => hd ⟨pw.bytes, ?_⟩]
    rw [← he]
    exact mem_pageWrites.mp hpw

/-- And the file reaches the end of its pages. -/
theorem TxPages.Exist.size {b : TxBase} {s : TxPages} {M : Multiset Nat} (h : Exist b s M) :
    s.stop * btreePageSize ≤ (b.file.pwrites (pageWrites s.pageUpdates)).size := by
  have h2 : 2 ≤ s.stop := by
    have := h.bound.1
    unfold stop
    rw [h.flushed]
    omega
  have hlast : s.stop - 1 + 1 = s.stop := by omega
  by_cases hd : s.Dirty (s.stop - 1)
  · obtain ⟨page, hm⟩ := hd
    have hlen := (h.updates _ page hm).2
    have hw : (⟨s.stop - 1, page⟩ : PageWrite) ∈ pageWrites s.pageUpdates :=
      mem_pageWrites.mpr hm
    have := File.size_pwrites (f := b.file) hw
    dsimp only at this
    rw [hlen, ← Nat.succ_mul] at this
    rw [← hlast]
    exact this
  · have hlt : s.stop - 1 < b.flushed := Nat.lt_of_not_le fun hle =>
      hd (h.appended _ hle (by omega))
    have := (h.mapped _ (by omega) hlt hd).2
    rw [hlast] at this
    exact this.trans (File.size_le_pwrites _ _)

/-! ## Mapping more of the file -/

theorem growAlloc_spec {total size : Nat} : ∀ {fuel alloc : Nat}, size ≤ total + alloc * 2 ^ fuel →
    size ≤ total + growAlloc total size fuel alloc ∧ ∃ k, growAlloc total size fuel alloc = alloc * k
  | 0, alloc, h => ⟨by simpa [growAlloc] using h, 1, by simp [growAlloc]⟩
  | fuel + 1, alloc, h => by
      rw [growAlloc]
      by_cases hlt : total + alloc < size
      · rw [if_pos hlt]
        have hpow : alloc * 2 * 2 ^ fuel = alloc * 2 ^ (fuel + 1) := by ring
        obtain ⟨h1, k, hk⟩ := growAlloc_spec (show size ≤ total + alloc * 2 * 2 ^ fuel by
          rw [hpow]; exact h)
        exact ⟨h1, 2 * k, by rw [hk, Nat.mul_assoc]⟩
      · rw [if_neg hlt]
        exact ⟨by omega, 1, by rw [Nat.mul_one]⟩

/-- So many doublings reach every size they can count to. -/
theorem le_doubled {total size fuel alloc : Nat} (hpos : 1 ≤ alloc) (h : size ≤ 2 ^ fuel) :
    size ≤ total + alloc * 2 ^ fuel := by
  have := Nat.mul_le_mul_right (2 ^ fuel) hpos
  omega

/-- **Extending the mapping** keeps its regions, and covers the bytes asked for. -/
theorem KV.extendMmap_spec {kv : KV} {stop : Nat} (h : Tiled kv.chunks 0 stop)
    (htotal : kv.mmapTotal = stop * btreePageSize) (size : Nat) :
    ∃ stop', Tiled (kv.extendMmap size).chunks 0 stop' ∧
      (kv.extendMmap size).mmapTotal = stop' * btreePageSize ∧ stop ≤ stop' ∧
      size ≤ stop' * btreePageSize := by
  unfold extendMmap
  by_cases hle : size ≤ kv.mmapTotal
  · rw [if_pos hle]
    exact ⟨stop, h, htotal, le_refl _, by rw [← htotal]; exact hle⟩
  · rw [if_neg hle]
    have hpos : 1 ≤ max kv.mmapTotal minMmapSize := le_trans (by decide) (le_max_right _ _)
    obtain ⟨h1, k, hk⟩ := growAlloc_spec
      (le_doubled hpos (Nat.lt_two_pow_self (n := size)).le)
    have hpages : ∃ n, max kv.mmapTotal minMmapSize = n * btreePageSize := by
      rcases le_total kv.mmapTotal minMmapSize with hm | hm
      · exact ⟨minMmapSize / btreePageSize, by rw [max_eq_right hm]; decide⟩
      · exact ⟨stop, by rw [max_eq_left hm, htotal]⟩
    obtain ⟨n, hn⟩ := hpages
    have halloc : growAlloc kv.mmapTotal size size (max kv.mmapTotal minMmapSize) =
        n * k * btreePageSize := by
      rw [hk, hn]
      ring
    rw [halloc] at h1
    dsimp only
    rw [halloc, htotal, ← Nat.add_mul]
    refine ⟨stop + n * k, h.append (.cons (n * k) rfl rfl .nil), rfl, Nat.le_add_right _ _, ?_⟩
    rw [Nat.add_mul, ← htotal]
    exact h1

namespace World

section Steps

variable {w : World} {pages : Nat → Multiset Nat} {V : Version}

/-! ## Calls of a transaction -/

theorem TxInv.set {b : TxBase} {tx tx' : KVTX} {map : Contents} {key val : Bytes} (hb : b.Sound)
    (h : TxInv b tx map) (hset : tx.set key val = .ok tx') : TxInv b tx' (insert map key val) := by
  obtain ⟨ps, hd⟩ := h
  unfold KVTX.set at hset
  obtain ⟨tree, htree, he⟩ := bind_eq_ok.mp hset
  have hvalid : ValidKey key ∧ ValidVal val := by
    by_contra hv
    rw [BTree.insert_invalid _ hv] at htree
    cases htree
  rw [← Except.ok.inj he]
  exact (BTree.insert_spec (TxPages.lawful hb) hd hvalid.1 hvalid.2).of_ok htree

theorem TxInv.del {b : TxBase} {tx tx' : KVTX} {map : Contents} {key : Bytes} {found : Bool}
    (hb : b.Sound) (h : TxInv b tx map) (hdel : tx.del key = .ok (found, tx')) :
    TxInv b tx' (erase map key) := by
  obtain ⟨ps, hd⟩ := h
  unfold KVTX.del at hdel
  obtain ⟨⟨found', tree⟩, htree, he⟩ := bind_eq_ok.mp hdel
  have hvalid : ValidKey key := by
    by_contra hv
    rw [BTree.remove_invalid _ hv] at htree
    cases htree
  have he' := congrArg Prod.snd (Except.ok.inj he)
  dsimp only at he'
  rw [← he']
  exact ((BTree.remove_spec (TxPages.lawful hb) hd hvalid).of_ok htree).2.2

/-- Steps that change the stage alone. -/
theorem sameStore_stage (w : World) (st : Stage) : SameStore w { w with stage := st } :=
  ⟨rfl, rfl, rfl, rfl, rfl, rfl, rfl, rfl, rfl, rfl⟩

theorem Base.withStage (h : w.Base pages) (st : Stage) : Base { w with stage := st } pages :=
  (sameStore_stage w st).base h (fun _ hV => ⟨hV.mem, hV.ne, hV.why⟩) h.heap
    fun id hid => (h.reads id hid).imp fun _ hV =>
      ⟨hV.mem, hV.version, hV.heap, hV.root, hV.seen, hV.chunks⟩

theorem Base.setStage (h : w.Base pages) {st : Stage} (hs : w.StageInv pages st) :
    Inv { w with stage := st } pages :=
  ⟨h.withStage st, (sameStore_stage w st).stage (fun _ hV => ⟨hV.mem, hV.ne, hV.why⟩) hs⟩

/-! ## Phase 1 -/

/-- What the transaction buffers is harmless to every protected version, and is no meta page. -/
theorem Base.harmless_updates (h : w.Base pages) {b : TxBase} {tx : KVTX} {map : Contents}
    (hb : w.Began pages b) (ht : TxInv b tx map) {before : List PageWrite}
    (hbefore : ∀ pw ∈ before, pw ∈ w.pending) (hfile : b.file = w.disk.pwrites before)
    {pw : PageWrite} (hpw : pw ∈ pageWrites tx.pageUpdates) :
    pw.ptr ≠ 0 ∧ ∀ V, w.Protected V → V.Harmless (pages V.version) w.disk pw := by
  obtain ⟨ps, _, nodes, items, used, hst⟩ := ht
  have hm := mem_pageWrites.mp hpw
  refine ⟨(hst.pages.ptr (hst.pages.updates _ _ hm).1).1, fun V hV => ?_⟩
  have := hst.harmless V _ (hb.kept V hV) _ _ hm
  rw [hfile] at this
  exact (Version.harmless_pwrites fun x hx => (h.kept V hV).harmless x (hbefore x hx)).mp this

/-- Protection does not change when a write is no meta page. -/
theorem Protected.of_append {ws : List PageWrite} (hne : ∀ pw ∈ ws, pw.ptr ≠ 0)
    (hV : World.Protected { w with pending := w.pending ++ ws } V) : w.Protected V := by
  refine ⟨hV.mem, hV.ne, ?_⟩
  rcases hV.why with hc | hr | hm | hm
  · exact Or.inl hc
  · exact Or.inr (Or.inl hr)
  · exact Or.inr (Or.inr (Or.inl hm))
  · rcases List.mem_append.mp hm with hm | hm
    · exact Or.inr (Or.inr (Or.inr hm))
    · exact absurd rfl (hne _ hm)

/-- **Harmless writes land**, in whatever number. -/
theorem Base.append (h : w.Base pages) {ws : List PageWrite} (hne : ∀ pw ∈ ws, pw.ptr ≠ 0)
    (hw : ∀ pw ∈ ws, ∀ V, w.Protected V → V.Harmless (pages V.version) w.disk pw) :
    Base { w with pending := w.pending ++ ws } pages := by
  refine ⟨h.first, h.numbered, h.length, h.latest, h.shape, h.durable, fun V hV => ?_, h.heap,
    fun id hid => ?_, fun pw hpw h0 => ?_, ?_, h.chunks⟩
  · have hV' := hV.of_append hne
    obtain ⟨h1, h2, h3⟩ := h.kept V hV'
    refine ⟨h1, fun pw hpw => ?_, h3⟩
    rcases List.mem_append.mp hpw with hpw | hpw
    · exact h2 pw hpw
    · exact hw pw hpw V hV'
  · obtain ⟨V, hV⟩ := h.reads id hid
    exact ⟨V, hV.mem, hV.version, hV.heap, hV.root, hV.seen, hV.chunks⟩
  · rcases List.mem_append.mp hpw with hpw | hpw
    · obtain ⟨V, hV, he⟩ := h.saved pw hpw h0
      exact ⟨V, ⟨hV.mem, hV.ne, hV.durable⟩, he⟩
    · exact absurd h0 (hne pw hpw)
  · exact h.disk.imp (fun ⟨V, hV, hd⟩ => ⟨V, ⟨hV.mem, hV.ne, hV.durable⟩, hd⟩) id

/-- A transaction goes on beside writes that are no meta page. -/
theorem Began.append {b : TxBase} (hb : w.Began pages b) {ws : List PageWrite}
    (hne : ∀ pw ∈ ws, pw.ptr ≠ 0) : Began { w with pending := w.pending ++ ws } pages b :=
  ⟨hb.sound, hb.flushed, hb.version, fun V hV => hb.kept V (hV.of_append hne)⟩

/-- The meta page that a power loss may leave was saved. -/
theorem Base.saved_pwrites (h : w.Base pages) {ws : List PageWrite}
    (hsub : ∀ pw ∈ ws, pw ∈ w.pending) :
    (∃ V, (w.Saved V ∧ w.MayHold V) ∧ (w.disk.pwrites ws).HoldsMeta V.save) ∨
      (w.disk.pwrites ws).NoMeta := by
  refine File.meta_pwrites (fun pw hpw h0 => ?_) ?_
  · obtain ⟨V, hV, he⟩ := h.saved pw (hsub pw hpw) h0
    exact ⟨V, ⟨hV, Or.inr (he ▸ hsub pw hpw)⟩, he⟩
  · exact h.disk.imp (fun ⟨V, hV, hd⟩ => ⟨V, ⟨hV, Or.inl hd⟩, hd⟩) id

/-- A version whose meta page a power loss did leave was one it could. -/
theorem Base.mayHold_of_image (h : w.Base pages) {ws : List PageWrite}
    (hsub : ∀ pw ∈ ws, pw ∈ w.pending) (hV : V ∈ w.history) (hne : V.version ≠ 0)
    (hm : (w.disk.pwrites ws).HoldsMeta V.save) : w.MayHold V := by
  rcases h.saved_pwrites hsub with ⟨V', ⟨hs, hmay⟩, hd⟩ | hno
  · rw [h.eq_of_save hV hs.mem hne hs.ne (hm.2.symm.trans hd.2)]
    exact hmay
  · exact absurd hno hm.sig

theorem Base.protected_of_sync (h : w.Base pages) (hV : w.sync.Protected V) : w.Protected V := by
  refine ⟨hV.mem, hV.ne, ?_⟩
  rcases hV.why with hc | hr | hm | hm
  · exact Or.inl hc
  · exact Or.inr (Or.inl hr)
  · exact Or.inr (Or.inr (h.mayHold_of_image (fun _ hpw => hpw) hV.mem hV.ne hm))
  · exact absurd hm List.not_mem_nil

/-- **A successful `fsync`** makes everything durable, and every protected version with it. -/
theorem Base.sync (h : w.Base pages) : w.sync.Base pages := by
  refine ⟨h.first, h.numbered, h.length, h.latest, h.shape, h.durable, fun V hV => ?_, h.heap,
    fun id hid => ?_, fun pw hpw => absurd hpw List.not_mem_nil, ?_, h.chunks⟩
  · have hV' := h.protected_of_sync hV
    obtain ⟨h1, h2, h3⟩ := h.kept V hV'
    exact ⟨h1.pwrites (h.shape V hV'.mem hV'.ne) h2, fun pw hpw => absurd hpw List.not_mem_nil, h3⟩
  · obtain ⟨V, hV⟩ := h.reads id hid
    exact ⟨V, hV.mem, hV.version, hV.heap, hV.root, hV.seen, hV.chunks⟩
  · refine (h.saved_pwrites fun _ hpw => hpw).imp ?_ id
    intro hV
    obtain ⟨V, ⟨hs, _⟩, hd⟩ := hV
    exact ⟨V, ⟨hs.mem, hs.ne, hs.durable⟩, hd⟩

theorem extendMmap_eq (kv : KV) (size : Nat) :
    ∃ chunks total, kv.extendMmap size = { kv with chunks := chunks, mmapTotal := total } := by
  unfold KV.extendMmap
  split
  · exact ⟨kv.chunks, kv.mmapTotal, rfl⟩
  · exact ⟨_, _, rfl⟩

/-- `write_pages` starts by mapping what it is to write. -/
theorem Base.extend (h : w.Base pages) (size : Nat) :
    Base { w with kv := w.kv.extendMmap size } pages ∧
    (∀ V, World.Protected { w with kv := w.kv.extendMmap size } V → w.Protected V) ∧
    ∃ stop, Tiled (w.kv.extendMmap size).chunks 0 stop ∧ size ≤ stop * btreePageSize := by
  obtain ⟨stop, ht, htotal, hcover⟩ := h.chunks
  obtain ⟨stop', ht', htotal', hle, hsize⟩ := KV.extendMmap_spec ht htotal size
  obtain ⟨chunks, total, he⟩ := extendMmap_eq w.kv size
  rw [he] at ht' htotal' ⊢
  have hp : ∀ V, World.Protected { w with kv := { w.kv with chunks := chunks, mmapTotal := total } } V →
      w.Protected V := fun V hV => ⟨hV.mem, hV.ne, hV.why⟩
  refine ⟨⟨h.first, h.numbered, h.length, h.latest, h.shape, h.durable, fun V hV => ?_, h.heap,
    fun id hid => ?_, fun pw hpw h0 => ?_, ?_, stop', ht', htotal',
      fun hv => (hcover hv).trans hle⟩,
    hp, stop', ht', hsize⟩
  · obtain ⟨h1, h2, h3⟩ := h.kept V (hp V hV)
    exact ⟨h1, h2, h3⟩
  · obtain ⟨V, hV⟩ := h.reads id hid
    exact ⟨V, hV.mem, hV.version, hV.heap, hV.root, hV.seen, hV.chunks⟩
  · obtain ⟨V, hV, hpw⟩ := h.saved pw hpw h0
    exact ⟨V, ⟨hV.mem, hV.ne, hV.durable⟩, hpw⟩
  · exact h.disk.imp (fun ⟨V, hV, hd⟩ => ⟨V, ⟨hV.mem, hV.ne, hV.durable⟩, hd⟩) id

/-! ## Publishing -/

theorem TreeAt.root_mem {g : Nat → Except Fault BNode} {root : Nat} {m : Contents}
    {ps : Multiset Nat} (h : TreeAt g root m ps) : root = 0 ∨ root ∈ ps := by
  rcases h with ⟨h0, _⟩ | ⟨_, _, n, he⟩
  · exact Or.inl h0
  · obtain ⟨_, _, _, _, _, _, _, _, hps⟩ := entryAt_succ.mp he
    rw [hps]
    exact Or.inr (Multiset.mem_cons_self _ _)

/-- The version a transaction publishes has all the pages of the transaction's file. -/
theorem Began.shape_next {b : TxBase} {tx : KVTX} {map : Contents}
    (hb : w.Began pages b) {ps : Multiset Nat} {nodes : List Nat} {items : List Item} {used : Nat}
    (htree : TreeAt (PageManager.get tx.free) tx.tree.root map ps)
    (hst : TxState b tx.free ps nodes items used) (hlt : w.kv.version + 1 < 2 ^ 63) :
    (w.next tx map).Shape ps ∧ (w.next tx map).nodes = nodes ∧ (w.next tx map).items = items ∧
      (w.next tx map).used = used ∧ (w.next tx map).flushed = tx.free.pages.stop := by
  have hnodes := hst.queue.nodes_eq hst.room
  have hitems := hst.queue.items_eq hst.room
  have hflushed : (w.next tx map).flushed = tx.free.pages.stop := by
    show w.kv.flushed + _ = tx.free.pages.flushed + _
    rw [hst.pages.flushed, hb.flushed]
  have hpages := hst.pages.pages
  have hbound := hst.pages.bound
  have hstop : 2 ≤ tx.free.pages.stop := by
    unfold TxPages.stop
    rw [hst.pages.flushed]
    omega
  refine ⟨⟨?_, ?_, ?_, ?_, hst.queue.bound, fun it hit => ?_, ?_, hlt, ?_⟩, hnodes, hitems, ?_, hflushed⟩
  · rw [hflushed, ← hpages, add_comm]
    show listPages tx.free.nodes tx.free.items + ps = _
    rw [hnodes, hitems]
  · show tx.free.nodes.head? = _
    rw [hnodes]
    exact hst.queue.head
  · show tx.free.nodes.getLast? = _
    rw [hnodes]
    exact hst.queue.tail
  · show _ + tx.free.items.length = _
    rw [hitems]
    exact hst.queue.seq
  · have hit' : it ∈ tx.free.items := hit
    rw [hitems] at hit'
    have := hst.queue.freed it hit'
    rw [hst.version, hb.version] at this
    exact Nat.lt_succ_of_le this
  · rw [hflushed]
    exact ⟨hstop, hbound.2⟩
  · rw [hflushed]
    show tx.tree.root < _
    rcases TreeAt.root_mem htree with h0 | hm
    · omega
    · have := hst.pages.mem_iff.mp (Multiset.mem_add.mpr (Or.inr hm) : _ ∈ listPages nodes items + ps)
      exact this.2
  · have := hst.queue.idx
    rw [Nat.mod_eq_of_lt hst.room] at this
    exact this

/-- And is in the file once its pages are written. -/
theorem Began.intact_next {b : TxBase} {tx : KVTX} {map : Contents}
    (hb : w.Began pages b) {ps : Multiset Nat} {nodes : List Nat} {items : List Item} {used : Nat}
    (htree : TreeAt (PageManager.get tx.free) tx.tree.root map ps)
    (hst : TxState b tx.free ps nodes items used) (hlt : w.kv.version + 1 < 2 ^ 63) :
    (w.next tx map).Intact ps (b.file.pwrites (pageWrites tx.pageUpdates)) := by
  obtain ⟨_, hnodes, hitems, hused, hflushed⟩ := hb.shape_next htree hst hlt
  have hread : ∀ p ∈ listPages nodes items + ps, tx.free.pages.pageRead p =
      .ok ((b.file.pwrites (pageWrites tx.pageUpdates)).page p) := fun p hp => hst.pages.written hp
  refine ⟨?_, ?_, ?_⟩
  · rw [hflushed]
    exact hst.pages.size
  · refine htree.congr fun q hq => ?_
    have := hread q (Multiset.mem_add.mpr (Or.inr hq))
    show _ = TxPages.pageGet tx.free q
    unfold TxPages.pageGet
    rw [this]
    rfl
  · rw [hnodes, hitems, hused]
    exact hst.queue.chain.congr fun p hp =>
      (hread p (Multiset.mem_add.mpr (Or.inl (mem_listPages.mpr (Or.inl hp))))).symm

/-- **Publishing.** The new version is intact, and every version still protected is kept by it. -/
theorem Base.publish (h : w.Base pages) {b : TxBase} {tx : KVTX} {map : Contents}
    (hb : w.Began pages b) {ps : Multiset Nat} (ht : tx.tree.Denotes (TxOwns b) map ps)
    (hchunks : ∃ stop, Tiled w.kv.chunks 0 stop ∧ tx.free.pages.stop ≤ stop)
    (hpending : w.pending = []) (hdisk : w.disk = b.file.pwrites (pageWrites tx.pageUpdates))
    (hlt : w.kv.version + 1 < 2 ^ 63) : Inv { w with
      kv := w.kv.publish tx
      history := w.history ++ [w.next tx map]
      stage := .published } (Function.update pages (w.kv.version + 1) ps) := by
  obtain ⟨htree, nodes, items, used, hst⟩ := ht
  have hst' : TxState b tx.free ps nodes items used := hst
  obtain ⟨hshape, hnodes, hitems, hused, hflushed⟩ := hb.shape_next htree hst' hlt
  have hintact := hb.intact_next htree hst' hlt
  rw [← hdisk] at hintact
  have hlen := h.length
  have hnext : (w.history ++ [w.next tx map])[w.kv.version + 1]? = some (w.next tx map) := by
    rw [List.getElem?_append_right (by omega), hlen, Nat.sub_self]
    rfl
  have hlatest : World.latest { w with
      kv := w.kv.publish tx
      history := w.history ++ [w.next tx map]
      stage := .published } = w.next tx map := by
    show (w.history ++ [w.next tx map]).getD (w.kv.version + 1) _ = _
    rw [List.getD_eq_getElem?_getD, hnext, Option.getD_some]
  have hmem : ∀ V, V ∈ w.history ++ [w.next tx map] → V ∈ w.history ∨ V = w.next tx map := by
    intro V hV
    rcases List.mem_append.mp hV with hV | hV
    · exact Or.inl hV
    · exact Or.inr (List.mem_singleton.mp hV)
  -- the pages of the versions before are as they were
  have hold : ∀ V ∈ w.history,
      Function.update pages (w.kv.version + 1) ps V.version = pages V.version := by
    intro V hV
    have := h.version_le hV
    exact Function.update_of_ne (by omega) _ _
  have hself : Function.update pages (w.kv.version + 1) ps (w.kv.version + 1) = ps :=
    Function.update_self _ _ _
  refine ⟨⟨?_, ?_, ?_, ?_, ?_, ?_, ?_, h.heap, ?_, ?_, ?_, ?_⟩, ?_⟩
  · show (w.history ++ _)[0]? = _
    rw [List.getElem?_append_left (by omega)]
    exact h.first
  · intro i V hV
    have hV' : (w.history ++ [w.next tx map])[i]? = some V := hV
    by_cases hi : i < w.history.length
    · rw [List.getElem?_append_left hi] at hV'
      exact h.numbered i V hV'
    · have hi' : i = w.kv.version + 1 := by
        have := (List.getElem?_eq_some_iff.mp hV').1
        rw [List.length_append, List.length_singleton] at this
        omega
      rw [hi', hnext, Option.some.injEq] at hV'
      rw [← hV', hi']
      rfl
  · show (w.history ++ _).length = w.kv.version + 1 + 1
    rw [List.length_append, hlen]
    rfl
  · rw [hlatest]
    exact ⟨rfl, rfl, rfl⟩
  · intro V hV hne
    rcases hmem V hV with hV | hV
    · rw [hold V hV]
      exact h.shape V hV hne
    · rw [hV]
      show Version.Shape _ (Function.update pages (w.kv.version + 1) ps (w.kv.version + 1))
      rw [hself]
      exact hshape
  · exact h.durable.trans (Nat.le_succ _)
  · intro V hV
    rcases hmem V hV.mem with hm | hm
    · -- an old version is not the latest one any more: a reader or the disk protects it
      have hV' : w.Protected V := by
        refine ⟨hm, hV.ne, ?_⟩
        rcases hV.why with hc | hr | hmay
        · have := h.version_le hm
          have hc' : V.version = w.kv.version + 1 := hc
          omega
        · exact Or.inr (Or.inl hr)
        · exact Or.inr (Or.inr hmay)
      obtain ⟨h1, h2, _⟩ := h.kept V hV'
      refine ⟨by rw [hold V hm]; exact h1, by rw [hold V hm]; exact h2, ?_⟩
      rw [hold V hm, hlatest, hnodes, hitems, hused]
      show Since V _ (Function.update pages (w.kv.version + 1) ps (w.kv.version + 1)) _ _ _ _
      rw [hself]
      exact hst'.since V _ (hb.kept V hV')
    · -- the new version is its own latest one
      rw [hm]
      refine ⟨?_, fun pw hpw => ?_, ?_⟩
      · show Version.Intact _ (Function.update pages (w.kv.version + 1) ps (w.kv.version + 1)) _
        rw [hself]
        exact hintact
      · have hpw' : pw ∈ w.pending := hpw
        rw [hpending] at hpw'
        exact absurd hpw' List.not_mem_nil
      · rw [hlatest]
        exact Since.self
  · intro id hid
    obtain ⟨V, hV⟩ := h.reads id hid
    exact ⟨V, List.mem_append_left _ hV.mem, hV.version, hV.heap, hV.root, hV.seen, hV.chunks⟩
  · intro pw hpw _
    have hpw' : pw ∈ w.pending := hpw
    rw [hpending] at hpw'
    exact absurd hpw' List.not_mem_nil
  · exact h.disk.imp (fun ⟨V, hV, hd⟩ =>
      ⟨V, ⟨List.mem_append_left _ hV.mem, hV.ne, hV.durable⟩, hd⟩) id
  · obtain ⟨stop, ht, htotal, _⟩ := h.chunks
    obtain ⟨stop', ht', hle⟩ := hchunks
    -- both are the number of mapped pages
    have hstop : stop' = stop := by
      have h1 := ht.count
      have h2 := ht'.count
      omega
    refine ⟨stop, ht, htotal, fun _ => ?_⟩
    rw [← hflushed, hstop] at hle
    exact hle
  · unfold StageInv
    dsimp only
    rw [hlatest]
    exact Nat.succ_ne_zero _

/-! ## Phase 2 -/

theorem Base.saveMeta_eq (h : w.Base pages) : w.kv.saveMeta = w.latest.save := by
  obtain ⟨h1, h2, h3⟩ := h.latest
  have h4 := h.latest_version
  rw [KV.saveMeta, ← h1, ← h2, ← h3, ← h4]

/-- The meta page is no page of any version. -/
theorem harmless_meta {ps : Multiset Nat} {f : File} {data : Bytes} (hs : V.Shape ps) :
    V.Harmless ps f ⟨0, data⟩ :=
  Version.Harmless.of_notMem fun hm => absurd (hs.mem_range hm).1 (Nat.not_succ_le_zero 0)

/-- **The meta page is written**: the latest version, protected already, may come back. -/
theorem Base.root (h : w.Base pages) (hne : w.latest.version ≠ 0) :
    Inv { w with pending := w.pending ++ [w.rootWrite], stage := .rooted } pages := by
  have hwrite : w.rootWrite = ⟨0, w.latest.save⟩ := congrArg (PageWrite.mk 0) h.saveMeta_eq
  have hp : ∀ V, World.Protected { w with
      pending := w.pending ++ [w.rootWrite], stage := .rooted } V → w.Protected V := by
    intro V hV
    refine ⟨hV.mem, hV.ne, ?_⟩
    rcases hV.why with hc | hr | hm | hm
    · exact Or.inl hc
    · exact Or.inr (Or.inl hr)
    · exact Or.inr (Or.inr (Or.inl hm))
    · rcases List.mem_append.mp hm with hm | hm
      · exact Or.inr (Or.inr (Or.inr hm))
      · -- the meta page just written is the latest version's
        have he := List.mem_singleton.mp hm
        rw [hwrite, PageWrite.mk.injEq] at he
        rw [h.eq_of_save hV.mem h.latest_mem hV.ne hne he.2]
        exact Or.inl h.latest_version
  refine ⟨⟨h.first, h.numbered, h.length, h.latest, h.shape, h.durable, fun V hV => ?_, h.heap,
    fun id hid => ?_, fun pw hpw h0 => ?_, ?_, h.chunks⟩,
    ⟨w.pending, congrArg (w.pending ++ [·]) hwrite, hne⟩⟩
  · have hV' := hp V hV
    obtain ⟨h1, h2, h3⟩ := h.kept V hV'
    refine ⟨h1, fun pw hpw => ?_, h3⟩
    rcases List.mem_append.mp hpw with hpw | hpw
    · exact h2 pw hpw
    · rw [List.mem_singleton.mp hpw, hwrite]
      exact harmless_meta (h.shape V hV'.mem hV'.ne)
  · obtain ⟨V, hV⟩ := h.reads id hid
    exact ⟨V, hV.mem, hV.version, hV.heap, hV.root, hV.seen, hV.chunks⟩
  · rcases List.mem_append.mp hpw with hpw | hpw
    · obtain ⟨V, hV, he⟩ := h.saved pw hpw h0
      exact ⟨V, ⟨hV.mem, hV.ne, hV.durable⟩, he⟩
    · refine ⟨w.latest, ⟨h.latest_mem, hne, ?_⟩, by rw [List.mem_singleton.mp hpw, hwrite]⟩
      rw [h.latest_version]
      exact h.durable
  · exact h.disk.imp (fun ⟨V, hV, hd⟩ => ⟨V, ⟨hV.mem, hV.ne, hV.durable⟩, hd⟩) id

/-- **The meta page is durable**, and the only one a power loss can bring back. -/
theorem Base.settle (h : w.Base pages) (hs : w.StageInv pages .rooted) :
    Inv { w.sync with kv := w.kv.settle, stage := .idle } pages := by
  obtain ⟨before, hpending, hne⟩ := hs
  have hb := h.sync
  have hdisk : w.sync.disk.HoldsMeta w.latest.save := by
    show (w.disk.pwrites w.pending).HoldsMeta _
    rw [hpending, File.pwrites_append]
    exact File.holdsMeta_pwrite _ (length_save _)
  refine ⟨⟨hb.first, hb.numbered, hb.length, hb.latest, hb.shape, le_refl _, fun V hV => ?_, hb.heap,
    fun id hid => ?_, fun pw hpw => absurd hpw List.not_mem_nil, Or.inl ⟨w.latest,
    ⟨h.latest_mem, hne, le_of_eq h.latest_version.symm⟩, hdisk⟩, hb.chunks⟩, trivial⟩
  · obtain ⟨h1, h2, h3⟩ := hb.kept V ⟨hV.mem, hV.ne, hV.why⟩
    exact ⟨h1, h2, h3⟩
  · obtain ⟨V, hV⟩ := hb.reads id hid
    exact ⟨V, hV.mem, hV.version, hV.heap, hV.root, hV.seen, hV.chunks⟩

/-! ## Power loss -/

/-- What an open that succeeds has read. -/
theorem readRoot_cases {f : File} {kv : KV} (h : KV.readRoot f = .ok kv) :
    (f.size = 0 ∧ kv = .fresh) ∨ ¬ f.NoMeta ∧
      kv = (KV.ofMeta (parseMeta (Bytes.readAt (f.page 0) 0 metaDataSize))).extendMmap
        ((parseMeta (Bytes.readAt (f.page 0) 0 metaDataSize)).flushed * btreePageSize) := by
  unfold KV.readRoot at h
  by_cases h0 : f.size = 0
  · rw [if_pos h0] at h
    exact Or.inl ⟨h0, (Except.ok.inj h).symm⟩
  · rw [if_neg h0] at h
    obtain ⟨_, _, h⟩ := bind_eq_ok.mp h
    obtain ⟨_, hsig, h⟩ := bind_eq_ok.mp h
    obtain ⟨_, _, h⟩ := bind_eq_ok.mp h
    rw [require_eq_ok, Bytes.readAt_readAt (by decide)] at hsig
    exact Or.inr ⟨fun hno => hno hsig, (Except.ok.inj h).symm⟩

/-- **Opening a file that holds a version** restores its fields. -/
theorem readRoot_of_holds {f : File} {ps : Multiset Nat} (hs : V.Shape ps) (hne : V.version ≠ 0)
    (hm : f.HoldsMeta V.save) :
    KV.readRoot f = .ok ((KV.ofMeta V.toMeta).extendMmap (V.flushed * btreePageSize)) := by
  have hsize : f.size ≠ 0 := fun h0 => absurd (h0 ▸ hm.1) (by decide)
  have hsig : Bytes.readAt V.save 0 2 = dbSig := sig_save _
  unfold KV.readRoot
  rw [if_neg hsize, require_pos hm.1, ok_bind]
  dsimp only
  rw [hm.2, require_pos hsig, ok_bind, hs.parse_save, require_pos (hs.valid hne), ok_bind]
  rfl

/-- The version at the head of what a power loss left. -/
theorem Base.image (h : w.Base pages) {kept : List PageWrite} (hsub : kept.Sublist w.pending)
    (hno : ¬ (w.disk.pwrites kept).NoMeta) : ∃ V, w.Protected V ∧ w.MayHold V ∧
      (w.disk.pwrites kept).HoldsMeta V.save ∧
      V.Intact (pages V.version) (w.disk.pwrites kept) := by
  rcases h.saved_pwrites (fun pw hpw => hsub.subset hpw) with ⟨V, ⟨hs, hmay⟩, hd⟩ | hn
  · have hV : w.Protected V := ⟨hs.mem, hs.ne, Or.inr (Or.inr hmay)⟩
    obtain ⟨h1, h2, _⟩ := h.kept V hV
    exact ⟨V, hV, hmay, hd, h1.pwrites (h.shape V hs.mem hs.ne) fun pw hpw => h2 pw (hsub.subset hpw)⟩
  · exact absurd hn hno

theorem ReaderHeap.valid_empty : ReaderHeap.Valid {} :=
  ⟨⟨List.nodup_nil, fun i hi => absurd hi (Nat.not_lt_zero i)⟩,
    fun k _ hk => absurd hk (Nat.not_lt_zero k)⟩

/-- The invariant of a store just opened, from what its file holds of the version it is at. Writes
other than the meta page's may still be waiting for an `fsync`. -/
theorem Base.restart (h : w.Base pages) {f : File} {ws : List PageWrite} {kv : KV}
    (hV : V ∈ w.history)
    (hversion : kv.version = V.version) (hdurable : kv.durableVersion = V.version)
    (hfields : V.root = kv.root ∧ V.flushed = kv.flushed ∧ V.freeState = kv.free)
    (hreaders : kv.readers = {})
    (hintact : V.version ≠ 0 → V.Intact (pages V.version) f)
    (hws : ∀ pw ∈ ws, pw.ptr ≠ 0 ∧ (V.version ≠ 0 → V.Harmless (pages V.version) f pw))
    (hdisk : (∃ V', V' = V ∧ V.version ≠ 0 ∧ f.HoldsMeta V'.save) ∨ f.NoMeta)
    (hchunks : ∃ stop, Tiled kv.chunks 0 stop ∧ kv.mmapTotal = stop * btreePageSize ∧
      (kv.version ≠ 0 → kv.flushed ≤ stop)) :
    Inv { disk := f, pending := ws, kv := kv, history := w.history.take (kv.version + 1) } pages := by
  have hle := h.version_le hV
  have hlen := h.length
  have hget : ∀ i, i < V.version + 1 →
      (w.history.take (V.version + 1))[i]? = w.history[i]? := fun i hi =>
    List.getElem?_take_of_lt hi
  have hat : (w.history.take (V.version + 1))[V.version]? = some V := by
    rw [hget _ (Nat.lt_succ_self _)]
    exact h.mem_iff.mp hV
  have hmem : ∀ V', V' ∈ w.history.take (V.version + 1) → V' ∈ w.history := fun V' hV' =>
    List.mem_of_mem_take hV'
  have hlatest : World.latest
      { disk := f, pending := ws, kv := kv, history := w.history.take (kv.version + 1) } = V := by
    show (w.history.take (kv.version + 1)).getD kv.version _ = V
    rw [hversion, List.getD_eq_getElem?_getD, hat, Option.getD_some]
  -- nobody has begun yet
  have hempty : World.readers
      { disk := f, pending := ws, kv := kv, history := w.history.take (kv.version + 1) } = 0 := by
    show kv.readers.readers = 0
    rw [hreaders]
    rfl
  refine ⟨⟨?_, ?_, ?_, by rw [hlatest]; exact hfields, ?_, ?_, ?_, ?_, ?_,
    fun pw hpw h0 => absurd h0 (hws pw hpw).1, ?_, hchunks⟩, trivial⟩
  · show (w.history.take (kv.version + 1))[0]? = _
    rw [hversion, hget 0 (Nat.succ_pos _)]
    exact h.first
  · intro i V' hV'
    have hV'' : (w.history.take (kv.version + 1))[i]? = some V' := hV'
    have hi := (List.getElem?_eq_some_iff.mp hV'').1
    rw [List.length_take] at hi
    rw [hversion, hget i (by omega)] at hV''
    exact h.numbered i V' hV''
  · show (w.history.take (kv.version + 1)).length = kv.version + 1
    rw [List.length_take]
    omega
  · intro V' hV' hne
    rw [hversion] at hV'
    exact h.shape V' (hmem V' hV') hne
  · show kv.durableVersion ≤ kv.version
    omega
  · intro V' hV'
    have hm' : V' ∈ w.history.take (kv.version + 1) := hV'.mem
    rw [hversion] at hm'
    have hin := hmem V' hm'
    -- the only version that is protected is the one the meta page holds
    have he : V' = V := by
      rcases hV'.why with hc | ⟨id, hid, _⟩ | hm | hm
      · have hc' : V'.version = kv.version := hc
        exact h.eq_of_version hin hV (hc'.trans hversion)
      · rw [hempty] at hid
        exact absurd hid (Multiset.notMem_zero id)
      · have hm : f.HoldsMeta V'.save := hm
        rcases hdisk with ⟨V2, h2, hne, hd⟩ | hno
        · rw [h2] at hd
          exact h.eq_of_save hin hV hV'.ne hne (hm.2.symm.trans hd.2)
        · exact absurd hno hm.sig
      · exact absurd rfl (hws _ hm).1
    rw [he]
    refine ⟨hintact (he ▸ hV'.ne), fun pw hpw => (hws pw hpw).2 (he ▸ hV'.ne), ?_⟩
    rw [hlatest]
    show Since V _ (pages kv.version) _ _ _ _
    rw [hversion]
    exact Since.self
  · show kv.readers.Valid
    rw [hreaders]
    exact ReaderHeap.valid_empty
  · intro id hid
    rw [hempty] at hid
    exact absurd hid (Multiset.notMem_zero id)
  · refine hdisk.imp (fun hd => ?_) id
    obtain ⟨V', he, hne, hd⟩ := hd
    refine ⟨V, ⟨?_, hne, le_of_eq hdurable⟩, by rw [← he]; exact hd⟩
    show V ∈ w.history.take (kv.version + 1)
    rw [hversion]
    exact List.mem_of_getElem? hat

/-- **Opening the file** brings the invariant back: what a power loss left of it, or the file as
another process left it, with writes that are still waiting for an `fsync`. -/
theorem Base.opened (h : w.Base pages) {kept waiting : List PageWrite}
    (hsub : kept.Sublist w.pending) (hwait : ∀ pw ∈ waiting, pw ∈ w.pending ∧ pw.ptr ≠ 0) {kv : KV}
    (hopen : KV.readRoot ((w.disk.pwrites kept).pwrites waiting) = .ok kv) :
    Inv { disk := w.disk.pwrites kept, pending := waiting, kv := kv,
          history := w.history.take (kv.version + 1) } pages := by
  rcases h.saved_pwrites (fun pw hpw => hsub.subset hpw) with ⟨V, ⟨hsaved, hmay⟩, hd⟩ | hno
  · have hV : w.Protected V := ⟨hsaved.mem, hsaved.ne, Or.inr (Or.inr hmay)⟩
    obtain ⟨hintact, hharm, _⟩ := h.kept V hV
    have hs := h.shape V hV.mem hV.ne
    -- what was kept of the writes harms no version the disk may hold
    have hkept : ∀ pw ∈ kept, V.Harmless (pages V.version) w.disk pw := fun pw hpw =>
      hharm pw (hsub.subset hpw)
    have hd' := hd.pwrites fun pw hpw => (hwait pw hpw).2
    rw [readRoot_of_holds hs hV.ne hd'] at hopen
    have hkv := (Except.ok.inj hopen).symm
    obtain ⟨stop, ht, htotal, _, hcover⟩ := (KV.ofMeta V.toMeta).extendMmap_spec .nil
      (Nat.zero_mul _).symm (V.flushed * btreePageSize)
    obtain ⟨chunks, total, he⟩ := extendMmap_eq (KV.ofMeta V.toMeta) (V.flushed * btreePageSize)
    rw [he] at hkv ht htotal
    rw [hkv]
    exact h.restart hV.mem rfl rfl ⟨rfl, rfl, rfl⟩ rfl (fun _ => hintact.pwrites hs hkept)
      (fun pw hpw => ⟨(hwait pw hpw).2, fun _ =>
        (Version.harmless_pwrites hkept).mpr (hharm pw (hwait pw hpw).1)⟩)
      (Or.inl ⟨V, rfl, hV.ne, hd⟩) ⟨stop, ht, htotal, fun _ =>
        Nat.le_of_mul_le_mul_right hcover pageSize_pos⟩
  · -- no meta page: the file opens empty or not at all
    have hno' := hno.pwrites fun pw hpw => (hwait pw hpw).2
    rcases readRoot_cases hopen with ⟨_, hkv⟩ | ⟨hyes, _⟩
    · rw [hkv]
      exact h.restart (List.mem_of_getElem? h.first) rfl rfl ⟨rfl, rfl, rfl⟩ rfl
        (fun hne => absurd rfl hne) (fun pw hpw => ⟨(hwait pw hpw).2, fun hne => absurd rfl hne⟩)
        (Or.inr hno) ⟨0, .nil, rfl, fun hne => absurd rfl hne⟩
    · exact absurd hno' hyes

/-- **A power loss** brings the invariant back with the file it leaves, if that can be opened. -/
theorem Base.powerLoss (h : w.Base pages) {kept : List PageWrite} (hsub : kept.Sublist w.pending)
    {kv : KV} (hopen : KV.readRoot (w.disk.pwrites kept) = .ok kv) :
    (w.restart kept kv).Inv pages :=
  h.opened hsub (fun _ hpw => absurd hpw List.not_mem_nil) hopen

/-! ## Every step -/

/-- **Every step keeps the invariant.** -/
theorem Inv.step {w' : World} (h : w.Inv pages) (hstep : Step w w') : ∃ pages', w'.Inv pages' := by
  have hb := h.base
  have hstage := h.stage
  cases hstep with
  | beginRead hid => exact ⟨pages, h.beginRead hid⟩
  | endRead _ hend => exact ⟨pages, h.endRead hend⟩
  | begin _ => exact ⟨pages, hb.setStage hb.begin⟩
  | set hrun hset =>
      rw [hrun] at hstage
      obtain ⟨b, hbegan, hfile, ht⟩ := hstage
      exact ⟨pages, hb.setStage ⟨b, hbegan, hfile, ht.set hbegan.sound hset⟩⟩
  | del hrun hdel =>
      rw [hrun] at hstage
      obtain ⟨b, hbegan, hfile, ht⟩ := hstage
      exact ⟨pages, hb.setStage ⟨b, hbegan, hfile, ht.del hbegan.sound hdel⟩⟩
  | abort _ => exact ⟨pages, hb.setStage trivial⟩
  | commitNone _ _ => exact ⟨pages, hb.setStage trivial⟩
  | mmapFails _ _ => exact ⟨pages, hb.setStage trivial⟩
  | @commit tx map hrun _ =>
      rw [hrun] at hstage
      obtain ⟨b, hbegan, hfile, ht⟩ := hstage
      obtain ⟨hb', hp, stop, htiled, hcover⟩ := hb.extend (w.kv.commitSize tx)
      obtain ⟨chunks, total, he⟩ := extendMmap_eq w.kv (w.kv.commitSize tx)
      rw [he] at hb' hp htiled ⊢
      refine ⟨pages, hb'.setStage ⟨b, ⟨hbegan.sound, hbegan.flushed, hbegan.version,
        fun V hV => hbegan.kept V (hp V hV)⟩, ht, ⟨stop, htiled, ?_⟩, w.pending, [],
        (List.append_nil _).symm, hfile, rfl⟩⟩
      -- what is mapped reaches the pages the transaction appended
      obtain ⟨ps, _, nodes, items, used, hst⟩ := ht
      have hle := Nat.le_of_mul_le_mul_right hcover pageSize_pos
      rw [← hbegan.flushed, ← hst.pages.flushed] at hle
      exact hle
  | @write tx map pw todo hrun =>
      rw [hrun] at hstage
      obtain ⟨b, hbegan, ht, hc, before, done, hpend, hfile, hw⟩ := hstage
      have hmem : pw ∈ pageWrites tx.pageUpdates := by
        rw [hw]
        simp
      have hh := hb.harmless_updates hbegan ht (fun x hx => by
        rw [hpend]; exact List.mem_append_left _ hx) hfile hmem
      have hone : ∀ x ∈ [pw], x = pw := fun x hx => List.mem_singleton.mp hx
      have hne : ∀ x ∈ [pw], x.ptr ≠ 0 := fun x hx => by rw [hone x hx]; exact hh.1
      refine ⟨pages, (hb.append hne fun x hx V hV => by rw [hone x hx]; exact hh.2 V hV).setStage
        ⟨b, hbegan.append hne, ht, hc, before, done ++ [pw], ?_, hfile, ?_⟩⟩
      · show w.pending ++ [pw] = _
        rw [hpend, List.append_assoc]
      · rw [hw, List.append_assoc]
        rfl
  | @writeFails tx map todo landed hrun hsub =>
      rw [hrun] at hstage
      obtain ⟨b, hbegan, ht, _, before, done, hpend, hfile, hw⟩ := hstage
      -- some of the writes landed; all of them are harmless
      have hh : ∀ pw ∈ landed, _ := fun pw hpw => hb.harmless_updates hbegan ht (fun x hx => by
        rw [hpend]; exact List.mem_append_left _ hx) hfile (by
        rw [hw]; exact List.mem_append_right _ (hsub.subset hpw) : pw ∈ pageWrites tx.pageUpdates)
      exact ⟨pages, (hb.append (fun pw hpw => (hh pw hpw).1) fun pw hpw => (hh pw hpw).2).setStage
        trivial⟩
  | @sync tx map hrun =>
      rw [hrun] at hstage
      obtain ⟨b, hbegan, ht, hc, before, done, hpend, hfile, hw⟩ := hstage
      refine ⟨pages, hb.sync.setStage ⟨b, ⟨hbegan.sound, hbegan.flushed, hbegan.version,
        fun V hV => hbegan.kept V (hb.protected_of_sync hV)⟩, ht, hc, rfl, ?_⟩⟩
      -- the disk holds every page write of the transaction
      show w.disk.pwrites w.pending = _
      rw [hpend, File.pwrites_append, ← hfile, hw, List.append_nil]
  | publish hrun hlt =>
      rw [hrun] at hstage
      obtain ⟨b, hbegan, ⟨ps, ht⟩, hc, hpend, hdisk⟩ := hstage
      exact ⟨_, hb.publish hbegan ht hc hpend hdisk hlt⟩
  | writeRoot hrun =>
      rw [hrun] at hstage
      exact ⟨pages, hb.root hstage⟩
  | rootFails _ => exact ⟨pages, hb.setStage trivial⟩
  | settle hrun =>
      rw [hrun] at hstage
      exact ⟨pages, hb.settle hstage⟩
  | settleFails _ => exact ⟨pages, hb.setStage trivial⟩
  | powerLoss hsub hopen => exact ⟨pages, hb.powerLoss hsub hopen⟩

/-- A new file. -/
theorem Inv.start : Inv {} fun _ => 0 := by
  have hone : ∀ V ∈ [Version.initial], V.version = 0 := fun V hV => by
    rw [List.mem_singleton.mp hV]
    rfl
  refine ⟨⟨rfl, fun i V hV => ?_, rfl, ⟨rfl, rfl, rfl⟩, fun V hV hne => absurd (hone V hV) hne,
    le_refl _, fun V hV => absurd (hone V hV.mem) hV.ne, ReaderHeap.valid_empty,
    fun id hid => absurd hid (Multiset.notMem_zero id), fun pw hpw => absurd hpw List.not_mem_nil,
    Or.inr ?_, 0, .nil, rfl, fun hne => absurd rfl hne⟩, trivial⟩
  · have hV' : [Version.initial][i]? = some V := hV
    have hi := (List.getElem?_eq_some_iff.mp hV').1
    rw [List.length_singleton] at hi
    rw [hone V (List.mem_of_getElem? hV')]
    omega
  · show Bytes.readAt (List.replicate btreePageSize 0) 0 2 ≠ dbSig
    decide

theorem Reachable.inv (h : Reachable w) : ∃ pages, w.Inv pages := by
  induction h with
  | start => exact ⟨_, Inv.start⟩
  | step _ hstep ih =>
      obtain ⟨pages, h⟩ := ih
      exact h.step hstep

/-! ## A first commit -/

/-- The first write of a new file takes the page behind the list's first node. -/
theorem set_fresh {key val : Bytes} (hk : ValidKey key) (hv : ValidVal val) :
    ∃ tx, (KV.fresh.begin .empty).set key val = .ok tx ∧ tx.tree.root = 2 := by
  obtain ⟨n, hn, hsmall, hinsert⟩ := BTree.insert_empty (KV.fresh.begin .empty).tree.pages hk hv
  obtain ⟨page, hencode, _⟩ := encode_spec hn hsmall
  have hpop : FreeList.popHead (KV.fresh.begin .empty).free = .ok (0, (KV.fresh.begin .empty).free) := by
    have hempty : (KV.fresh.begin .empty).free.state.headSeq =
        (KV.fresh.begin .empty).free.state.tailSeq := rfl
    rw [FreeList.popHead, FreeList.pop, if_pos hempty]
    rfl
  have hgrow : TxPages.grow (KV.fresh.begin .empty).free.pages = .ok (2,
      { (KV.fresh.begin .empty).free.pages with pageAppend := 1 }) := by
    rw [TxPages.grow, require_pos (by decide)]
    rfl
  have hnew : ∃ fl, PageManager.newPage (KV.fresh.begin .empty).tree.pages n = .ok (2, fl) := by
    show ∃ fl, TxPages.pageNew (KV.fresh.begin .empty).free n = .ok (2, fl)
    rw [TxPages.pageNew, TxPages.takePage, hpop, ok_bind]
    dsimp only
    rw [if_pos rfl, hgrow]
    simp only [ok_bind, pure_bind]
    rw [hencode, ok_bind]
    exact ⟨_, rfl⟩
  obtain ⟨fl, hnew⟩ := hnew
  refine ⟨⟨(KV.fresh.begin .empty).version, ⟨2, fl⟩⟩, ?_, rfl⟩
  have hinsert' : (KV.fresh.begin .empty).tree.insert key val = .ok ⟨2, fl⟩ := by
    refine hinsert.trans ?_
    rw [hnew]
    rfl
  rw [KVTX.set, hinsert']
  rfl

/-- What is kept by every step of a run that ends before a meta page is durable. -/
structure Early (P : World → Prop) : Prop where
  start : P {}
  step : ∀ {w w'}, P w → Step w w' → w'.disk.NoMeta → P w'

/-- The writes of phase 1 can all go through. -/
theorem Early.write_all {P : World → Prop} (hP : Early P) {tx : KVTX} {map : Contents}
    (todo : List PageWrite) (hno : w.disk.NoMeta) (h : P w) (hw : Reachable w)
    (hst : w.stage = .writing tx map todo) : ∃ pending,
      P { w with pending := pending, stage := .writing tx map [] } ∧
      Reachable { w with pending := pending, stage := .writing tx map [] } := by
  induction todo generalizing w with
  | nil =>
      refine ⟨w.pending, ?_⟩
      rw [← hst]
      exact ⟨h, hw⟩
  | cons pw todo ih =>
      exact ih (w := { w with pending := w.pending ++ [pw], stage := .writing tx map todo }) hno
        (hP.step h (.write hst) hno) (.step hw (.write hst)) rfl

/-- Any key can be the first one to be committed, up to the meta page's `fsync`. -/
theorem Early.first_root {P : World → Prop} (hP : Early P) {key val : Bytes} (hk : ValidKey key)
    (hv : ValidVal val) : ∃ w, P w ∧ Reachable w ∧ w.disk.NoMeta ∧ w.stage = .rooted ∧
      w.readers = 0 ∧ w.kv.version = 1 ∧ w.latest.map = [(key, val)] := by
  obtain ⟨tx, hset, hroot⟩ := set_fresh hk hv
  have hno : File.empty.NoMeta := by
    show Bytes.readAt (List.replicate btreePageSize 0) 0 2 ≠ dbSig
    decide
  have hstep : Step { stage := .running (KV.fresh.begin .empty) [] }
      { stage := .running tx (OrdMap.insert [] key val) } := .set rfl hset
  have hne : tx.tree.root ≠ KV.root ({} : World).kv := by
    rw [hroot]
    decide
  have hcommit : Step { stage := .running tx [(key, val)] } _ := .commit rfl hne
  obtain ⟨pending, hall, hreach⟩ := hP.write_all _ hno
    (hP.step (hP.step (hP.step hP.start (.begin rfl) hno) hstep hno) hcommit hno)
    (.step (.step (.step .start (.begin rfl)) hstep) hcommit) rfl
  have hversion : (KV.fresh.extendMmap (KV.fresh.commitSize tx)).version = 0 ∧
      (KV.fresh.extendMmap (KV.fresh.commitSize tx)).readers = {} := by
    obtain ⟨chunks, total, he⟩ := extendMmap_eq KV.fresh (KV.fresh.commitSize tx)
    rw [he]
    exact ⟨rfl, rfl⟩
  have hlt : (KV.fresh.extendMmap (KV.fresh.commitSize tx)).version + 1 < 2 ^ 63 := by
    rw [hversion.1]
    decide
  -- no version was published yet, so none of the writes is a meta page
  have hsynced : (File.empty.pwrites pending).NoMeta := by
    obtain ⟨pages, hinv⟩ := hreach.inv
    refine hno.pwrites fun pw hpw h0 => ?_
    obtain ⟨V, hV, _⟩ := hinv.base.saved pw hpw h0
    exact hV.ne (congrArg (fun V : Version => V.version) (List.mem_singleton.mp hV.mem))
  refine ⟨_, hP.step (hP.step (hP.step hall (.sync rfl) hsynced) (.publish rfl hlt) hsynced)
    (.writeRoot rfl) hsynced, .step (.step (.step hreach (.sync rfl)) (.publish rfl hlt))
    (.writeRoot rfl), hsynced, rfl, ?_, ?_, ?_⟩
  · show (KV.fresh.extendMmap (KV.fresh.commitSize tx)).readers.readers = 0
    rw [hversion.2]
    rfl
  · show (KV.fresh.extendMmap (KV.fresh.commitSize tx)).version + 1 = 1
    rw [hversion.1]
  · show (List.getD [Version.initial, _]
      ((KV.fresh.extendMmap (KV.fresh.commitSize tx)).version + 1) .initial).map = _
    rw [hversion.1]
    rfl

end Steps

end World

end SqlDb
