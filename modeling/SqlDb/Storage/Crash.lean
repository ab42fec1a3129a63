import SqlDb.Storage.Isolation

/-!
# Crash atomicity

What a power loss leaves is the last durable version, or one whose meta page was on its
way: its tree, and its free list. Both are read back here as a program that opens the
file reads them, through a reader on the new store and through the list that a new
transaction begins with.
-/

namespace SqlDb

open Outcome FreeList OrdMap

/-- The meta page never goes away. -/
theorem File.noMeta_of_pwrites {f : File} {ws : List PageWrite}
    (hw : ∀ pw ∈ ws, pw.ptr = 0 → ∃ V : Version, pw = ⟨0, V.save⟩) (h : (f.pwrites ws).NoMeta) :
    f.NoMeta := by
  induction ws generalizing f with
  | nil => exact h
  | cons pw ws ih =>
      have hno := ih (fun x hx => hw x (List.mem_cons_of_mem _ hx)) h
      by_cases h0 : pw.ptr = 0
      · obtain ⟨V, he⟩ := hw pw (by simp) h0
        rw [he] at hno
        exact absurd hno (f.holdsMeta_pwrite (length_save V.toMeta)).sig
      · unfold File.NoMeta at hno
        rw [f.page_pwrite_of_ne (Ne.symm h0)] at hno
        exact hno

/-- What `save_meta` writes passes the checks of `read_root`, and gives back every field. -/
structure KV.MetaLoads (kv : KV) : Prop where
  length : kv.saveMeta.length = metaDataSize
  sig : Bytes.readAt kv.saveMeta 0 2 = dbSig
  parse : parseMeta kv.saveMeta = ⟨kv.root, kv.flushed, kv.free, kv.version⟩
  valid : (parseMeta kv.saveMeta).Valid
  /-- So a file that starts with it opens, at the same state. -/
  opens : ∀ f : File, f.HoldsMeta kv.saveMeta → ∃ kv', KV.readRoot f = .ok kv' ∧
    kv'.root = kv.root ∧ kv'.flushed = kv.flushed ∧ kv'.free = kv.free ∧ kv'.version = kv.version

namespace World

section Open

variable {w : World} {pages : Nat → Multiset Nat}

/-- **The store's own snapshot** is its latest version. -/
theorem Base.snapshot_reads (h : w.Base pages) :
    (w.kv.snapshot.tree w.file).ReadsAs w.latest.map := by
  by_cases h0 : w.kv.version = 0
  · have hinit := h.initial_of_zero h.latest_mem (h.latest_version.trans h0)
    have hroot := h.latest.1
    rw [hinit] at hroot ⊢
    exact BTree.readsAs (Or.inl ⟨hroot.symm, rfl, rfl⟩)
      (fun p hp => absurd hp (Multiset.notMem_zero p)) (Nat.zero_le _)
  · obtain ⟨hs, hintact⟩ := h.kept_latest h0
    obtain ⟨stop, ht, _, hle⟩ := h.chunks
    obtain ⟨hpage, hcount⟩ := hintact.mapped hs ht (by rw [h.latest.2.1]; exact hle h0)
    have htree := hintact.tree.congr fun q hq => (hpage q hq).2
    rw [h.latest.1] at htree
    exact BTree.readsAs htree (fun q hq => (hpage q hq).1) hcount

/-- **The free list that a transaction begins with** is the latest version's. -/
theorem Base.free_list (h : w.Base pages) : (w.kv.begin w.file).free.nodes = w.latest.nodes ∧
    (w.kv.begin w.file).free.items = w.latest.items := by
  have hqueue : (w.kv.begin w.file).free.Queue w.latest.nodes w.latest.items w.latest.used := by
    by_cases h0 : w.kv.version = 0
    · exact h.queue_zero h0
    · exact h.queue_succ h0
  exact ⟨hqueue.nodes_eq (seqToIdx_lt _), hqueue.items_eq (seqToIdx_lt _)⟩

/-- **A power loss leaves a file that opens**, at a version it may hold. -/
theorem Base.opens (h : w.Base pages) (hd : w.Durable) {kept : List PageWrite}
    (hsub : kept.Sublist w.pending) : ∃ V kv, w.Protected V ∧ w.MayHold V ∧
      KV.readRoot (w.disk.pwrites kept) = .ok kv ∧ kv.version = V.version := by
  have hno : ¬ (w.disk.pwrites kept).NoMeta := fun hno =>
    hd (File.noMeta_of_pwrites (fun pw hpw h0 => by
      obtain ⟨V, _, he⟩ := h.saved pw (hsub.subset hpw) h0
      exact ⟨V, he⟩) hno)
  obtain ⟨V, hV, hmay, hmeta, _⟩ := h.image hsub hno
  refine ⟨V, _, hV, hmay, readRoot_of_holds (h.shape V hV.mem hV.ne) hV.ne hmeta, ?_⟩
  obtain ⟨chunks, total, he⟩ := extendMmap_eq (KV.ofMeta V.toMeta) (V.flushed * btreePageSize)
  rw [he]
  rfl

/-- **Crash atomicity.** Once a commit is durable, the power may go at any point of any run, and
leave any of the writes since: the file opens, at a version whose meta page it may hold, none older
than the last durable one. What is read from it is that version's map, under every key and along
every walk, and the free list is that version's. -/
theorem crash_atomicity (h : Reachable w) (hd : w.Durable) {kept : List PageWrite}
    (hsub : kept.Sublist w.pending) : ∃ kv, KV.readRoot (w.disk.pwrites kept) = .ok kv ∧
      ∃ V ∈ w.history, w.MayHold V ∧ w.kv.durableVersion ≤ V.version ∧
        kv.version = V.version ∧ kv.free = V.freeState ∧
        (kv.snapshot.tree (w.disk.pwrites kept)).ReadsAs V.map ∧
        (kv.begin (w.disk.pwrites kept)).free.nodes = V.nodes ∧
        (kv.begin (w.disk.pwrites kept)).free.items = V.items := by
  obtain ⟨pages, hinv⟩ := h.inv
  obtain ⟨V, kv, hV, hmay, hopen, hversion⟩ := hinv.base.opens hd hsub
  have hb := (hinv.base.powerLoss hsub hopen).base
  have hlatest : (w.restart kept kv).latest = V := by
    refine hinv.base.eq_of_version (List.mem_of_mem_take hb.latest_mem) hV.mem ?_
    rw [hb.latest_version]
    exact hversion
  have hreads := hb.snapshot_reads
  have hfree := hb.free_list
  have hstate := hb.latest.2.2
  rw [hlatest] at hreads hfree hstate
  exact ⟨kv, hopen, V, hV.mem, hmay, (hinv.base.saved_of_mayHold hV.mem hV.ne hmay).durable, hversion,
    hstate.symm, hreads, hfree⟩

/-- In the third commit of a file whose second one failed: the power goes when all pages of both are
written, keeps those of the second and loses those of the third. -/
theorem crash_atomicity_third_commit : ∃ w kept lost, Reachable w ∧ w.Durable ∧
    (∃ tx map, w.stage = .writing tx map []) ∧ w.pending = kept ++ lost ∧ kept ≠ [] ∧ lost ≠ [] ∧
    ∃ kv, KV.readRoot (w.disk.pwrites kept) = .ok kv ∧
      ∃ V ∈ w.history, w.MayHold V ∧ w.kv.durableVersion ≤ V.version ∧
        kv.version = V.version ∧ kv.free = V.freeState ∧
        (kv.snapshot.tree (w.disk.pwrites kept)).ReadsAs V.map ∧
        (kv.begin (w.disk.pwrites kept)).free.nodes = V.nodes ∧
        (kv.begin (w.disk.pwrites kept)).free.items = V.items := by
  obtain ⟨w, hw, hd, _⟩ := first_commit (show ValidKey [97] by decide)
    (show ValidVal [49] by decide)
  obtain ⟨tx₂, htx₂⟩ := hw.sets (by decide) (show ValidKey [97] by decide)
    (show ValidVal [50] by decide)
  have hfailed := htx₂.fails hw
  obtain ⟨tx₃, htx₃⟩ := hfailed.sets (by decide) (show ValidKey [98] by decide)
    (show ValidVal [51] by decide)
  have hwriting := hfailed.reachable.runs htx₃.writes_all
  have hkept : w.pending ++ pageWrites tx₂.pageUpdates ≠ [] :=
    List.append_ne_nil_of_right_ne_nil _ htx₂.writes
  exact ⟨_, _, _, hwriting, hd, ⟨tx₃, _, rfl⟩, rfl, hkept, htx₃.writes,
    crash_atomicity hwriting hd (List.sublist_append_left _ _)⟩

/-! ## The meta page -/

theorem Base.metaLoads (h : w.Base pages) (hne : w.kv.version ≠ 0) : w.kv.MetaLoads := by
  have hshape := h.shape _ h.latest_mem (h.latest_version.symm ▸ hne)
  have hne' : w.latest.version ≠ 0 := h.latest_version.symm ▸ hne
  obtain ⟨hroot, hflushed, hfree⟩ := h.latest
  have hversion := h.latest_version
  have hparse := hshape.parse_save
  have hmeta : w.latest.toMeta = ⟨w.kv.root, w.kv.flushed, w.kv.free, w.kv.version⟩ := by
    rw [← hroot, ← hflushed, ← hfree, ← hversion]
  rw [← h.saveMeta_eq] at hparse
  refine ⟨length_save _, sig_save _, hparse.trans hmeta, ?_, fun f hf => ?_⟩
  · rw [hparse]
    exact hshape.valid hne'
  · rw [h.saveMeta_eq] at hf
    obtain ⟨chunks, total, he⟩ := extendMmap_eq (KV.ofMeta w.latest.toMeta)
      (w.latest.flushed * btreePageSize)
    refine ⟨_, readRoot_of_holds hshape hne' hf, ?_⟩
    rw [he]
    exact ⟨hroot, hflushed, hfree, hversion⟩

/-- **A committed meta page always loads**, through page reuse, list node turnover, failed commits
and power losses. -/
theorem saved_meta_loads (h : Reachable w) (hne : w.kv.version ≠ 0) : w.kv.MetaLoads := by
  obtain ⟨pages, hinv⟩ := h.inv
  exact hinv.base.metaLoads hne

/-- After a first commit. -/
theorem saved_meta_loads_first_commit : ∃ w, Reachable w ∧ w.kv.version ≠ 0 ∧ w.kv.MetaLoads := by
  obtain ⟨w, hw, _, _, hmap⟩ :=
    first_commit (show ValidKey [97] by decide) (show ValidVal [49] by decide)
  have hne : w.kv.version ≠ 0 := by
    intro h0
    obtain ⟨pages, hinv⟩ := hw.reachable.inv
    have hinit := hinv.base.initial_of_zero hinv.base.latest_mem
      (hinv.base.latest_version.trans h0)
    rw [hinit] at hmap
    cases hmap
  exact ⟨w, hw.reachable, hne, saved_meta_loads hw.reachable hne⟩

end Open

end World

end SqlDb
