import SqlDb.Storage.Crash

/-!
# Across restarts

`durable_version_` is what the free list goes by: the pages a version older than it
freed may be reused, since no power loss brings that version back. A commit moves it
only after the meta page's `fsync`. Opening the file is the other place it is set, from
the meta page that was read, and that page may have been written without ever being
durable: the process may have died between `update_root` and its `fsync`, or closed the
store with an `fsync` that failed.

So the store is run here across processes. What one leaves in the cache is there for
the next; only a power loss takes it away.
-/

namespace SqlDb

open Outcome FreeList

/-- The write leaves what the file's meta page uses. It is for no page of the tree, and if it is for
a node of the free list, then for the tail, past its slots in use. -/
def File.Spares (f : File) (kv : KV) (u : Nat × Bytes) : Prop :=
  ¬ Reaches f.node kv.root u.1 ∧
    (u.1 ∈ (kv.begin f).free.nodes → u.1 = kv.free.tailPage ∧
      ∀ i < seqToIdx kv.free.tailSeq, slotAt u.2 i = slotAt (f.page u.1) i)

namespace World

/-- The store opened on the file as it is. -/
def reopen (w : World) (kv : KV) : World where
  disk := w.disk
  pending := w.pending
  kv := kv
  history := w.history.take (kv.version + 1)

/-- A run across processes. `synced` is true of the versions whose meta page the durable contents
have held, and `ok` is what holds whenever the file is opened with nothing lost or made durable. -/
inductive Life (ok : World → Prop) : World → (Version → Prop) → Prop where
  | start : Life ok {} fun _ => False
  | step {w w' : World} {synced : Version → Prop} : Life ok w synced → Step w w' →
      Life ok w' fun V => synced V ∨ w'.disk.HoldsMeta V.save
  /-- The process dies, at any point, or closes the store and the `fsync` fails. -/
  | reopen {w : World} {synced : Version → Prop} {kv : KV} : Life ok w synced → ok w →
      KV.readRoot w.file = .ok kv →
      Life ok (w.reopen kv) fun V => synced V ∨ w.disk.HoldsMeta V.save
  /-- The store is closed, and its `fsync` succeeds. -/
  | close {w : World} {synced : Version → Prop} {kv : KV} : Life ok w synced → w.stage = .idle →
      w.readers = 0 → KV.readRoot w.file = .ok kv →
      Life ok (w.sync.reopen kv) fun V => synced V ∨ w.sync.disk.HoldsMeta V.save

/-- No meta page is waiting for an `fsync`. -/
def Settled (w : World) : Prop := ∀ pw ∈ w.pending, pw.ptr ≠ 0

/-- The meta page of the version in `durable_version_` has been durable. -/
def DurableSynced (w : World) (synced : Version → Prop) : Prop :=
  w.kv.durableVersion ≠ 0 → ∃ V ∈ w.history, V.version = w.kv.durableVersion ∧ synced V

/-- A running transaction writes no page that the meta page a power loss may bring back uses. -/
def SparesDurable (w : World) : Prop :=
  ∀ tx map, w.stage = .running tx map → ∀ kept kv, kept.Sublist w.pending →
    KV.readRoot (w.disk.pwrites kept) = .ok kv → ∀ u ∈ tx.pageUpdates,
      (w.disk.pwrites kept).Spares kv u

section Life

variable {w w' : World} {pages : Nat → Multiset Nat} {synced : Version → Prop}

/-! ## One step -/

/-- An open takes the version it reads for durable. -/
theorem readRoot_durable {f : File} {kv : KV} (h : KV.readRoot f = .ok kv) :
    kv.durableVersion = kv.version ∧ (f.NoMeta → kv.durableVersion = 0) := by
  rcases readRoot_cases h with ⟨_, hkv⟩ | ⟨hyes, hkv⟩
  · rw [hkv]
    exact ⟨rfl, fun _ => rfl⟩
  · obtain ⟨chunks, total, he⟩ := extendMmap_eq
      (KV.ofMeta (parseMeta (Bytes.readAt (f.page 0) 0 metaDataSize)))
      ((parseMeta (Bytes.readAt (f.page 0) 0 metaDataSize)).flushed * btreePageSize)
    rw [he] at hkv
    rw [hkv]
    exact ⟨rfl, fun hno => absurd hno hyes⟩

/-- **A store opened on a settled file** is at a version whose meta page is durable. -/
theorem Inv.synced_of_opened {f : File} {waiting : List PageWrite} {kv : KV}
    {history : List Version}
    (h : Inv { disk := f, pending := waiting, kv := kv, history := history } pages)
    (hopen : KV.readRoot (f.pwrites waiting) = .ok kv) (hwait : ∀ pw ∈ waiting, pw.ptr ≠ 0)
    (hne : kv.durableVersion ≠ 0) :
    ∃ V ∈ history, V.version = kv.durableVersion ∧ f.HoldsMeta V.save := by
  obtain ⟨heq, hzero⟩ := readRoot_durable hopen
  rcases h.base.disk with ⟨V, hV, hd⟩ | hno
  · have hle : V.version ≤ kv.version := h.base.version_le hV.mem
    have hge : kv.durableVersion ≤ V.version := hV.durable
    exact ⟨V, hV.mem, by omega, hd⟩
  · exact absurd (hzero (File.NoMeta.pwrites hno hwait)) hne

/-- **A step moves `durable_version_` only to a version that is durable then.** -/
theorem Inv.step_durable (h : w.Inv pages) (hd : w.DurableSynced synced) (hstep : Step w w') :
    w'.DurableSynced fun V => synced V ∨ w'.disk.HoldsMeta V.save := by
  have hsame : ∀ {w2 : World}, w2.kv.durableVersion = w.kv.durableVersion →
      (∀ V ∈ w.history, V ∈ w2.history) →
      w2.DurableSynced fun V => synced V ∨ w2.disk.HoldsMeta V.save := by
    intro w2 hkv hhist hne
    rw [hkv] at hne ⊢
    obtain ⟨V, hV, hver, hs⟩ := hd hne
    exact ⟨V, hhist V hV, hver, Or.inl hs⟩
  cases hstep with
  | endRead _ hend =>
      refine hsame ?_ fun _ hV => hV
      obtain ⟨_, _, he⟩ := bind_eq_ok.mp hend
      cases he
      rfl
  | @commit tx map _ _ =>
      refine hsame ?_ fun _ hV => hV
      obtain ⟨chunks, total, he⟩ := extendMmap_eq w.kv (w.kv.commitSize tx)
      show (w.kv.extendMmap (w.kv.commitSize tx)).durableVersion = _
      rw [he]
  | publish _ _ => exact hsame rfl fun _ hV => List.mem_append_left _ hV
  | settle hst =>
      intro _
      have hstage := h.stage
      rw [hst] at hstage
      -- the sync wrote the meta page of the latest version
      obtain ⟨before, hpending, _⟩ := hstage
      refine ⟨w.latest, h.base.latest_mem, h.base.latest_version, Or.inr ?_⟩
      show (w.disk.pwrites w.pending).HoldsMeta _
      rw [hpending, File.pwrites_append]
      exact File.holdsMeta_pwrite _ (length_save _)
  | powerLoss hsub hopen =>
      intro hne
      obtain ⟨V, hV, hver, hm⟩ := (h.base.powerLoss hsub hopen).synced_of_opened hopen
        (fun _ hpw => absurd hpw List.not_mem_nil) hne
      exact ⟨V, hV, hver, Or.inr hm⟩
  | _ => exact hsame rfl fun _ hV => hV

/-! ## The run -/

/-- **The invariant holds across restarts**, if no meta page is waiting at an open. -/
theorem Life.inv (h : Life Settled w synced) :
    (∃ pages, w.Inv pages) ∧ w.DurableSynced synced := by
  induction h with
  | start => exact ⟨⟨_, Inv.start⟩, fun hne => absurd rfl hne⟩
  | step _ hstep ih =>
      obtain ⟨⟨pages, hinv⟩, hd⟩ := ih
      exact ⟨hinv.step hstep, hinv.step_durable hd hstep⟩
  | @reopen w synced kv _ hok hopen ih =>
      obtain ⟨⟨pages, hinv⟩, _⟩ := ih
      have hinv' : (w.reopen kv).Inv pages :=
        hinv.base.opened (List.nil_sublist _) (fun pw hpw => ⟨hpw, hok pw hpw⟩) hopen
      refine ⟨⟨pages, hinv'⟩, fun hne => ?_⟩
      obtain ⟨V, hV, hver, hm⟩ := hinv'.synced_of_opened hopen hok hne
      exact ⟨V, hV, hver, Or.inr hm⟩
  | @close w synced kv _ _ _ hopen ih =>
      obtain ⟨⟨pages, hinv⟩, _⟩ := ih
      have hinv' : (w.sync.reopen kv).Inv pages :=
        hinv.base.sync.opened (List.nil_sublist _) (fun _ hpw => absurd hpw List.not_mem_nil) hopen
      refine ⟨⟨pages, hinv'⟩, fun hne => ?_⟩
      obtain ⟨V, hV, hver, hm⟩ := hinv'.synced_of_opened hopen
        (fun _ hpw => absurd hpw List.not_mem_nil) hne
      exact ⟨V, hV, hver, Or.inr hm⟩

/-- A write that is harmless to a version spares what its meta page uses. -/
theorem spares_of_harmless {V : Version} {ps : Multiset Nat} {f : File} {kv : KV} {u : Nat × Bytes}
    (h : V.Harmless ps f ⟨u.1, u.2⟩) (hs : V.Shape ps) (hi : V.Intact ps f)
    (hroot : kv.root = V.root) (hfree : kv.free = V.freeState)
    (hnodes : (kv.begin f).free.nodes = V.nodes) : f.Spares kv u := by
  refine ⟨fun hreach => ?_, fun hmem => ?_⟩
  · have hne : ∀ q ∈ ps, q ≠ 0 := fun q hq => by
      have := (hs.mem_range (Multiset.mem_add.mpr (Or.inl hq))).1
      omega
    rw [hroot] at hreach
    have hu := (TreeAt.mem_iff_reaches hi.tree hne).mpr hreach
    have ht : u.1 = V.freeState.tailPage := (h (Multiset.mem_add.mpr (Or.inl hu))).1
    exact hs.disjoint hu (ht ▸ hs.tail_mem)
  · rw [hnodes] at hmem
    obtain ⟨ht, _, hslots⟩ := h (Multiset.mem_add.mpr (Or.inr (Multiset.mem_coe.mpr hmem)))
    rw [hfree]
    exact ⟨ht, hslots⟩

/-- What a running transaction writes is nothing a power loss may bring back. -/
theorem Inv.spares (h : w.Inv pages) : w.SparesDurable := by
  intro tx map hst kept kv hsub hopen u hu
  have hstage := h.stage
  rw [hst] at hstage
  obtain ⟨b, hbegan, hfile, ps, _, nodes, items, used, htx⟩ := hstage
  have hb := (h.base.powerLoss hsub hopen).base
  have hnodes : (kv.begin (w.disk.pwrites kept)).free.nodes = (w.restart kept kv).latest.nodes :=
    hb.free_list.1
  obtain ⟨hroot, _, hfree⟩ := hb.latest
  by_cases h0 : kv.version = 0
  · -- a new file: no tree, and an empty list
    have hinit := hb.initial_of_zero hb.latest_mem (by rw [hb.latest_version]; exact h0)
    rw [hinit] at hnodes hroot hfree
    have hroot' : kv.root = 0 := hroot.symm
    have hfree' : kv.free = ⟨1, 0, 1, 0⟩ := hfree.symm
    refine ⟨fun hreach => ?_, fun hmem => ?_⟩
    · rw [hroot'] at hreach
      exact hreach.root_ne rfl
    · rw [hnodes] at hmem
      rw [hfree']
      exact ⟨List.mem_singleton.mp hmem, fun i hi => absurd hi (Nat.not_lt_zero i)⟩
  · obtain ⟨hdurable, hzero⟩ := readRoot_durable hopen
    obtain ⟨V, hV, _, hm, hintact⟩ := h.base.image hsub fun hno => h0 (hdurable ▸ hzero hno)
    have hs := h.base.shape V hV.mem hV.ne
    have hlatest : (w.restart kept kv).latest = V := by
      refine h.base.eq_of_version (List.mem_of_mem_take hb.latest_mem) hV.mem ?_
      rw [hb.latest_version]
      rw [readRoot_of_holds hs hV.ne hm] at hopen
      obtain ⟨chunks, total, he⟩ := extendMmap_eq (KV.ofMeta V.toMeta) (V.flushed * btreePageSize)
      rw [he] at hopen
      exact congrArg KV.version (Except.ok.inj hopen).symm
    rw [hlatest] at hnodes hroot hfree
    have hpending := (h.base.kept V hV).harmless
    have hharm := htx.harmless V _ (hbegan.kept V hV) u.1 u.2 hu
    rw [hfile] at hharm
    exact spares_of_harmless ((Version.harmless_pwrites fun pw hpw =>
      hpending pw (hsub.subset hpw)).mpr ((Version.harmless_pwrites hpending).mp hharm)) hs hintact
      hroot.symm hfree.symm hnodes

/-- **`durable_version_` never runs ahead of the disk**, and the free list gives out nothing that a
power loss can bring back, in every run that opens the file only when no meta page is waiting for an
`fsync`. -/
theorem durable_version_synced (h : Life Settled w synced) :
    w.DurableSynced synced ∧ w.SparesDurable := by
  obtain ⟨⟨pages, hinv⟩, hd⟩ := h.inv
  exact ⟨hd, hinv.spares⟩

/-! ## An open between the meta page and its `fsync` -/

/-- No meta page was durable so far. -/
def Unsynced (w : World) : Prop :=
  ∃ synced, Life (fun _ => True) w synced ∧ ∀ V, ¬ synced V

theorem early_unsynced : Early Unsynced where
  start := ⟨_, .start, fun _ h => h⟩
  step h hstep hno := by
    obtain ⟨synced, hlife, hnone⟩ := h
    exact ⟨_, .step hlife hstep, fun V hV => hV.elim (hnone V) fun hm => hm.sig hno⟩

/-- The process dies after the first meta page is written and before it is durable, and the file is
opened again: the version is taken for durable, and no meta page ever was. -/
theorem durable_version_ahead : ¬ ∀ w synced, Life (fun _ => True) w synced →
    w.DurableSynced synced ∧ w.SparesDurable := by
  intro hall
  obtain ⟨w, ⟨synced, hlife, hnone⟩, hw, hno, hst, _, hversion, _⟩ :=
    early_unsynced.first_root (show ValidKey [97] by decide) (show ValidVal [49] by decide)
  obtain ⟨pages, hinv⟩ := hw.inv
  have hstage := hinv.stage
  rw [hst] at hstage
  obtain ⟨before, hpending, hne⟩ := hstage
  have hm : w.file.HoldsMeta w.latest.save := by
    show (w.disk.pwrites w.pending).HoldsMeta _
    rw [hpending, File.pwrites_append]
    exact File.holdsMeta_pwrite _ (length_save _)
  have hopen := readRoot_of_holds (hinv.base.shape _ hinv.base.latest_mem hne) hne hm
  obtain ⟨chunks, total, he⟩ := extendMmap_eq (KV.ofMeta w.latest.toMeta)
    (w.latest.flushed * btreePageSize)
  rw [he] at hopen
  obtain ⟨V, _, _, hV⟩ := (hall _ _ (.reopen hlife trivial hopen)).1 hne
  exact hV.elim (hnone V) fun hm => hm.sig hno

/-- After a first commit. -/
theorem durable_version_synced_first_commit :
    ∃ w synced, Life Settled w synced ∧ w.kv.durableVersion = 1 ∧
      w.DurableSynced synced ∧ w.SparesDurable := by
  have hearly : Early fun w => ∃ synced, Life Settled w synced :=
    ⟨⟨_, .start⟩, fun h hstep _ => ⟨_, .step h.choose_spec hstep⟩⟩
  obtain ⟨w, ⟨synced, hlife⟩, _, _, hst, _, hversion, _⟩ :=
    hearly.first_root (show ValidKey [97] by decide) (show ValidVal [49] by decide)
  have hsettled := Life.step hlife (.settle hst)
  exact ⟨_, _, hsettled, hversion, durable_version_synced hsettled⟩

end Life

end World

end SqlDb
