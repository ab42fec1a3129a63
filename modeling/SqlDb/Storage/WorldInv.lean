import SqlDb.Storage.TxProof
import SqlDb.Storage.World

/-!
# What holds in every state of a run

Every version someone may still read is intact on the disk, and every write since the
last `fsync` is harmless to it, so that it is intact in whatever a power loss leaves.
And every such version keeps its pages out of the later ones' reach: they are in the
latest version's tree or list, or free since that version at the earliest.

`pages` gives each version's tree pages; it grows with the history.
-/

namespace SqlDb

open Outcome FreeList OrdMap

/-! ## The meta page in the file -/

section Meta

variable {f : File} {pw : PageWrite}

theorem File.HoldsMeta.sig {m : Meta} (h : f.HoldsMeta m.save) : ¬ f.NoMeta := by
  have hs := sig_save m
  rw [← h.2, Bytes.readAt_readAt (by decide)] at hs
  exact fun hno => hno hs

theorem File.holdsMeta_pwrite (f : File) {data : Bytes} (hlen : data.length = metaDataSize) :
    (f.pwrite ⟨0, data⟩).HoldsMeta data := by
  have hsize := f.end_le_pwrite ⟨0, data⟩
  dsimp only at hsize
  refine ⟨by omega, ?_⟩
  show Bytes.readAt (Function.update f.page 0 _ 0) 0 metaDataSize = data
  rw [Function.update_self, ← hlen]
  refine Bytes.readAt_writeAt_self ?_
  rw [hlen, f.length_page]
  decide

theorem File.HoldsMeta.pwrite {data : Bytes} (h : f.HoldsMeta data) (hne : pw.ptr ≠ 0) :
    (f.pwrite pw).HoldsMeta data :=
  ⟨h.1.trans (f.size_le_pwrite pw), by rw [f.page_pwrite_of_ne hne.symm]; exact h.2⟩

theorem File.NoMeta.pwrite (h : f.NoMeta) (hne : pw.ptr ≠ 0) : (f.pwrite pw).NoMeta := by
  unfold File.NoMeta
  rw [f.page_pwrite_of_ne hne.symm]
  exact h

theorem File.HoldsMeta.pwrites {data : Bytes} {ws : List PageWrite} (h : f.HoldsMeta data)
    (hne : ∀ pw ∈ ws, pw.ptr ≠ 0) : (f.pwrites ws).HoldsMeta data := by
  induction ws generalizing f with
  | nil => exact h
  | cons pw ws ih =>
      exact ih (h.pwrite (hne pw (by simp))) fun x hx => hne x (List.mem_cons_of_mem _ hx)

theorem File.NoMeta.pwrites {ws : List PageWrite} (h : f.NoMeta) (hne : ∀ pw ∈ ws, pw.ptr ≠ 0) :
    (f.pwrites ws).NoMeta := by
  induction ws generalizing f with
  | nil => exact h
  | cons pw ws ih =>
      exact ih (h.pwrite (hne pw (by simp))) fun x hx => hne x (List.mem_cons_of_mem _ hx)

/-- The meta page after some writes is one of those written, or what it was. -/
theorem File.meta_pwrites {P : Version → Prop} {ws : List PageWrite}
    (hw : ∀ pw ∈ ws, pw.ptr = 0 → ∃ V, P V ∧ pw = ⟨0, V.save⟩)
    (h : (∃ V, P V ∧ f.HoldsMeta V.save) ∨ f.NoMeta) :
    (∃ V, P V ∧ (f.pwrites ws).HoldsMeta V.save) ∨ (f.pwrites ws).NoMeta := by
  induction ws generalizing f with
  | nil => exact h
  | cons pw ws ih =>
      refine ih (fun x hx => hw x (List.mem_cons_of_mem _ hx)) ?_
      by_cases h0 : pw.ptr = 0
      · obtain ⟨V, hP, he⟩ := hw pw (by simp) h0
        rw [he]
        exact Or.inl ⟨V, hP, f.holdsMeta_pwrite (length_save V.toMeta)⟩
      · rcases h with ⟨V, hP, hV⟩ | h
        · exact Or.inl ⟨V, hP, hV.pwrite h0⟩
        · exact Or.inr (h.pwrite h0)

end Meta

namespace World

/-- What is kept for a version that may still be read. -/
structure Kept (w : World) (pages : Nat → Multiset Nat) (V : Version) : Prop where
  intact : V.Intact (pages V.version) w.disk
  harmless : ∀ pw ∈ w.pending, V.Harmless (pages V.version) w.disk pw
  since : Since V (pages V.version) (pages w.kv.version) w.latest.freeState.tailPage
    w.latest.nodes w.latest.items w.latest.used

/-- A version that was written to the meta page, and is no older than the durable one. -/
structure Saved (w : World) (V : Version) : Prop where
  mem : V ∈ w.history
  ne : V.version ≠ 0
  durable : w.kv.durableVersion ≤ V.version

/-- A reader reads a version of the history. -/
structure Reads (w : World) (id : Nat) (V : Version) : Prop where
  mem : V ∈ w.history
  version : (w.reader id).version = V.version
  heap : w.kv.readers.version id = V.version
  root : (w.reader id).root = V.root
  seen : w.seen id = V.map
  chunks : V.version ≠ 0 → ∃ stop, Tiled (w.reader id).chunks 0 stop ∧ V.flushed ≤ stop

/-- The invariant, but for the writer's stage. -/
structure Base (w : World) (pages : Nat → Multiset Nat) : Prop where
  first : w.history[0]? = some .initial
  numbered : ∀ (i : Nat) (V : Version), w.history[i]? = some V → V.version = i
  length : w.history.length = w.kv.version + 1
  latest : w.latest.root = w.kv.root ∧ w.latest.flushed = w.kv.flushed ∧
    w.latest.freeState = w.kv.free
  shape : ∀ V ∈ w.history, V.version ≠ 0 → V.Shape (pages V.version)
  durable : w.kv.durableVersion ≤ w.kv.version
  kept : ∀ V, w.Protected V → w.Kept pages V
  heap : w.kv.readers.Valid
  reads : ∀ id ∈ w.readers, ∃ V, w.Reads id V
  saved : ∀ pw ∈ w.pending, pw.ptr = 0 → ∃ V, w.Saved V ∧ pw = ⟨0, V.save⟩
  disk : (∃ V, w.Saved V ∧ w.disk.HoldsMeta V.save) ∨ w.disk.NoMeta
  chunks : ∃ stop, Tiled w.kv.chunks 0 stop ∧ w.kv.mmapTotal = stop * btreePageSize ∧
    (w.kv.version ≠ 0 → w.kv.flushed ≤ stop)

/-- What a running transaction began on is still so. -/
structure Began (w : World) (pages : Nat → Multiset Nat) (b : TxBase) : Prop where
  sound : b.Sound
  flushed : b.flushed = w.kv.flushed
  version : b.version = w.kv.version
  kept : ∀ V, w.Protected V → b.kept V (pages V.version)

/-- The transaction's tree stands for `map`, over the pages it began on. -/
def TxInv (b : TxBase) (tx : KVTX) (map : Contents) : Prop :=
  ∃ ps, tx.tree.Denotes (TxOwns b) map ps

/-- What the stages rely on. -/
def StageInv (w : World) (pages : Nat → Multiset Nat) : Stage → Prop
  | .idle => True
  | .running tx map => ∃ b, w.Began pages b ∧ b.file = w.file ∧ TxInv b tx map
  | .writing tx map todo => ∃ b, w.Began pages b ∧ TxInv b tx map ∧
      (∃ stop, Tiled w.kv.chunks 0 stop ∧ tx.free.pages.stop ≤ stop) ∧
      ∃ before done, w.pending = before ++ done ∧ b.file = w.disk.pwrites before ∧
        pageWrites tx.pageUpdates = done ++ todo
  | .synced tx map => ∃ b, w.Began pages b ∧ TxInv b tx map ∧
      (∃ stop, Tiled w.kv.chunks 0 stop ∧ tx.free.pages.stop ≤ stop) ∧
      w.pending = [] ∧ w.disk = b.file.pwrites (pageWrites tx.pageUpdates)
  | .published => w.latest.version ≠ 0
  | .rooted => ∃ before, w.pending = before ++ [⟨0, w.latest.save⟩] ∧ w.latest.version ≠ 0

/-- **The invariant.** -/
structure Inv (w : World) (pages : Nat → Multiset Nat) : Prop where
  base : w.Base pages
  stage : w.StageInv pages w.stage

/-! ## Versions by number -/

section Base

variable {w : World} {pages : Nat → Multiset Nat} {V V' : Version}

theorem Base.mem_iff (h : w.Base pages) : V ∈ w.history ↔ w.history[V.version]? = some V := by
  constructor
  · intro hm
    obtain ⟨i, hi⟩ := List.mem_iff_getElem?.mp hm
    rw [h.numbered i V hi]
    exact hi
  · exact List.mem_of_getElem?

theorem Base.eq_of_version (h : w.Base pages) (hV : V ∈ w.history) (hV' : V' ∈ w.history)
    (he : V.version = V'.version) : V = V' := by
  have h1 := h.mem_iff.mp hV
  have h2 := h.mem_iff.mp hV'
  rw [he, h2, Option.some.injEq] at h1
  exact h1.symm

theorem Base.version_le (h : w.Base pages) (hV : V ∈ w.history) : V.version ≤ w.kv.version := by
  have := (List.getElem?_eq_some_iff.mp (h.mem_iff.mp hV)).1
  have := h.length
  omega

theorem Base.getElem_latest (h : w.Base pages) : w.history[w.kv.version]? = some w.latest := by
  have hlt : w.kv.version < w.history.length := by
    have := h.length
    omega
  rw [World.latest, List.getD_eq_getElem?_getD, List.getElem?_eq_getElem hlt, Option.getD_some]

theorem Base.latest_mem (h : w.Base pages) : w.latest ∈ w.history :=
  List.mem_of_getElem? h.getElem_latest

theorem Base.latest_version (h : w.Base pages) : w.latest.version = w.kv.version :=
  h.numbered _ _ h.getElem_latest

/-- Below half of `uint64_t`. -/
theorem Base.version_lt (h : w.Base pages) (hV : V ∈ w.history) : V.version < 2 ^ 63 := by
  by_cases hne : V.version = 0
  · rw [hne]; exact Nat.two_pow_pos 63
  · exact (h.shape V hV hne).version

theorem Base.initial_of_zero (h : w.Base pages) (hV : V ∈ w.history) (h0 : V.version = 0) :
    V = .initial := by
  have h1 := h.mem_iff.mp hV
  rw [h0, h.first, Option.some.injEq] at h1
  exact h1.symm

/-- A meta page names one version. -/
theorem Base.eq_of_save (h : w.Base pages) (hV : V ∈ w.history) (hV' : V' ∈ w.history)
    (hne : V.version ≠ 0) (hne' : V'.version ≠ 0) (he : V.save = V'.save) : V = V' := by
  have h1 := (h.shape V hV hne).parse_save
  have h2 := (h.shape V' hV' hne').parse_save
  rw [he, h2] at h1
  exact h.eq_of_version hV hV' (congrArg Meta.version h1).symm

/-- A version a power loss may bring back is one that was saved. -/
theorem Base.saved_of_mayHold (h : w.Base pages) (hV : V ∈ w.history) (hne : V.version ≠ 0)
    (hm : w.MayHold V) : w.Saved V := by
  rcases hm with hm | hm
  · rcases h.disk with ⟨V', hs, hd⟩ | hno
    · rw [h.eq_of_save hV hs.mem hne hs.ne (hm.2.symm.trans hd.2)]
      exact hs
    · exact absurd hno hm.sig
  · obtain ⟨V', hs, he⟩ := h.saved _ hm rfl
    rw [PageWrite.mk.injEq] at he
    rw [h.eq_of_save hV hs.mem hne hs.ne he.2]
    exact hs

/-- Nothing but the readers changes. -/
structure SameStore (w w' : World) : Prop where
  disk : w'.disk = w.disk
  pending : w'.pending = w.pending
  root : w'.kv.root = w.kv.root
  version : w'.kv.version = w.kv.version
  flushed : w'.kv.flushed = w.kv.flushed
  free : w'.kv.free = w.kv.free
  durable : w'.kv.durableVersion = w.kv.durableVersion
  chunks : w'.kv.chunks = w.kv.chunks
  total : w'.kv.mmapTotal = w.kv.mmapTotal
  history : w'.history = w.history

theorem SameStore.latest {w' : World} (h : SameStore w w') : w'.latest = w.latest := by
  rw [World.latest, World.latest, h.version, h.history]

theorem SameStore.file {w' : World} (h : SameStore w w') : w'.file = w.file := by
  rw [World.file, World.file, h.disk, h.pending]

theorem SameStore.began {w' : World} (h : SameStore w w') (hp : ∀ V, w'.Protected V → w.Protected V)
    {b : TxBase} (hb : w.Began pages b) : w'.Began pages b :=
  ⟨hb.sound, hb.flushed.trans h.flushed.symm, hb.version.trans h.version.symm,
    fun V hV => hb.kept V (hp V hV)⟩

theorem SameStore.stage {w' : World} (h : SameStore w w')
    (hp : ∀ V, w'.Protected V → w.Protected V) {st : Stage} (hs : w.StageInv pages st) :
    w'.StageInv pages st := by
  have hbegan : ∀ b, w.Began pages b → w'.Began pages b := fun b hb => h.began hp hb
  cases st with
  | idle => trivial
  | running tx map =>
      obtain ⟨b, hb, hfile, ht⟩ := hs
      exact ⟨b, hbegan b hb, hfile.trans h.file.symm, ht⟩
  | writing tx map todo =>
      obtain ⟨b, hb, ht, hc, before, done, hpend, hfile, hw⟩ := hs
      refine ⟨b, hbegan b hb, ht, by rw [h.chunks]; exact hc, before, done, ?_, ?_, hw⟩
      · rw [h.pending, hpend]
      · rw [h.disk, hfile]
  | synced tx map =>
      obtain ⟨b, hb, ht, hc, hpend, hdisk⟩ := hs
      exact ⟨b, hbegan b hb, ht, by rw [h.chunks]; exact hc, by rw [h.pending, hpend],
        by rw [h.disk, hdisk]⟩
  | published => rw [StageInv, h.latest]; exact hs
  | rooted =>
      obtain ⟨before, hpend, hne⟩ := hs
      exact ⟨before, by rw [h.pending, h.latest, hpend], by rw [h.latest]; exact hne⟩

theorem SameStore.base {w' : World} (h : SameStore w w') (hb : w.Base pages)
    (hp : ∀ V, w'.Protected V → w.Protected V) (heap : w'.kv.readers.Valid)
    (reads : ∀ id ∈ w'.readers, ∃ V, w'.Reads id V) : w'.Base pages := by
  have hsaved : ∀ V, w.Saved V → w'.Saved V := fun V hV =>
    ⟨by rw [h.history]; exact hV.mem, hV.ne, by rw [h.durable]; exact hV.durable⟩
  refine ⟨by rw [h.history]; exact hb.first, by rw [h.history]; exact hb.numbered,
    by rw [h.history, h.version]; exact hb.length, ?_, by rw [h.history]; exact hb.shape,
    by rw [h.durable, h.version]; exact hb.durable, fun V hV => ?_, heap, reads, ?_, ?_, ?_⟩
  · rw [h.latest, h.root, h.flushed, h.free]
    exact hb.latest
  · obtain ⟨h1, h2, h3⟩ := hb.kept V (hp V hV)
    refine ⟨by rw [h.disk]; exact h1, by rw [h.disk, h.pending]; exact h2, ?_⟩
    rw [h.latest, h.version]
    exact h3
  · rw [h.pending]
    intro pw hpw h0
    obtain ⟨V, hV, he⟩ := hb.saved pw hpw h0
    exact ⟨V, hsaved V hV, he⟩
  · rw [h.disk]
    exact hb.disk.imp (fun ⟨V, hV, hd⟩ => ⟨V, hsaved V hV, hd⟩) id
  · rw [h.chunks, h.total, h.version, h.flushed]
    exact hb.chunks

theorem SameStore.mayHold {w' : World} (h : SameStore w w') (hm : w'.MayHold V) : w.MayHold V := by
  unfold World.MayHold at hm
  rw [h.disk, h.pending] at hm
  exact hm

/-- **A reader begins** on the latest version, which is protected already. -/
theorem Base.beginRead (h : w.Base pages) {id : Nat} (hid : id ∉ w.readers) :
    SameStore w (w.beginRead id) ∧ (∀ V, (w.beginRead id).Protected V → w.Protected V) ∧
      (w.beginRead id).Base pages := by
  obtain ⟨hvalid, hreaders, hversion⟩ :=
    ReaderHeap.push_spec (h.heap.setVersion hid w.kv.version) (r := id) hid
  have hreaders' : (w.beginRead id).readers = id ::ₘ w.readers := hreaders
  have hheap : (w.beginRead id).kv.readers.version =
      Function.update w.kv.readers.version id w.kv.version := hversion
  have hne : ∀ x ∈ w.readers, x ≠ id := fun x hx he => hid (he ▸ hx)
  have hself : (w.beginRead id).reader id = w.kv.snapshot := Function.update_self _ _ _
  have hother : ∀ x ∈ w.readers, (w.beginRead id).reader x = w.reader x := fun x hx =>
    Function.update_of_ne (hne x hx) _ _
  have hsame : SameStore w (w.beginRead id) := ⟨rfl, rfl, rfl, rfl, rfl, rfl, rfl, rfl, rfl, rfl⟩
  have hlatest := h.latest_version
  have hp : ∀ V, (w.beginRead id).Protected V → w.Protected V := by
    intro V hV
    refine ⟨hV.mem, hV.ne, ?_⟩
    rcases hV.why with hc | ⟨x, hx, he⟩ | hm
    · exact Or.inl hc
    · rw [hreaders'] at hx
      rcases Multiset.mem_cons.mp hx with hx | hx
      · rw [hx, hself] at he
        exact Or.inl he.symm
      · rw [hother x hx] at he
        exact Or.inr (Or.inl ⟨x, hx, he⟩)
    · exact Or.inr (Or.inr (hsame.mayHold hm))
  refine ⟨hsame, hp, hsame.base h hp hvalid fun x hx => ?_⟩
  rw [hreaders'] at hx
  rcases Multiset.mem_cons.mp hx with hx | hx
  · -- the new reader is on the latest version
    refine ⟨w.latest, h.latest_mem, ?_, ?_, ?_, ?_, fun hv => ?_⟩
    · rw [hx, hself, hlatest]; rfl
    · rw [hx, hheap, Function.update_self, hlatest]
    · rw [hx, hself, h.latest.1]; rfl
    · rw [hx]
      exact Function.update_self _ _ _
    · obtain ⟨stop, ht, _, hs⟩ := h.chunks
      rw [hlatest] at hv
      rw [hx, hself, h.latest.2.1]
      exact ⟨stop, ht, hs hv⟩
  · -- the others keep theirs
    obtain ⟨V, hV⟩ := h.reads x hx
    refine ⟨V, hV.mem, ?_, ?_, ?_, ?_, fun hv => ?_⟩
    · rw [hother x hx]; exact hV.version
    · rw [hheap, Function.update_of_ne (hne x hx)]; exact hV.heap
    · rw [hother x hx]; exact hV.root
    · rw [← hV.seen]
      exact Function.update_of_ne (hne x hx) _ _
    · rw [hother x hx]; exact hV.chunks hv

theorem Inv.beginRead (h : w.Inv pages) {id : Nat} (hid : id ∉ w.readers) :
    (w.beginRead id).Inv pages := by
  obtain ⟨hsame, hp, hbase⟩ := h.base.beginRead hid
  exact ⟨hbase, hsame.stage hp h.stage⟩

/-- A reader ends: the one that the heap finds under the index. -/
theorem Base.endRead (h : w.Base pages) {index : Int} {r : Nat} {heap : ReaderHeap}
    (hremove : w.kv.readers.remove index = .ok (r, heap)) :
      SameStore w { w with kv := { w.kv with readers := heap } } ∧
      (∀ V, World.Protected { w with kv := { w.kv with readers := heap } } V → w.Protected V) ∧
      Base { w with kv := { w.kv with readers := heap } } pages := by
  obtain ⟨_, hvalid, hreaders, hversion, _⟩ := ReaderHeap.remove_inv h.heap hremove
  have hsame : SameStore w { w with kv := { w.kv with readers := heap } } :=
    ⟨rfl, rfl, rfl, rfl, rfl, rfl, rfl, rfl, rfl, rfl⟩
  have hsub : ∀ x ∈ heap.readers, x ∈ w.readers := fun x hx => by
    rw [hreaders] at hx
    exact Multiset.mem_of_mem_erase hx
  have hp : ∀ V, World.Protected { w with kv := { w.kv with readers := heap } } V →
      w.Protected V := by
    intro V hV
    refine ⟨hV.mem, hV.ne, ?_⟩
    rcases hV.why with hc | ⟨x, hx, he⟩ | hm
    · exact Or.inl hc
    · exact Or.inr (Or.inl ⟨x, hsub x hx, he⟩)
    · exact Or.inr (Or.inr hm)
  refine ⟨hsame, hp, hsame.base h hp hvalid fun x hx => ?_⟩
  obtain ⟨V, hV⟩ := h.reads x (hsub x hx)
  exact ⟨V, hV.mem, hV.version, (congrFun hversion x).trans hV.heap, hV.root, hV.seen, hV.chunks⟩

theorem Inv.endRead (h : w.Inv pages) {id : Nat} {kv : KV} (hend : w.kv.endRead id = .ok kv) :
    Inv { w with kv := kv } pages := by
  obtain ⟨⟨r, heap⟩, hremove, hkv⟩ := bind_eq_ok.mp hend
  obtain ⟨hsame, hp, hbase⟩ := h.base.endRead hremove
  rw [← Except.ok.inj hkv]
  exact ⟨hbase, hsame.stage hp h.stage⟩

/-! ## A transaction -/

/-- **Pages are kept back for every protected version**: for the durable one, and for the oldest
reader's if that is older. -/
theorem Base.minReader_le (h : w.Base pages) :
    w.kv.minReader ≤ w.kv.version ∧ ∀ V, w.Protected V → w.kv.minReader ≤ V.version := by
  have hdurable := h.durable
  have hlt := h.version_lt h.latest_mem
  rw [h.latest_version] at hlt
  -- at most the durable version and every reader's
  have hmin : w.kv.minReader ≤ w.kv.durableVersion ∧
      ∀ id ∈ w.readers, w.kv.minReader ≤ w.kv.readers.version id := by
    unfold KV.minReader
    cases hm : w.kv.readers.min with
    | none =>
        refine ⟨le_refl _, fun id hid => ?_⟩
        have : w.readers = 0 := ReaderHeap.min_eq_none.mp hm
        rw [this] at hid
        exact absurd hid (Multiset.notMem_zero id)
    | some oldest =>
        obtain ⟨hmem, hle⟩ := h.heap.min hm
        obtain ⟨V, hV⟩ := h.reads oldest hmem
        have hV' := h.version_lt hV.mem
        dsimp only
        rw [versionBefore_iff (by rw [hV.heap]; exact hV') (by omega)]
        by_cases hb : w.kv.readers.version oldest < w.kv.durableVersion
        · rw [if_pos (by simpa using hb)]
          exact ⟨le_of_lt hb, hle⟩
        · rw [if_neg (by simpa using hb)]
          refine ⟨le_refl _, fun id hid => ?_⟩
          have := hle id hid
          omega
  refine ⟨hmin.1.trans hdurable, fun V hV => ?_⟩
  rcases hV.why with hc | ⟨id, hid, he⟩ | hm
  · omega
  · obtain ⟨V', hV'⟩ := h.reads id hid
    have h1 := hmin.2 id hid
    rw [hV'.heap, ← hV'.version, he] at h1
    exact h1
  · exact hmin.1.trans (h.saved_of_mayHold hV.mem hV.ne hm).durable

/-- A version has its own pages. -/
theorem Since.self {ps : Multiset Nat} : Since V ps ps V.freeState.tailPage V.nodes V.items V.used :=
  ⟨fun _ hp => (Version.mem_live hp).imp id Or.inl, fun _ => ⟨rfl, le_refl _⟩⟩

/-- The latest version is protected. -/
theorem Base.protected_latest (h : w.Base pages) (hne : w.kv.version ≠ 0) : w.Protected w.latest :=
  ⟨h.latest_mem, by rw [h.latest_version]; exact hne, Or.inl h.latest_version⟩

theorem Base.kept_latest (h : w.Base pages) (hne : w.kv.version ≠ 0) :
    w.latest.Shape (pages w.kv.version) ∧ w.latest.Intact (pages w.kv.version) w.file := by
  have hp := h.protected_latest hne
  have hs := h.shape _ hp.mem hp.ne
  obtain ⟨h1, h2, _⟩ := h.kept _ hp
  have hi := h1.pwrites hs h2
  rw [h.latest_version] at hs hi
  exact ⟨hs, hi⟩

/-- What `begin` begins on. -/
def beginBase (w : World) (pages : Nat → Multiset Nat) : TxBase where
  file := w.file
  chunks := w.kv.chunks
  flushed := w.kv.flushed
  version := w.kv.version
  minReader := w.kv.minReader
  kept V ps := w.Protected V ∧ ps = pages V.version

theorem Base.began (h : w.Base pages) : w.Began pages (w.beginBase pages) :=
  ⟨fun V _ hk => ⟨h.minReader_le.2 V hk.1, h.version_le hk.1.mem⟩, rfl, rfl, fun _ hV => ⟨hV, rfl⟩⟩

/-- A page of the latest version is read from the file. -/
theorem Base.read_begin (h : w.Base pages) (hne : w.kv.version ≠ 0) {p : Nat}
    (hp : p < w.kv.flushed) :
    (w.kv.beginPages w.file).pageGetMapped p = .ok (w.file.page p) ∧
      (p + 1) * btreePageSize ≤ w.file.size := by
  have hsize := (h.kept_latest hne).2.size
  rw [h.latest.2.1] at hsize
  have hend : (p + 1) * btreePageSize ≤ w.file.size :=
    (Nat.mul_le_mul_right _ hp).trans hsize
  obtain ⟨stop, ht, _, hs⟩ := h.chunks
  exact ⟨MappedPages.get_of_lt ht (lt_of_lt_of_le hp (hs hne)) hend, hend⟩

theorem beginPages_updates (hne : w.kv.version ≠ 0) :
    (w.kv.beginPages w.file).pageUpdates = [] := if_neg hne

theorem beginPages_updates_zero (h0 : w.kv.version = 0) :
    (w.kv.beginPages w.file).pageUpdates = [(1, List.replicate btreePageSize 0)] := if_pos h0

/-- A new file's free list is one node, not written yet, with nothing in it. -/
theorem Base.queue_zero (h : w.Base pages) (h0 : w.kv.version = 0) :
    (w.kv.begin w.file).free.Queue w.latest.nodes w.latest.items w.latest.used := by
  have hinit := h.initial_of_zero h.latest_mem (h.latest_version.trans h0)
  have hfree := h.latest.2.2
  rw [hinit] at hfree ⊢
  have hupd := beginPages_updates_zero (w := w) h0
  have hread : (w.kv.beginPages w.file).pageRead 1 = .ok (List.replicate btreePageSize 0) :=
    TxPages.pageRead_of_mem (by rw [hupd]; exact sorted_singleton _)
      (by rw [hupd]; exact List.mem_singleton.mpr rfl)
  have hstate : w.kv.free = ⟨1, 0, 1, 0⟩ := hfree.symm
  refine ⟨?_, ?_, ?_, ?_, ?_, fun it hit => absurd hit (List.not_mem_nil), ?_, ?_⟩
  · refine .last hread List.length_replicate ?_ (by decide) (holdsItems_nil _ _)
    show 0 = seqToIdx w.kv.free.headSeq + _
    rw [hstate]
    rfl
  · show some 1 = some w.kv.free.headPage
    rw [hstate]
  · show some 1 = some w.kv.free.tailPage
    rw [hstate]
  · show w.kv.free.headSeq + 0 = w.kv.free.tailSeq
    rw [hstate]
  · show w.kv.free.tailSeq < 2 ^ 64
    rw [hstate]
    exact Nat.two_pow_pos 64
  · show w.kv.version < 2 ^ 63
    rw [h0]
    exact Nat.two_pow_pos 63
  · exact h.minReader_le.1

/-- The first transaction of a new file: no tree yet, and one empty list node, not yet written. -/
theorem Base.begin_zero (h : w.Base pages) (h0 : w.kv.version = 0) :
    (w.kv.begin w.file).tree.Denotes (TxOwns (w.beginBase pages)) w.latest.map 0 := by
  have hqueue := h.queue_zero h0
  have hinit := h.initial_of_zero h.latest_mem (h.latest_version.trans h0)
  have hlatest := h.latest
  rw [hinit] at hlatest hqueue ⊢
  obtain ⟨hroot, hflushed, hfree⟩ := hlatest
  have hupd := beginPages_updates_zero (w := w) h0
  have hsorted : Sorted (w.kv.beginPages w.file).pageUpdates := by
    rw [hupd]
    exact sorted_singleton _
  have hdirty : (w.kv.beginPages w.file).Dirty 1 := ⟨_, by rw [hupd]; exact List.mem_singleton.mpr rfl⟩
  -- a new file keeps no version
  have hnone : ∀ V ps, ¬ (w.beginBase pages).kept V ps := by
    intro V ps hk
    have := h.version_le hk.1.mem
    have := hk.1.ne
    omega
  have hstop : (w.kv.beginPages w.file).stop = 2 := congrArg (· + 0) hflushed.symm
  refine ⟨Or.inl ⟨hroot.symm, rfl, rfl⟩, [1], [], 0, hqueue, by decide, rfl, rfl, ?_,
    fun V ps hk => absurd hk (hnone V ps), fun V ps hk => absurd hk (hnone V ps)⟩
  · refine ⟨rfl, rfl, rfl, ?_, ⟨?_, ?_⟩, hsorted, ?_, ?_, ?_⟩
    · show _ = ((List.range' 1 ((w.kv.beginPages w.file).stop - 1) : List Nat) : Multiset Nat)
      rw [hstop]
      rfl
    · show 2 ≤ w.kv.flushed
      rw [← hflushed]
      exact le_refl _
    · show (w.kv.beginPages w.file).stop < 2 ^ 64
      rw [hstop]
      decide
    · intro p page hp
      have hp' : (p, page) ∈ (w.kv.beginPages w.file).pageUpdates := hp
      rw [hupd, List.mem_singleton, Prod.mk.injEq] at hp'
      rw [hp'.1, hp'.2]
      exact ⟨by decide, List.length_replicate⟩
    · intro p h1 h2
      have h1' : w.kv.flushed ≤ p := h1
      have h2' : p < (w.kv.beginPages w.file).stop := h2
      have : Version.initial.flushed = 2 := rfl
      omega
    · intro p h1 h2 hd
      have h2' : p < w.kv.flushed := h2
      have : Version.initial.flushed = 2 := rfl
      -- page 1 is the only one below, and it is buffered
      have hp : p = 1 := by omega
      rw [hp] at hd
      exact absurd hdirty hd

theorem beginPages_clean (hne : w.kv.version ≠ 0) (p : Nat) : ¬ (w.kv.beginPages w.file).Dirty p := by
  intro hd
  obtain ⟨page, hp⟩ := hd
  rw [beginPages_updates hne] at hp
  exact absurd hp List.not_mem_nil

theorem Base.read_latest (h : w.Base pages) (hne : w.kv.version ≠ 0) {p : Nat}
    (hp : p ∈ w.latest.live (pages w.kv.version)) :
    (w.kv.beginPages w.file).pageRead p = .ok (w.file.page p) := by
  have := ((h.kept_latest hne).1.mem_range hp).2
  rw [h.latest.2.1] at this
  rw [TxPages.pageRead_of_clean (beginPages_clean hne p), (h.read_begin hne this).1]

/-- A later transaction's free list is the latest version's. -/
theorem Base.queue_succ (h : w.Base pages) (hne : w.kv.version ≠ 0) :
    (w.kv.begin w.file).free.Queue w.latest.nodes w.latest.items w.latest.used := by
  obtain ⟨hshape, hintact⟩ := h.kept_latest hne
  have hfree := h.latest.2.2
  have hread := fun p => h.read_latest hne (p := p)
  refine ⟨?_, ?_, ?_, ?_, ?_, fun it hit => ?_, ?_, ?_⟩
  · show Chain (TxPages.pageRead (w.kv.beginPages w.file)) (seqToIdx w.kv.free.headSeq) _ _ _
    rw [← hfree]
    exact hintact.chain.congr fun p hp => hread p (Multiset.mem_add.mpr (Or.inr hp))
  · show _ = some w.kv.free.headPage
    rw [← hfree]
    exact hshape.head
  · show _ = some w.kv.free.tailPage
    rw [← hfree]
    exact hshape.tail
  · show w.kv.free.headSeq + _ = w.kv.free.tailSeq
    rw [← hfree]
    exact hshape.seq
  · show w.kv.free.tailSeq < 2 ^ 64
    rw [← hfree]
    exact hshape.bound
  · have := hshape.freed it hit
    rw [h.latest_version] at this
    exact le_of_lt this
  · have := hshape.version
    rw [h.latest_version] at this
    exact this
  · exact h.minReader_le.1

/-- A later transaction reads the latest version from the file. -/
theorem Base.begin_succ (h : w.Base pages) (hne : w.kv.version ≠ 0) :
    (w.kv.begin w.file).tree.Denotes (TxOwns (w.beginBase pages)) w.latest.map
      (pages w.kv.version) := by
  obtain ⟨hshape, hintact⟩ := h.kept_latest hne
  obtain ⟨hroot, hflushed, hfree⟩ := h.latest
  have hupd := beginPages_updates hne
  -- nothing is buffered yet, so every page is read from the file
  have hclean := beginPages_clean hne
  have hread := fun p => h.read_latest hne (p := p)
  have hstop : (w.kv.beginPages w.file).stop = w.latest.flushed := by
    rw [hflushed]
    rfl
  refine ⟨?_, w.latest.nodes, w.latest.items, w.latest.used, h.queue_succ hne,
    seqToIdx_lt _, rfl, rfl, ?_, fun V ps hk => ?_, fun V ps hk p page hp => ?_⟩
  · show TreeAt _ w.kv.root w.latest.map _
    rw [← hroot]
    refine hintact.tree.congr fun q hq => ?_
    show TxPages.pageGet _ q = _
    unfold TxPages.pageGet
    have := hread q (Multiset.mem_add.mpr (Or.inl hq))
    show (do
      let page ← (w.kv.beginPages w.file).pageRead q
      decode page) = _
    rw [this]
    rfl
  · refine ⟨rfl, rfl, rfl, ?_, ⟨?_, ?_⟩, ?_, ?_, ?_, fun p _ h2 _ => h.read_begin hne h2⟩
    · show _ = ((List.range' 1 ((w.kv.beginPages w.file).stop - 1) : List Nat) : Multiset Nat)
      rw [hstop, ← hshape.partition, add_comm]
    · show 2 ≤ w.kv.flushed
      rw [← hflushed]
      exact hshape.flushed.1
    · show (w.kv.beginPages w.file).stop < 2 ^ 64
      rw [hstop]
      exact hshape.flushed.2
    · show Sorted (w.kv.beginPages w.file).pageUpdates
      rw [hupd]
      exact sorted_nil
    · intro p page hp
      exact absurd ⟨page, hp⟩ (hclean p)
    · intro p h1 h2
      have h1' : w.kv.flushed ≤ p := h1
      have h2' : p < (w.kv.beginPages w.file).stop := h2
      rw [hstop, hflushed] at h2'
      omega
  · obtain ⟨hp, he⟩ := hk
    have hs := (h.kept V hp).since
    rw [he]
    show Since V _ _ w.kv.free.tailPage _ _ _
    rw [← hfree]
    exact hs
  · exact absurd ⟨page, hp⟩ (hclean p)

/-- The latest version's tree pages; a new file has none. -/
def treePages (w : World) (pages : Nat → Multiset Nat) : Multiset Nat :=
  if w.kv.version = 0 then 0 else pages w.kv.version

theorem Base.begin_denotes (h : w.Base pages) :
    (w.kv.begin w.file).tree.Denotes (TxOwns (w.beginBase pages)) w.latest.map
      (w.treePages pages) := by
  unfold treePages
  by_cases h0 : w.kv.version = 0
  · rw [if_pos h0]
    exact h.begin_zero h0
  · rw [if_neg h0]
    exact h.begin_succ h0

/-- A transaction begins with the latest version's free list. -/
theorem Base.queue (h : w.Base pages) :
    (w.kv.begin w.file).free.Queue w.latest.nodes w.latest.items w.latest.used := by
  by_cases h0 : w.kv.version = 0
  · exact h.queue_zero h0
  · exact h.queue_succ h0

theorem Base.begin (h : w.Base pages) :
    w.StageInv pages (.running (w.kv.begin w.file) w.latest.map) :=
  ⟨w.beginBase pages, h.began, rfl, w.treePages pages, h.begin_denotes⟩

end Base

end World

end SqlDb
