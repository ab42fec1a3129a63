import SqlDb.Storage.Crash

/-!
# The first commit of a new file

A file without a meta page is taken for a new one when it is empty. The first commit grows
it before there is a meta page: whatever write of its first phase reaches the file, the file
is neither empty nor signed, and does not open any more.
-/

namespace SqlDb

open Outcome

namespace World

/-- The file opens as an empty store, on which a transaction can commit any first key. -/
def OpensEmpty (f : File) : Prop :=
  ∃ kv, KV.readRoot f = .ok kv ∧ (kv.snapshot.tree f).ReadsAs [] ∧
    ∀ key val, ValidKey key → ValidVal val → ∃ w, Runs { disk := f, kv := kv } w ∧ w.Durable ∧
      w.stage = .idle ∧ w.latest.map = [(key, val)]

/-- A new file does. -/
theorem opensEmpty_empty : OpensEmpty .empty := by
  refine ⟨.fresh, rfl, Inv.start.base.snapshot_reads, fun key val hk hv => ?_⟩
  obtain ⟨w, hw, hd, _, hmap⟩ := first_commit hk hv
  exact ⟨w, runs_of_reachable hw.reachable, hd, hw.idle, hmap⟩

/-- A file that is not empty does not open without a signature. -/
theorem not_opensEmpty {f : File} (hsize : f.size ≠ 0) (hno : f.NoMeta) : ¬ OpensEmpty f := by
  intro h
  obtain ⟨kv, hopen, _⟩ := h
  rcases readRoot_cases hopen with ⟨h0, _⟩ | ⟨hyes, _⟩
  · exact hsize h0
  · exact hyes hno

section First

variable {w : World} {tx : KVTX} {map : Contents}

/-- A transaction's writes are whole pages behind the meta page. -/
theorem Reachable.pageWrites (h : Reachable w) (hrun : w.stage = .running tx map) {pw : PageWrite}
    (hpw : pw ∈ SqlDb.pageWrites tx.pageUpdates) :
    pw.ptr ≠ 0 ∧ pw.bytes.length = btreePageSize := by
  obtain ⟨pages, hinv⟩ := h.inv
  have hstage := hinv.stage
  rw [hrun] at hstage
  obtain ⟨b, _, _, ps, _, nodes, items, used, hst⟩ := hstage
  obtain ⟨hmem, hlen⟩ := hst.pages.updates _ _ (mem_pageWrites.mp hpw)
  exact ⟨(hst.pages.ptr hmem).1, hlen⟩

/-- **The first commit of a new file**, stopped before its meta page is written with some of its
page writes in the file, leaves an empty store exactly when there are none. -/
theorem first_commit_atomic (h : Reachable w) (hdisk : w.disk = .empty) (hpending : w.pending = [])
    (hrun : w.stage = .running tx map) {landed : List PageWrite}
    (hlanded : landed.Sublist (SqlDb.pageWrites tx.pageUpdates)) :
    OpensEmpty (w.file.pwrites landed) ↔ landed = [] := by
  have hfile : w.file = .empty := by rw [World.file, hdisk, hpending, File.pwrites_nil]
  rw [hfile]
  constructor
  · intro hopen
    by_contra hne
    obtain ⟨pw, hpw⟩ := List.exists_mem_of_ne_nil landed hne
    obtain ⟨_, hlen⟩ := h.pageWrites hrun (hlanded.subset hpw)
    have hend : _ ≤ (File.empty.pwrites landed).size := File.size_pwrites hpw
    rw [hlen] at hend
    have hpos := pageSize_pos
    have hno : File.empty.NoMeta := by
      show Bytes.readAt (List.replicate btreePageSize 0) 0 2 ≠ dbSig
      decide
    exact not_opensEmpty (by omega)
      (hno.pwrites fun x hx => (h.pageWrites hrun (hlanded.subset hx)).1) hopen
  · intro hnone
    rw [hnone]
    exact opensEmpty_empty

/-- It always has a page to write: the free list's first node is not in the file yet. -/
theorem Reachable.first_writes (h : Reachable w) (hdisk : w.disk = .empty)
    (hpending : w.pending = [])
    (hrun : w.stage = .running tx map) : ∃ pw, pw ∈ SqlDb.pageWrites tx.pageUpdates := by
  obtain ⟨pages, hinv⟩ := h.inv
  have hstage := hinv.stage
  rw [hrun] at hstage
  obtain ⟨b, _, hfile, ps, _, nodes, items, used, hst⟩ := hstage
  rw [World.file, hdisk, hpending, File.pwrites_nil] at hfile
  have hdirty : tx.free.pages.Dirty 1 := by
    by_contra hclean
    have hsize := (hst.pages.mapped 1 (le_refl _) hst.pages.bound.1 hclean).2
    rw [hfile] at hsize
    exact absurd hsize (by decide)
  obtain ⟨page, hpage⟩ := hdirty
  exact ⟨⟨1, page⟩, mem_pageWrites.mpr hpage⟩

/-- A transaction of a new file that has set one key. -/
theorem first_transaction : ∃ (w : World) (tx : KVTX) (map : Contents), Reachable w ∧
    w.disk = .empty ∧ w.pending = [] ∧ w.stage = .running tx map ∧ tx.tree.root ≠ w.kv.root := by
  obtain ⟨tx, hset, hroot⟩ := set_fresh (show ValidKey [97] by decide)
    (show ValidVal [49] by decide)
  refine ⟨_, tx, _, .step (.step .start (.begin rfl)) (.set rfl hset), rfl, rfl, rfl, ?_⟩
  show tx.tree.root ≠ 0
  rw [hroot]
  decide

/-- Nothing of it has reached the file. -/
theorem first_commit_atomic_one : ∃ (w : World) (tx : KVTX) (map : Contents), Reachable w ∧
    w.stage = .running tx map ∧ tx.tree.root ≠ w.kv.root ∧
    (OpensEmpty (w.file.pwrites []) ↔ ([] : List PageWrite) = []) := by
  obtain ⟨w, tx, map, hw, hdisk, hpending, hrun, hne⟩ := first_transaction
  exact ⟨w, tx, map, hw, hrun, hne,
    first_commit_atomic hw hdisk hpending hrun (List.nil_sublist _)⟩

/-- Its commit dies with the pages in the file and no meta page. -/
theorem first_commit_not_atomic : ¬ ∀ (w : World) (tx : KVTX) (map : Contents)
    (landed : List PageWrite), Reachable w → w.disk = .empty → w.pending = [] →
      w.stage = .running tx map → tx.tree.root ≠ w.kv.root →
      landed.Sublist (SqlDb.pageWrites tx.pageUpdates) → OpensEmpty (w.file.pwrites landed) := by
  intro hall
  obtain ⟨w, tx, map, hw, hdisk, hpending, hrun, hne⟩ := first_transaction
  obtain ⟨pw, hpw⟩ := hw.first_writes hdisk hpending hrun
  obtain ⟨hptr, hlen⟩ := hw.pageWrites hrun hpw
  have hopen := hall w tx map [pw] hw hdisk hpending hrun hne (List.singleton_sublist.mpr hpw)
  rw [World.file, hdisk, hpending, File.pwrites_nil] at hopen
  have hend := File.empty.end_le_pwrite pw
  have hpos := pageSize_pos
  refine not_opensEmpty (f := File.empty.pwrite pw) (by omega) (File.NoMeta.pwrite ?_ hptr) hopen
  show Bytes.readAt (List.replicate btreePageSize 0) 0 2 ≠ dbSig
  decide

end First

end World

end SqlDb
