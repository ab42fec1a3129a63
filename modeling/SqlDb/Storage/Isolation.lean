import SqlDb.Storage.Cursor
import SqlDb.Storage.Ownership

/-!
# Snapshot isolation

What a reader opened is what it reads until it ends. Its version stays protected, so
its pages stay in the file; and no write is for one of them. An iterator reads pages
long after it was made, with any number of commits in between: it is at the same
position all along.
-/

namespace SqlDb

open Outcome FreeList OrdMap

/-! ## A version through a mapping -/

/-- **A version that a file holds is read through any mapping of its pages.** -/
theorem Version.Intact.mapped {V : Version} {ps : Multiset Nat} {f : File}
    {chunks : List MmapChunk} {stop : Nat} (h : V.Intact ps f) (hs : V.Shape ps)
    (ht : Tiled chunks 0 stop) (hle : V.flushed ≤ stop) :
    (∀ p ∈ ps, p ≠ 0 ∧ PageManager.get (⟨chunks, f⟩ : MappedPages) p = f.node p) ∧
      ps.card ≤ PageManager.pageCount (⟨chunks, f⟩ : MappedPages) := by
  refine ⟨fun p hp => ?_, ?_⟩
  · have hr := hs.mem_range (Multiset.mem_add.mpr (Or.inl hp))
    have hsize : (p + 1) * btreePageSize ≤ f.size := (Nat.mul_le_mul_right _ hr.2).trans h.size
    refine ⟨by omega, ?_⟩
    show (do
      let page ← (⟨chunks, f⟩ : MappedPages).pageGetMapped p
      decode page) = _
    rw [MappedPages.get_of_lt (s := ⟨chunks, f⟩) ht (lt_of_lt_of_le hr.2 hle) hsize]
    rfl
  · have hsub : ps ≤ (List.range' 1 (V.flushed - 1) : Multiset Nat) := by
      rw [← hs.partition]
      exact Multiset.le_add_right _ _
    have hcard := Multiset.card_le_card hsub
    rw [Multiset.coe_card, List.length_range'] at hcard
    have hcount := ht.count
    show ps.card ≤ (chunks.map fun chunk => chunk.size / btreePageSize).sum
    omega

namespace World

section Readers

variable {w w' : World} {pages : Nat → Multiset Nat} {id : Nat}

/-- What an open reader has before it: its tree in the file, with all its pages mapped. -/
structure View (w : World) (id : Nat) (ps : Multiset Nat) : Prop where
  tree : TreeAt w.file.node (w.reader id).root (w.seen id) ps
  page : ∀ p ∈ ps, p ≠ 0 ∧ PageManager.get ((w.reader id).tree w.file).pages p = w.file.node p
  count : ps.card ≤ PageManager.pageCount ((w.reader id).tree w.file).pages

/-- **An open reader's version is intact**, and harmless is every write of the running commit. -/
theorem Inv.view (h : w.Inv pages) (hid : id ∈ w.readers) : ∃ ps, w.View id ps ∧
    ∀ tx map todo, w.stage = .writing tx map todo → ∀ pw ∈ pageWrites tx.pageUpdates,
      pw.ptr ∉ ps := by
  obtain ⟨V, hV⟩ := h.base.reads id hid
  by_cases h0 : V.version = 0
  · have hinit := h.base.initial_of_zero hV.mem h0
    have hroot := hV.root
    have hseen := hV.seen
    rw [hinit] at hroot hseen
    exact ⟨0, ⟨Or.inl ⟨hroot, hseen, rfl⟩, fun p hp => absurd hp (Multiset.notMem_zero p),
      Nat.zero_le _⟩, fun _ _ _ _ _ _ => Multiset.notMem_zero _⟩
  · have hp : w.Protected V := ⟨hV.mem, h0, Or.inr (Or.inl ⟨id, hid, hV.version⟩)⟩
    have hs := h.base.shape V hV.mem h0
    obtain ⟨hdisk, hpending, _⟩ := h.base.kept V hp
    have hintact := hdisk.pwrites hs hpending
    obtain ⟨stop, ht, hle⟩ := hV.chunks h0
    obtain ⟨hpage, hcount⟩ := hintact.mapped hs ht hle
    refine ⟨pages V.version, ⟨?_, hpage, hcount⟩, fun tx map todo hst pw hpw hm => ?_⟩
    · rw [hV.root, hV.seen]
      exact hintact.tree
    · have hstage := h.stage
      rw [hst] at hstage
      obtain ⟨b, hbegan, ht, _, before, done, hpend, hfile, _⟩ := hstage
      have hharmless := (h.base.harmless_updates hbegan ht (fun x hx => by
        rw [hpend]; exact List.mem_append_left _ hx) hfile hpw).2 V hp
      -- of the version's pages only the tail node is written, and that is no tree page
      have htail := (hharmless (Multiset.mem_add.mpr (Or.inl hm))).1
      exact hs.disjoint hm (htail ▸ hs.tail_mem)

theorem View.mem_iff {ps : Multiset Nat} (h : w.View id ps) {p : Nat} :
    p ∈ ps ↔ Reaches w.file.node (w.reader id).root p :=
  h.tree.mem_iff_reaches fun q hq => (h.page q hq).1

theorem View.readsAs {ps : Multiset Nat} (h : w.View id ps) :
    ((w.reader id).tree w.file).ReadsAs (w.seen id) :=
  BTree.readsAs (h.tree.congr fun q hq => (h.page q hq).2) (fun q hq => (h.page q hq).1) h.count

/-! ## A step beside an open reader -/

/-- No reader is open on a store just opened. -/
theorem readRoot_readers {f : File} {kv : KV} (h : KV.readRoot f = .ok kv) : kv.readers.readers = 0 := by
  rcases readRoot_cases h with ⟨_, hkv⟩ | ⟨_, hkv⟩
  · rw [hkv]
    rfl
  · obtain ⟨chunks, total, he⟩ := extendMmap_eq
      (KV.ofMeta (parseMeta (Bytes.readAt (f.page 0) 0 metaDataSize)))
      ((parseMeta (Bytes.readAt (f.page 0) 0 metaDataSize)).flushed * btreePageSize)
    rw [hkv, he]
    rfl

/-- **A step leaves an open reader alone**: what it began on, and every page of its tree. -/
theorem Inv.step_reader (h : w.Inv pages) (hstep : Step w w') (hid : id ∈ w.readers)
    (hid' : id ∈ w'.readers) : w'.reader id = w.reader id ∧ w'.seen id = w.seen id ∧
      ∀ p, Reaches w.file.node (w.reader id).root p → w'.file.page p = w.file.page p := by
  obtain ⟨ps, hview, hwrites⟩ := h.view hid
  have hpage : ∀ p, Reaches w.file.node (w.reader id).root p → p ∈ ps := fun p => hview.mem_iff.mpr
  cases hstep with
  | @beginRead id2 hnew =>
      have hne : id ≠ id2 := fun he => hnew (he ▸ hid)
      exact ⟨Function.update_of_ne hne _ _, Function.update_of_ne hne _ _, fun _ _ => rfl⟩
  | @write tx map new todo hst =>
      refine ⟨rfl, rfl, fun p hp => ?_⟩
      have hstage := h.stage
      rw [hst] at hstage
      obtain ⟨_, _, _, _, _, done, _, _, hw⟩ := hstage
      -- the write is one of the transaction's, and none of those is a page of the version
      have hnot := hwrites _ _ _ hst new (by rw [hw]; simp)
      show (w.disk.pwrites (w.pending ++ _)).page p = _
      rw [File.pwrites_append]
      refine File.page_pwrites_of_notMem fun pw hpw he => hnot ?_
      rw [← List.mem_singleton.mp hpw, he]
      exact hpage p hp
  | @writeFails _ _ _ landed hst hsub =>
      refine ⟨rfl, rfl, fun p hp => ?_⟩
      have hstage := h.stage
      rw [hst] at hstage
      obtain ⟨_, _, _, _, _, done, _, _, hw⟩ := hstage
      show (w.disk.pwrites (w.pending ++ landed)).page p = _
      rw [File.pwrites_append]
      refine File.page_pwrites_of_notMem fun pw hpw he => ?_
      refine hwrites _ _ _ hst pw ?_ (he ▸ hpage p hp)
      rw [hw]
      exact List.mem_append_right _ (hsub.subset hpw)
  | writeRoot _ =>
      refine ⟨rfl, rfl, fun p hp => ?_⟩
      show (w.disk.pwrites (w.pending ++ [w.rootWrite])).page p = _
      rw [File.pwrites_append]
      -- the meta page is no page of a tree
      refine File.page_pwrites_of_notMem fun pw hpw he => (hview.page p (hpage p hp)).1 ?_
      rw [← he, List.mem_singleton.mp hpw]
      rfl
  | @powerLoss _ kv _ hopen =>
      have hnone : kv.readers.readers = 0 := readRoot_readers hopen
      have hid' : id ∈ kv.readers.readers := hid'
      rw [hnone] at hid'
      exact absurd hid' (Multiset.notMem_zero id)
  | _ => exact ⟨rfl, rfl, fun _ _ => rfl⟩

/-! ## Walks across steps -/

/-- A walk of the reader `id`, made anywhere in a run and with steps of the run in between. It is at
`iter`, and the same walk on the bindings that the reader began on is at `i`. -/
inductive Walking (id : Nat) : World → BIter → Nat → Prop where
  | seek {w : World} {iter : BIter} {key : Bytes} {cmp : CMP} : Reachable w → id ∈ w.readers →
      (w.reader id).seek w.file key cmp = .ok iter → Walking id w iter (seekPos (w.seen id) key cmp)
  | move {w : World} {iter iter' : BIter} {i : Nat} {move : Move} : Walking id w iter i →
      iter.move ((w.reader id).tree w.file).pages move = .ok iter' →
      Walking id w iter' (move.apply (w.seen id).length i)
  | step {w w' : World} {iter : BIter} {i : Nat} : Walking id w iter i → Step w w' →
      id ∈ w'.readers → Walking id w' iter i

theorem Walking.reachable {iter : BIter} {i : Nat} (h : Walking id w iter i) :
    Reachable w ∧ id ∈ w.readers := by
  induction h with
  | seek hr hid _ => exact ⟨hr, hid⟩
  | move _ _ ih => exact ih
  | step _ hstep hid' ih => exact ⟨.step ih.1 hstep, hid'⟩

/-- What an iterator has read are pages of the reader's tree. -/
def Holding (w : World) (id : Nat) (iter : BIter) (i : Nat) : Prop :=
  ∃ g, (∀ q node, g q = .ok node → Reaches g (w.reader id).root q ∧ w.file.node q = .ok node) ∧
    AtPos g (w.seen id) iter i

/-- Those pages are read through the reader's mapping. -/
theorem View.shows {ps : Multiset Nat} (h : w.View id ps) {g : Nat → Except Fault BNode}
    (hg : ∀ q node, g q = .ok node → Reaches g (w.reader id).root q ∧ w.file.node q = .ok node) :
    Shows ((w.reader id).tree w.file).pages g := by
  intro q node hq
  obtain ⟨hr, hn⟩ := hg q node hq
  have hr' := hr.mono fun q' node' hq' => (hg q' node' hq').2
  rw [(h.page q (h.mem_iff.mpr hr')).2, hn]

/-- **An iterator stays where it is**, whatever steps the run takes. -/
theorem Walking.holding {iter : BIter} {i : Nat} (h : Walking id w iter i) : w.Holding id iter i := by
  induction h with
  | @seek w iter key cmp hr hid hseek =>
      obtain ⟨pages, hinv⟩ := hr.inv
      obtain ⟨ps, hview, _⟩ := hinv.view hid
      have htree : TreeAt (fun q => if q ∈ ps then w.file.node q else .error .busError)
          (w.reader id).root (w.seen id) ps := hview.tree.congr fun q hq => if_pos hq
      have hpages : ∀ q node, (if q ∈ ps then w.file.node q else .error .busError) = .ok node →
          q ∈ ps ∧ w.file.node q = .ok node := by
        intro q node hq
        by_cases hm : q ∈ ps
        · rw [if_pos hm] at hq
          exact ⟨hm, hq⟩
        · rw [if_neg hm] at hq
          cases hq
      have hshows : Shows ((w.reader id).tree w.file).pages
          fun q => if q ∈ ps then w.file.node q else .error .busError := by
        intro q node hq
        obtain ⟨hm, hn⟩ := hpages q node hq
        rw [(hview.page q hm).2, hn]
      have hne : ∀ q ∈ ps, q ≠ 0 := fun q hq => (hview.page q hq).1
      -- the walk is over the version's own pages, whatever else the file holds
      obtain ⟨iter', hseek', hpos⟩ := BTree.seek_spec (t := (w.reader id).tree w.file) hshows htree hne
        hview.count key cmp
      have he : iter = iter' := Except.ok.inj (hseek.symm.trans hseek')
      rw [he]
      refine ⟨_, fun q node hq => ?_, hpos⟩
      obtain ⟨hm, hn⟩ := hpages q node hq
      exact ⟨(htree.mem_iff_reaches hne).mp hm, hn⟩
  | @move w iter iter' i move hw hmove ih =>
      obtain ⟨hr, hid⟩ := hw.reachable
      obtain ⟨pages, hinv⟩ := hr.inv
      obtain ⟨ps, hview, _⟩ := hinv.view hid
      obtain ⟨g, hg, hpos⟩ := ih
      obtain ⟨iter2, hmove2, hpos2⟩ := hpos.move (hview.shows hg) move
      have he : iter' = iter2 := Except.ok.inj (hmove.symm.trans hmove2)
      rw [he]
      exact ⟨g, hg, hpos2⟩
  | @step w w' iter i hw hstep hid' ih =>
      obtain ⟨hr, hid⟩ := hw.reachable
      obtain ⟨pages, hinv⟩ := hr.inv
      obtain ⟨hreader, hseen, hpage⟩ := hinv.step_reader hstep hid hid'
      obtain ⟨g, hg, hpos⟩ := ih
      refine ⟨g, fun q node hq => ?_, by rw [hseen]; exact hpos⟩
      obtain ⟨hreach, hn⟩ := hg q node hq
      -- the pages reached are those the step leaves alone
      have hreach' := hreach.mono fun q' node' hq' => (hg q' node' hq').2
      refine ⟨by rw [hreader]; exact hreach, ?_⟩
      rw [← hn, File.node, File.node, hpage q hreach']

/-- A reader that is open when a second version is committed. -/
theorem reader_of_first_version : ∃ w : World, w.Rests 2 ∧
    w.latest.map = [([97], [50])] ∧ 3 ∈ w.readers ∧ w.seen 3 = [([97], [49])] := by
  obtain ⟨w, hw, _, hnone, hmap⟩ :=
    first_commit (show ValidKey [97] by decide) (show ValidVal [49] by decide)
  have hnew : 3 ∉ w.readers := by
    rw [hnone]
    exact Multiset.notMem_zero 3
  have hread := hw.beginRead hnew
  have hin : 3 ∈ (w.beginRead 3).readers := by
    obtain ⟨pages, hinv⟩ := hw.reachable.inv
    obtain ⟨_, hreaders, _⟩ :=
      ReaderHeap.push_spec (hinv.base.heap.setVersion hnew w.kv.version) (r := 3) hnew
    show 3 ∈ (w.kv.beginRead 3).2.readers.readers
    rw [KV.beginRead, hreaders]
    exact Multiset.mem_cons_self _ _
  have hold : (w.beginRead 3).latest.map = [([97], [49])] := hmap
  obtain ⟨tx, htx⟩ := hread.sets (by decide) (show ValidKey [97] by decide)
    (show ValidVal [50] by decide)
  obtain ⟨hrests, _, hlatest, _⟩ := htx.commits hread (by decide)
  refine ⟨_, hrests, ?_, ?_, ?_⟩
  · rw [hlatest, hold]
    rfl
  · rw [readers_committed]
    exact hin
  · show Function.update w.seen 3 w.latest.map 3 = _
    rw [Function.update_self, hmap]

end Readers

end World

end SqlDb
