import SqlDb.Storage.FreeListProof
import SqlDb.Storage.KV
import SqlDb.Storage.TreeAt

/-!
# A committed version, and what keeps it intact

A version is what one commit published: the fields of its meta page, the map its tree
stands for, and its free list. `Intact` says that a file still holds it. A later
write is `Harmless` to it when it is for a page the version neither has in its tree nor
as a list node — or for the tail node, past the last slot in use. Nothing else matters:
what the version has as a free page is not read.
-/

namespace SqlDb

open Outcome FreeList

/-! ## The meta page round trip -/

theorem length_save (m : Meta) : m.save.length = metaDataSize := by
  simp [Meta.save]

/-- The field's value. -/
def Meta.field (m : Meta) : MetaField → Nat
  | .root => m.root
  | .flushed => m.flushed
  | .headPage => m.freeState.headPage
  | .headSeq => m.freeState.headSeq
  | .tailPage => m.freeState.tailPage
  | .tailSeq => m.freeState.tailSeq
  | .version => m.version

theorem readU64_writeU64_of_disjoint {b : Bytes} {pos p v : Nat} (h : p + 8 ≤ pos ∨ pos + 8 ≤ p) :
    Bytes.readU64 (Bytes.writeU64 b pos v) p = Bytes.readU64 b p := by
  unfold Bytes.writeU64
  refine Bytes.readU64_writeAt_of_disjoint ?_
  rw [Bytes.length_le]
  exact h

/-- Each field is where the others are not. -/
theorem readU64_save {m : Meta} (field : MetaField) (h : m.field field < 2 ^ 64) :
    Bytes.readU64 m.save (metaOffset field) = m.field field := by
  have hlen : (Bytes.writeAt (List.replicate metaDataSize 0) 0 dbSig).length = metaDataSize := by
    rw [Bytes.length_writeAt, List.length_replicate]
  have hfit : ∀ f : MetaField, metaOffset f + 8 ≤ metaDataSize := by
    intro f
    cases f <;> decide
  unfold Meta.save
  dsimp only
  generalize Bytes.writeAt (List.replicate metaDataSize 0) 0 dbSig = data at hlen ⊢
  cases field with
  | version => exact Bytes.readU64_writeU64_self (by simpa [hlen] using hfit .version) h
  | _ =>
      simp (disch := decide) only [readU64_writeU64_of_disjoint]
      exact Bytes.readU64_writeU64_self (by simpa [hlen] using hfit _) h

/-- **What is saved is what is parsed.** -/
theorem parseMeta_save {m : Meta} (h : ∀ field, m.field field < 2 ^ 64) : parseMeta m.save = m := by
  unfold parseMeta
  rw [readU64_save .root (h _), readU64_save .flushed (h _), readU64_save .headPage (h _),
    readU64_save .headSeq (h _), readU64_save .tailPage (h _), readU64_save .tailSeq (h _),
    readU64_save .version (h _)]
  rfl

/-- The signature comes first. -/
theorem sig_save (m : Meta) : Bytes.readAt m.save 0 2 = dbSig := by
  have h8 : ∀ f : MetaField, 0 + 2 ≤ metaOffset f := by
    intro f
    cases f <;> decide
  unfold Meta.save Bytes.writeU64
  dsimp only
  rw [Bytes.readAt_writeAt_of_disjoint (Or.inl (h8 _)), Bytes.readAt_writeAt_of_disjoint (Or.inl (h8 _)),
    Bytes.readAt_writeAt_of_disjoint (Or.inl (h8 _)), Bytes.readAt_writeAt_of_disjoint (Or.inl (h8 _)),
    Bytes.readAt_writeAt_of_disjoint (Or.inl (h8 _)), Bytes.readAt_writeAt_of_disjoint (Or.inl (h8 _)),
    Bytes.readAt_writeAt_of_disjoint (Or.inl (h8 _))]
  exact Bytes.readAt_writeAt_self (by decide)

/-! ## Versions -/

/-- What a commit published. -/
structure Version extends Meta where
  map : Contents
  nodes : List Nat
  items : List Item

/-- A page as a node. -/
def File.node (f : File) (p : Nat) : Except Fault BNode := decode (f.page p)

namespace Version

/-- The slots of the tail node in use. -/
def used (V : Version) : Nat := seqToIdx V.freeState.tailSeq

/-- The pages the version reads, `ps` being its tree's: those, and its list's nodes. -/
def live (V : Version) (ps : Multiset Nat) : Multiset Nat := ps + V.nodes

/-- The store of a new file. -/
def initial : Version where
  flushed := 2
  freeState := ⟨1, 0, 1, 0⟩
  map := []
  nodes := [1]
  items := []

/-- What holds of a version by itself. Its tree, list nodes and free pages are all the pages there
are, each once. -/
structure Shape (V : Version) (ps : Multiset Nat) : Prop where
  partition : ps + listPages V.nodes V.items = (List.range' 1 (V.flushed - 1) : Multiset Nat)
  head : V.nodes.head? = some V.freeState.headPage
  tail : V.nodes.getLast? = some V.freeState.tailPage
  seq : V.freeState.headSeq + V.items.length = V.freeState.tailSeq
  bound : V.freeState.tailSeq < 2 ^ 64
  freed : ∀ it ∈ V.items, it.2 < V.version
  flushed : 2 ≤ V.flushed ∧ V.flushed < 2 ^ 64
  version : V.version < 2 ^ 63
  root : V.root < V.flushed

/-- The file holds the version. -/
structure Intact (V : Version) (ps : Multiset Nat) (f : File) : Prop where
  size : V.flushed * btreePageSize ≤ f.size
  tree : TreeAt f.node V.root V.map ps
  chain : Chain (fun p => .ok (f.page p)) (seqToIdx V.freeState.headSeq) V.nodes V.items V.used

/-- A write that leaves the version intact. -/
def Harmless (V : Version) (ps : Multiset Nat) (f : File) (w : PageWrite) : Prop :=
  w.ptr ∈ V.live ps → w.ptr = V.freeState.tailPage ∧ w.bytes.length = btreePageSize ∧
    ∀ i < V.used, slotAt w.bytes i = slotAt (f.page w.ptr) i

section Shape

variable {V : Version} {ps : Multiset Nat}

theorem Shape.nodup (h : V.Shape ps) : (ps + listPages V.nodes V.items).Nodup := by
  rw [h.partition]
  exact Multiset.coe_nodup.mpr List.nodup_range'

theorem Shape.nodup_live (h : V.Shape ps) : (V.live ps).Nodup := by
  refine Multiset.nodup_of_le ?_ h.nodup
  unfold live listPages
  rw [← add_assoc]
  exact Multiset.le_add_right _ _

theorem Shape.nodup_nodes (h : V.Shape ps) : V.nodes.Nodup :=
  Multiset.coe_nodup.mp (Multiset.nodup_of_le (Multiset.le_add_left _ _) h.nodup_live)

/-- A page of the tree is no list node. -/
theorem Shape.disjoint (h : V.Shape ps) {p : Nat} (hp : p ∈ ps) : p ∉ V.nodes := fun hn =>
  Multiset.disjoint_left.mp (Multiset.nodup_add.mp h.nodup_live).2.2 hp (Multiset.mem_coe.mpr hn)

theorem Shape.tail_mem (h : V.Shape ps) : V.freeState.tailPage ∈ V.nodes :=
  List.mem_of_getLast? h.tail

theorem Shape.head_mem (h : V.Shape ps) : V.freeState.headPage ∈ V.nodes :=
  List.mem_of_mem_head? h.head

theorem Shape.mem_range (h : V.Shape ps) {p : Nat} (hp : p ∈ V.live ps) :
    1 ≤ p ∧ p < V.flushed := by
  have hm : p ∈ ps + listPages V.nodes V.items := by
    rcases Multiset.mem_add.mp hp with hp | hp
    · exact Multiset.mem_add.mpr (Or.inl hp)
    · exact Multiset.mem_add.mpr (Or.inr (mem_listPages.mpr (Or.inl hp)))
  rw [h.partition, Multiset.mem_coe, List.mem_range'_1] at hm
  have := h.flushed
  omega

/-- **The meta page of a version loads**: it passes the checks, and gives back every field. -/
theorem Shape.valid (h : V.Shape ps) (hne : V.version ≠ 0) : V.toMeta.Valid := by
  have hhead := h.mem_range (Multiset.mem_add.mpr (Or.inr (Multiset.mem_coe.mpr h.head_mem)))
  have htail := h.mem_range (Multiset.mem_add.mpr (Or.inr (Multiset.mem_coe.mpr h.tail_mem)))
  have hseq := h.seq
  exact ⟨hne, h.flushed.1, h.root, by omega, hhead.2, by omega, htail.2, by omega⟩

theorem Shape.parse_save (h : V.Shape ps) : parseMeta V.save = V.toMeta := by
  have hhead := h.mem_range (Multiset.mem_add.mpr (Or.inr (Multiset.mem_coe.mpr h.head_mem)))
  have htail := h.mem_range (Multiset.mem_add.mpr (Or.inr (Multiset.mem_coe.mpr h.tail_mem)))
  have hseq := h.seq
  have hflushed := h.flushed.2
  have hroot := h.root
  have hbound := h.bound
  have hversion := h.version
  refine parseMeta_save fun field => ?_
  cases field with
  | root => exact lt_trans hroot hflushed
  | flushed => exact hflushed
  | headPage => exact lt_trans hhead.2 hflushed
  | headSeq =>
      show V.freeState.headSeq < 2 ^ 64
      omega
  | tailPage => exact lt_trans htail.2 hflushed
  | tailSeq => exact hbound
  | version => exact lt_trans hversion (by decide)

/-- A version's own pages are those it keeps. -/
theorem mem_live {p : Nat} (hp : p ∈ V.live ps) : p ∈ ps ∨ p ∈ V.nodes :=
  (Multiset.mem_add.mp hp).imp id Multiset.mem_coe.mp

end Shape

/-! ## Writes a version survives -/

section Writes

variable {V : Version} {ps : Multiset Nat} {f : File} {w : PageWrite}

/-- A write elsewhere. -/
theorem Harmless.of_notMem (h : w.ptr ∉ V.live ps) : V.Harmless ps f w := fun hm => absurd hm h

theorem Intact.pwrite (h : V.Intact ps f) (hs : V.Shape ps) (hw : V.Harmless ps f w) :
    V.Intact ps (f.pwrite w) := by
  have hne : ∀ p ∈ V.live ps, p ≠ V.freeState.tailPage → p ≠ w.ptr := by
    intro p hp hpt he
    exact hpt (he.trans (hw (he ▸ hp)).1)
  refine ⟨h.size.trans (f.size_le_pwrite w), h.tree.congr fun q hq => ?_, ?_⟩
  · have hqt : q ≠ V.freeState.tailPage := fun he => hs.disjoint hq (he ▸ hs.tail_mem)
    unfold File.node
    rw [f.page_pwrite_of_ne (hne q (Multiset.mem_add.mpr (Or.inl hq)) hqt)]
  · by_cases ht : V.freeState.tailPage = w.ptr
    · obtain ⟨_, hlen, hslots⟩ := hw (by
        rw [← ht]
        exact Multiset.mem_add.mpr (Or.inr hs.tail_mem))
      have hpage : (f.pwrite w).page V.freeState.tailPage = w.bytes := by
        rw [ht]
        exact f.page_pwrite_self hlen
      refine h.chain.retail hs.tail hs.nodup_nodes rfl (congrArg Except.ok hpage) ?_ ?_ ?_
      · rw [hlen, f.length_page]
      · rw [ht]; exact hslots
      · intro q hq hqt
        exact congrArg Except.ok (f.page_pwrite_of_ne (hne q (Multiset.mem_add.mpr (Or.inr hq)) hqt))
    · refine h.chain.congr fun q hq => congrArg Except.ok (f.page_pwrite_of_ne ?_)
      by_cases hqt : q = V.freeState.tailPage
      · rw [hqt]; exact ht
      · exact hne q (Multiset.mem_add.mpr (Or.inr hq)) hqt

/-- What was harmless before a harmless write is so after it. -/
theorem Harmless.pwrite {w' : PageWrite} (h' : V.Harmless ps f w') (hw : V.Harmless ps f w) :
    V.Harmless ps (f.pwrite w) w' := by
  intro hm
  obtain ⟨ht, hlen, hslots⟩ := h' hm
  refine ⟨ht, hlen, fun i hi => ?_⟩
  by_cases he : w'.ptr = w.ptr
  · obtain ⟨_, hlenw, hslotsw⟩ := hw (he ▸ hm)
    rw [he, f.page_pwrite_self hlenw, hslotsw i hi, hslots i hi, he]
  · rw [f.page_pwrite_of_ne he]
    exact hslots i hi

/-- A harmless write of one file is harmless to any file with the same tail slots. -/
theorem Harmless.unwrite {w' : PageWrite} (h' : V.Harmless ps (f.pwrite w) w')
    (hw : V.Harmless ps f w) : V.Harmless ps f w' := by
  intro hm
  obtain ⟨ht, hlen, hslots⟩ := h' hm
  refine ⟨ht, hlen, fun i hi => ?_⟩
  rw [hslots i hi]
  by_cases he : w'.ptr = w.ptr
  · obtain ⟨_, hlenw, hslotsw⟩ := hw (he ▸ hm)
    rw [he, f.page_pwrite_self hlenw, hslotsw i hi]
  · rw [f.page_pwrite_of_ne he]

/-- **A version survives harmless writes**, any of them and in any number. -/
theorem Intact.pwrites {ws : List PageWrite} (h : V.Intact ps f) (hs : V.Shape ps)
    (hw : ∀ w ∈ ws, V.Harmless ps f w) : V.Intact ps (f.pwrites ws) := by
  induction ws generalizing f with
  | nil => exact h
  | cons w ws ih =>
      have hw0 := hw w (by simp)
      exact ih (h.pwrite hs hw0) fun w' hw' =>
        (hw w' (List.mem_cons_of_mem _ hw')).pwrite hw0

theorem harmless_pwrites {ws : List PageWrite} (hw : ∀ w ∈ ws, V.Harmless ps f w) {w' : PageWrite} :
    V.Harmless ps (f.pwrites ws) w' ↔ V.Harmless ps f w' := by
  induction ws generalizing f with
  | nil => exact Iff.rfl
  | cons w ws ih =>
      have hw0 := hw w (by simp)
      rw [File.pwrites_cons, ih fun x hx => (hw x (List.mem_cons_of_mem _ hx)).pwrite hw0]
      exact ⟨fun h => h.unwrite hw0, fun h => h.pwrite hw0⟩

end Writes

end Version

end SqlDb
