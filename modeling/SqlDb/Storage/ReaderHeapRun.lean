import Mathlib.Data.Multiset.Filter
import SqlDb.Storage.ReaderHeap

/-!
# Readers that come and go

A heap over a whole history. The model is the set of open readers, each with the version it
was opened at: a push opens a reader and a removal, by the index the reader keeps, closes it.
The heap stays a heap of that set, and a reader outside it has index -1. An index is an
`int`, so a reader is sure to be found by it as long as there are no more than 2^31 of them.
-/

namespace SqlDb

open Outcome

/-- The open readers and their versions. -/
abbrev OpenReaders := Nat → Option Nat

inductive HeapOp where
  /-- Of a reader that has that version. -/
  | push (reader version : Nat)
  /-- `remove(reader->heap_index)` -/
  | remove (reader : Nat)

namespace HeapOp

/-- A reader is pushed when it is not in the heap, and removed when it is. -/
def Legal (readers : OpenReaders) : HeapOp → Prop
  | push r _ => readers r = none
  | remove r => readers r ≠ none

def effect (readers : OpenReaders) : HeapOp → OpenReaders
  | push r v => Function.update readers r (some v)
  | remove r => Function.update readers r none

/-- How many readers are open then. -/
def count (n : Nat) : HeapOp → Nat
  | push _ _ => n + 1
  | remove _ => n - 1

def countAll (ops : List HeapOp) : Nat := ops.foldl count 0

def apply (h : ReaderHeap) : HeapOp → Except Fault ReaderHeap
  | push r v => .ok ({ h with version := Function.update h.version r v }.push r)
  | remove r => do
      let (_, h) ← h.remove (h.heapIndex r)
      return h

def applyAll (h : ReaderHeap) (ops : List HeapOp) : Except Fault ReaderHeap := ops.foldlM apply h

end HeapOp

/-- The histories that callers make, with the readers they leave open. -/
inductive ReaderHistory : List HeapOp → OpenReaders → Prop where
  | nil : ReaderHistory [] fun _ => none
  | snoc {ops : List HeapOp} {readers : OpenReaders} (h : ReaderHistory ops readers) (op : HeapOp)
      (hlegal : op.Legal readers) : ReaderHistory (ops ++ [op]) (op.effect readers)

/-- Whenever a reader is removed, every slot in use is an `int`. -/
def FewWhenRemoved (ops : List HeapOp) : Prop :=
  ∀ before r after, ops = before ++ .remove r :: after → HeapOp.countAll before ≤ 2 ^ 31

theorem FewWhenRemoved.init {ops : List HeapOp} {op : HeapOp} (h : FewWhenRemoved (ops ++ [op])) :
    FewWhenRemoved ops := fun before r after heq =>
  h before r (after ++ [op]) (by rw [heq, List.append_assoc, List.cons_append])

theorem HeapOp.foldl_count_le (ops : List HeapOp) (n : Nat) :
    ops.foldl count n ≤ n + ops.length := by
  induction ops generalizing n with
  | nil => exact le_refl _
  | cons op ops ih =>
      refine (ih (op.count n)).trans ?_
      have hcount : op.count n ≤ n + 1 := by cases op <;> simp only [count] <;> omega
      rw [List.length_cons]
      omega

/-- A history that is not that long never holds that many. -/
theorem FewWhenRemoved.of_length {ops : List HeapOp} (h : ops.length ≤ 2 ^ 31) :
    FewWhenRemoved ops := by
  intro before r after heq
  have hlen := HeapOp.foldl_count_le before 0
  rw [heq, List.length_append] at h
  rw [HeapOp.countAll]
  omega

namespace ReaderHeap

/-- A heap of the open readers. -/
structure Tracks (h : ReaderHeap) (readers : OpenReaders) : Prop where
  valid : h.Valid
  /-- It holds them and no other. -/
  mem : ∀ r, r ∈ h.readers ↔ readers r ≠ none
  version : ∀ r v, readers r = some v → h.version r = v
  /-- Any other has no slot. -/
  outside : ∀ r, r ∉ h.readers → h.heapIndex r = -1

theorem Tracks.empty : Tracks {} fun _ => none where
  valid := ⟨⟨List.nodup_nil, fun _ h => absurd h (Nat.not_lt_zero _)⟩,
    fun _ _ h => absurd h (Nat.not_lt_zero _)⟩
  mem r := ⟨fun h => absurd h (Multiset.notMem_zero r), fun h => absurd rfl h⟩
  version _ _ h := nomatch h
  outside _ _ := rfl

theorem push_outside {h : ReaderHeap} {r q : Nat} (hq : q ∉ h.readers) (hne : q ≠ r) :
    (h.push r).heapIndex q = h.heapIndex q := by
  unfold push
  dsimp only
  generalize hg : (⟨h.items.push r, h.version, Function.update h.heapIndex r (castInt h.size)⟩ :
    ReaderHeap) = g
  have hsize : g.size = h.size + 1 := by rw [← hg]; exact Array.size_push _
  have hmem : q ∉ g.readers := by
    rw [← hg]
    show q ∉ ((h.items.push r).toList : Multiset Nat)
    rw [Array.toList_push, Multiset.mem_coe, List.mem_append, List.mem_singleton, not_or]
    exact ⟨hq, hne⟩
  rw [(Rearranges.up g (g.size - 1) (by omega)).outside q hmem, ← hg]
  exact Function.update_of_ne hne _ _

theorem remove_outside {h h' : ReaderHeap} {index : Int} {r q : Nat}
    (hremove : h.remove index = .ok (r, h')) (hq : q ∉ h.readers) (hne : q ≠ r) :
    h'.heapIndex q = h.heapIndex q := by
  unfold remove at hremove
  obtain ⟨_, hidx, hremove⟩ := bind_eq_ok.mp hremove
  obtain ⟨_, hi⟩ := require_eq_ok.mp hidx
  dsimp only at hremove
  obtain ⟨rfl, rfl⟩ := Prod.mk.inj (Except.ok.inj hremove)
  have hsw := Rearranges.swap hi (show h.size - 1 < h.size by omega)
  generalize h.swap index.toNat (h.size - 1) = g at hsw hne ⊢
  have hpop : q ∉ (⟨g.items.pop, g.version, g.heapIndex⟩ : ReaderHeap).readers := by
    intro hmem
    refine hq ?_
    rw [← hsw.readers]
    have hmem : q ∈ g.items.pop.toList := Multiset.mem_coe.mp hmem
    rw [Array.toList_pop] at hmem
    exact Multiset.mem_coe.mpr (List.dropLast_subset _ hmem)
  refine (Function.update_of_ne hne _ _).trans ?_
  rw [← hsw.outside q hq]
  split
  · rename_i hip
    exact (Rearranges.sift hip).outside q hpop
  · rfl

/-- A push opens the reader. -/
theorem Tracks.push {h : ReaderHeap} {readers : OpenReaders} (ht : h.Tracks readers) {r : Nat}
    (hr : readers r = none) (v : Nat) :
    Tracks ({ h with version := Function.update h.version r v }.push r)
      (Function.update readers r (some v)) := by
  have hout : r ∉ h.readers := fun hmem => (ht.mem r).mp hmem hr
  obtain ⟨hvalid, hreaders, hversion⟩ := push_spec (ht.valid.setVersion hout v) hout
  refine ⟨hvalid, fun q => ?_, fun q w hq => ?_, fun q hq => ?_⟩
  · rw [hreaders, Multiset.mem_cons]
    by_cases hqr : q = r
    · rw [hqr, Function.update_self]
      exact ⟨fun _ => Option.some_ne_none v, fun _ => Or.inl rfl⟩
    · rw [Function.update_of_ne hqr, ← ht.mem q]
      exact ⟨fun hmem => hmem.resolve_left hqr, Or.inr⟩
  · rw [hversion]
    by_cases hqr : q = r
    · rw [hqr, Function.update_self] at hq
      rw [hqr, ← Option.some.inj hq]
      exact Function.update_self _ _ _
    · rw [Function.update_of_ne hqr] at hq
      exact (Function.update_of_ne hqr _ _).trans (ht.version q w hq)
  · rw [hreaders, Multiset.mem_cons, not_or] at hq
    exact (push_outside (h := { h with version := Function.update h.version r v }) hq.2 hq.1).trans
      (ht.outside q hq.2)

/-- A removal closes the reader whose index was given, and returns it. -/
theorem Tracks.remove {h : ReaderHeap} {readers : OpenReaders} (ht : h.Tracks readers)
    (hfew : h.size ≤ 2 ^ 31) {r : Nat} (hr : readers r ≠ none) :
    ∃ h', h.remove (h.heapIndex r) = .ok (r, h') ∧ h'.Tracks (Function.update readers r none) ∧
      h'.size = h.size - 1 := by
  obtain ⟨h', hremove, hvalid, hreaders, hversion, hindex⟩ :=
    remove_spec ht.valid hfew ((ht.mem r).mpr hr)
  have hnodup : Multiset.Nodup h.readers := Multiset.coe_nodup.mpr ht.valid.slots.nodup
  have hmem : ∀ q, q ∈ h'.readers ↔ q ≠ r ∧ q ∈ h.readers := fun q => by
    rw [hreaders, hnodup.mem_erase_iff]
  have hsize : h'.size = h.size - 1 := by
    rw [← card_readers, ← card_readers, hreaders, Multiset.card_erase_of_mem ((ht.mem r).mpr hr)]
    rfl
  refine ⟨h', hremove, ⟨hvalid, fun q => ?_, fun q w hq => ?_, fun q hq => ?_⟩, hsize⟩
  · rw [hmem, ht.mem q]
    by_cases hqr : q = r
    · rw [hqr, Function.update_self]
      exact ⟨fun h => absurd rfl h.1, fun h => absurd rfl h⟩
    · rw [Function.update_of_ne hqr]
      exact ⟨And.right, fun h => ⟨hqr, h⟩⟩
  · by_cases hqr : q = r
    · rw [hqr, Function.update_self] at hq
      cases hq
    · rw [Function.update_of_ne hqr] at hq
      rw [hversion]
      exact ht.version q w hq
  · by_cases hqr : q = r
    · rw [hqr]
      exact hindex
    · have hold : q ∉ h.readers := fun hin => hq ((hmem q).mpr ⟨hqr, hin⟩)
      rw [remove_outside hremove hold hqr]
      exact ht.outside q hold

theorem Tracks.size_push {h : ReaderHeap} {readers : OpenReaders} (ht : h.Tracks readers) {r : Nat}
    (hr : readers r = none) (v : Nat) :
    ({ h with version := Function.update h.version r v }.push r).size = h.size + 1 := by
  have hout : r ∉ h.readers := fun hmem => (ht.mem r).mp hmem hr
  rw [← card_readers, (push_spec (ht.valid.setVersion hout v) hout).2.1, Multiset.card_cons]
  exact congrArg (· + 1) (card_readers h)

theorem Tracks.apply {h : ReaderHeap} {readers : OpenReaders} (ht : h.Tracks readers) {op : HeapOp}
    (hlegal : op.Legal readers) (hfew : ∀ r, op = .remove r → h.size ≤ 2 ^ 31) :
    ∃ h', op.apply h = .ok h' ∧ h'.Tracks (op.effect readers) ∧ h'.size = op.count h.size := by
  cases op with
  | push r v => exact ⟨_, rfl, ht.push hlegal v, ht.size_push hlegal v⟩
  | remove r =>
      obtain ⟨h', hremove, ht'⟩ := ht.remove (hfew r rfl) hlegal
      refine ⟨h', ?_, ht'⟩
      rw [HeapOp.apply, hremove]
      rfl

theorem tracks_of_history {ops : List HeapOp} {readers : OpenReaders}
    (h : ReaderHistory ops readers) (hfew : FewWhenRemoved ops) :
    ∃ heap, HeapOp.applyAll {} ops = .ok heap ∧ heap.Tracks readers ∧
      heap.size = HeapOp.countAll ops := by
  induction h with
  | nil => exact ⟨{}, rfl, Tracks.empty, rfl⟩
  | @snoc ops readers _ op hlegal ih =>
      obtain ⟨heap, hrun, ht, hsize⟩ := ih hfew.init
      obtain ⟨heap', hstep, ht', hsize'⟩ := ht.apply hlegal fun r hop => by
        rw [hsize]
        exact hfew ops r [] (by rw [hop])
      refine ⟨heap', ?_, ht', ?_⟩
      · rw [HeapOp.applyAll, List.foldlM_append]
        rw [HeapOp.applyAll] at hrun
        rw [hrun, ok_bind, List.foldlM_cons, hstep]
        rfl
      · rw [hsize', hsize, HeapOp.countAll, HeapOp.countAll, List.foldl_append]
        rfl

/-- The root is the oldest open reader. -/
theorem Tracks.min {h : ReaderHeap} {readers : OpenReaders} (ht : h.Tracks readers) :
    (h.min = none ↔ ∀ r, readers r = none) ∧
      ∀ r, h.min = some r → ∃ v, readers r = some v ∧ ∀ q w, readers q = some w → v ≤ w := by
  refine ⟨?_, fun r hr => ?_⟩
  · rw [min_eq_none]
    constructor
    · intro h0 r
      by_contra hr
      have hmem := (ht.mem r).mpr hr
      rw [h0] at hmem
      exact Multiset.notMem_zero r hmem
    · intro hall
      refine Multiset.eq_zero_of_forall_notMem fun r hmem => ?_
      exact (ht.mem r).mp hmem (hall r)
  · obtain ⟨hmem, hleast⟩ := ht.valid.min hr
    obtain ⟨v, hv⟩ := Option.ne_none_iff_exists'.mp ((ht.mem r).mp hmem)
    refine ⟨v, hv, fun q w hq => ?_⟩
    have hle := hleast q ((ht.mem q).mpr (hq ▸ Option.some_ne_none w))
    rw [ht.version r v hv, ht.version q w hq] at hle
    exact hle

/-- **The heap tracks the open readers** over every history in which no more than 2^31 are open when
one is removed: it holds each once, a reader in one of the first 2^31 slots has that slot for its
index, no parent is younger, the root is the oldest, and a removal by a reader's index returns that
reader. -/
theorem heap_of_history {ops : List HeapOp} {readers : OpenReaders}
    (h : ReaderHistory ops readers) (hfew : FewWhenRemoved ops) :
    ∃ heap, HeapOp.applyAll {} ops = .ok heap ∧
      (heap.readers.Nodup ∧ ∀ r, r ∈ heap.readers ↔ readers r ≠ none) ∧
      (∀ r v, readers r = some v → heap.version r = v) ∧
      ((∀ i < heap.size, i < 2 ^ 31 → heap.heapIndex (heap.item i) = i) ∧
        ∀ r, readers r = none → heap.heapIndex r = -1) ∧
      (∀ k, 0 < k → k < heap.size → heap.versionAt (parent k) ≤ heap.versionAt k) ∧
      ((heap.min = none ↔ ∀ r, readers r = none) ∧
        ∀ r, heap.min = some r → ∃ v, readers r = some v ∧ ∀ q w, readers q = some w → v ≤ w) ∧
      (HeapOp.countAll ops ≤ 2 ^ 31 →
        ∀ r, readers r ≠ none → ∃ heap', heap.remove (heap.heapIndex r) = .ok (r, heap')) := by
  obtain ⟨heap, hrun, ht, hsize⟩ := tracks_of_history h hfew
  refine ⟨heap, hrun, ⟨Multiset.coe_nodup.mpr ht.valid.slots.nodup, ht.mem⟩, ht.version,
    ⟨fun i hi hlt => ?_, fun r hr => ht.outside r fun hmem => (ht.mem r).mp hmem hr⟩,
    ht.valid.ordered, ht.min, fun hcount r hr => ?_⟩
  · rw [ht.valid.slots.index i hi, castInt_of_lt hlt]
  · obtain ⟨heap', hremove, _⟩ := ht.remove (by rw [hsize]; exact hcount) hr
    exact ⟨heap', hremove⟩

/-- Five readers come, two of one version, and go from the root and from the middle. -/
theorem heap_of_history_five : ∃ heap,
    HeapOp.applyAll {} [.push 1 5, .push 2 3, .push 3 4, .push 4 3, .remove 2, .push 5 9,
      .remove 1] = .ok heap ∧
      (heap.readers.Nodup ∧ ∀ r, r ∈ heap.readers ↔ r = 3 ∨ r = 4 ∨ r = 5) ∧
      ((∀ i < heap.size, i < 2 ^ 31 → heap.heapIndex (heap.item i) = i) ∧
        heap.heapIndex 1 = -1 ∧ heap.heapIndex 2 = -1) ∧
      (∀ k, 0 < k → k < heap.size → heap.versionAt (parent k) ≤ heap.versionAt k) ∧
      ∃ heap', heap.remove (heap.heapIndex 4) = .ok (4, heap') := by
  have h1 : ReaderHistory [.push 1 5] _ := ReaderHistory.nil.snoc (.push 1 5) rfl
  have h2 : ReaderHistory [.push 1 5, .push 2 3] _ := h1.snoc (.push 2 3) rfl
  have h3 := h2.snoc (.push 3 4) rfl
  have h4 := h3.snoc (.push 4 3) rfl
  have h5 := h4.snoc (.remove 2) (Option.some_ne_none 3)
  have h6 := h5.snoc (.push 5 9) rfl
  have h7 := h6.snoc (.remove 1) (Option.some_ne_none 5)
  have hfew : FewWhenRemoved [.push 1 5, .push 2 3, .push 3 4, .push 4 3, .remove 2, .push 5 9,
      .remove 1] := .of_length (by decide)
  obtain ⟨heap, hrun, ⟨hnodup, hmem⟩, _, hindex, hordered, _, hremove⟩ := heap_of_history h7 hfew
  refine ⟨heap, hrun, ⟨hnodup, fun r => ?_⟩, ⟨hindex.1, hindex.2 1 rfl, hindex.2 2 rfl⟩, hordered,
    hremove (by decide) 4 (Option.some_ne_none 3)⟩
  rw [hmem]
  simp only [HeapOp.effect, Function.update_apply]
  split_ifs <;> simp_all

/-! ## More readers than an `int` can number -/

/-- `n` readers of one version come. -/
def pushes (n : Nat) : List HeapOp := (List.range n).map fun r => .push r 0

theorem pushes_succ (n : Nat) : pushes (n + 1) = pushes n ++ [.push n 0] := by
  rw [pushes, List.range_succ, List.map_append]
  rfl

theorem pushes_history (n : Nat) :
    ReaderHistory (pushes n) fun r => if r < n then some 0 else none := by
  induction n with
  | zero => exact .nil
  | succ n ih =>
      have hstep := ih.snoc (.push n 0) (if_neg (lt_irrefl n))
      rw [pushes_succ]
      convert hstep using 1
      funext r
      rw [HeapOp.effect]
      by_cases hr : r = n
      · rw [hr, Function.update_self, if_pos (Nat.lt_succ_self n)]
      · rw [Function.update_of_ne hr]
        congr 1
        exact propext (by omega)

theorem countAll_pushes (n : Nat) : HeapOp.countAll (pushes n) = n := by
  induction n with
  | zero => rfl
  | succ n ih =>
      rw [pushes_succ, HeapOp.countAll, List.foldl_append]
      exact congrArg (· + 1) ih

theorem pushes_few (n : Nat) : FewWhenRemoved (pushes n) := by
  intro before r after heq
  have hmem : HeapOp.remove r ∈ pushes n := by rw [heq]; simp
  simp [pushes] at hmem

/-- The reader in slot 2^31 has another index than its slot, and cannot be removed by it. -/
theorem Valid.wraps {h : ReaderHeap} (hv : h.Valid) (hmany : 2 ^ 31 < h.size) :
    h.heapIndex (h.item (2 ^ 31)) = -2 ^ 31 ∧
      h.remove (h.heapIndex (h.item (2 ^ 31))) = .error (.asserts .heapIndex) := by
  have hindex : h.heapIndex (h.item (2 ^ 31)) = -2 ^ 31 := by
    rw [hv.slots.index _ hmany]
    rfl
  refine ⟨hindex, ?_⟩
  rw [hindex, remove, require_neg (by omega), error_bind]

/-- One reader too many: its index is no slot, and removing it by that index is asserted against. -/
theorem index_wraps : ∃ readers heap, ReaderHistory (pushes (2 ^ 31 + 1)) readers ∧
    HeapOp.applyAll {} (pushes (2 ^ 31 + 1)) = .ok heap ∧ ∃ i < heap.size,
      readers (heap.item i) ≠ none ∧ heap.heapIndex (heap.item i) ≠ i ∧
      heap.remove (heap.heapIndex (heap.item i)) = .error (.asserts .heapIndex) := by
  have hhistory := pushes_history (2 ^ 31 + 1)
  obtain ⟨heap, hrun, ht, hsize⟩ := tracks_of_history hhistory (pushes_few _)
  rw [countAll_pushes] at hsize
  have hmany : 2 ^ 31 < heap.size := by rw [hsize]; exact Nat.lt_succ_self _
  obtain ⟨hindex, hremove⟩ := ht.valid.wraps hmany
  refine ⟨_, heap, hhistory, hrun, 2 ^ 31, hmany, (ht.mem _).mp (item_mem hmany), ?_, hremove⟩
  rw [hindex]
  omega

end ReaderHeap

end SqlDb
