import SqlDb.Base.Bytes
import SqlDb.Base.Fault
import SqlDb.Base.Outcome
import Mathlib.Data.Multiset.AddSub
import Mathlib.Logic.Function.Basic

/-!
# The open readers, oldest first

A binary min-heap of the open readers by version. Readers are numbered, and the
two fields of a reader that the heap uses are functions of that number: `version`,
which it only reads, and `heapIndex`, the slot the reader is in, which it keeps. The slot
is kept as an `int`: from slot 2^31 on that is another number.

`less` compares the versions as plain numbers, as the source does.
-/

namespace SqlDb

open Outcome

structure ReaderHeap where
  items : Array Nat := #[]
  version : Nat → Nat := fun _ => 0
  heapIndex : Nat → Int := fun _ => -1

namespace ReaderHeap

def size (h : ReaderHeap) : Nat := h.items.size

/-- The reader in a slot. -/
def item (h : ReaderHeap) (i : Nat) : Nat := h.items.getD i 0

/-- The version of the reader in a slot. -/
def versionAt (h : ReaderHeap) (i : Nat) : Nat := h.version (h.item i)

def less (h : ReaderHeap) (i j : Nat) : Bool := h.versionAt i < h.versionAt j

def swap (h : ReaderHeap) (i j : Nat) : ReaderHeap :=
  let h := { h with items := h.items.swapIfInBounds i j }
  let h := { h with heapIndex := Function.update h.heapIndex (h.item i) (castInt i) }
  { h with heapIndex := Function.update h.heapIndex (h.item j) (castInt j) }

@[simp] theorem size_swap (h : ReaderHeap) (i j : Nat) : (h.swap i j).size = h.size :=
  Array.size_swapIfInBounds

@[simp] theorem version_swap (h : ReaderHeap) (i j : Nat) : (h.swap i j).version = h.version := rfl

theorem heapIndex_swap (h : ReaderHeap) (i j : Nat) : (h.swap i j).heapIndex =
    Function.update (Function.update h.heapIndex ((h.swap i j).item i) (castInt i))
      ((h.swap i j).item j) (castInt j) := by
  unfold swap item
  dsimp only

def parent (j : Nat) : Nat := (j - 1) / 2

theorem parent_lt {j : Nat} (h : 0 < j) : parent j < j := by unfold parent; omega

def up (h : ReaderHeap) (j : Nat) : ReaderHeap :=
  if 0 < j then
    if h.less j (parent j) then (h.swap (parent j) j).up (parent j) else h
  else
    h
termination_by j
decreasing_by exact parent_lt ‹_›

/-- The older of the two children. -/
def kid (h : ReaderHeap) (i : Nat) : Nat :=
  if 2 * i + 2 < h.size ∧ h.less (2 * i + 2) (2 * i + 1) then 2 * i + 2 else 2 * i + 1

theorem kid_gt (h : ReaderHeap) (i : Nat) : i < h.kid i := by unfold kid; split <;> omega

/-- The loop of `down`, and the slot it ends in. -/
def downLoop (h : ReaderHeap) (i : Nat) : ReaderHeap × Nat :=
  if 2 * i + 1 < h.size then
    if h.less (h.kid i) i then (h.swap i (h.kid i)).downLoop (h.kid i) else (h, i)
  else
    (h, i)
termination_by h.size - i
decreasing_by
  have := h.kid_gt i
  rw [size_swap]
  omega

/-- Whether the item moved, too. -/
def down (h : ReaderHeap) (i0 : Nat) : ReaderHeap × Bool :=
  let (h, i) := h.downLoop i0
  (h, i > i0)

/-- Sifts the item at `i` down, or up if it did not move. -/
def sift (h : ReaderHeap) (i : Nat) : ReaderHeap :=
  let (h, moved) := h.down i
  if moved then h else h.up i

def push (h : ReaderHeap) (reader : Nat) : ReaderHeap :=
  let h := { h with heapIndex := Function.update h.heapIndex reader (castInt h.size) }
  let h := { h with items := h.items.push reader }
  h.up (h.size - 1)

def remove (h : ReaderHeap) (index : Int) : Except Fault (Nat × ReaderHeap) := do
  require (index ≥ 0 ∧ index.toNat < h.size) (.asserts .heapIndex)
  let i := index.toNat
  let h := h.swap i (h.size - 1)
  let reader := h.item (h.size - 1)
  let h := { h with items := h.items.pop }
  let h := if i < h.size then h.sift i else h
  return (reader, { h with heapIndex := Function.update h.heapIndex reader (-1) })

/-- The oldest reader. -/
def min (h : ReaderHeap) : Option Nat := h.items[0]?

/-! ## What the heap keeps -/

/-- The readers in the heap. -/
def readers (h : ReaderHeap) : Multiset Nat := h.items.toList

/-- No reader twice, and each keeps its slot, as far as an `int` can. -/
structure Slots (h : ReaderHeap) : Prop where
  nodup : h.items.toList.Nodup
  index : ∀ i < h.size, h.heapIndex (h.item i) = castInt i

/-- No version is smaller than its parent slot's. -/
def Ordered (h : ReaderHeap) : Prop :=
  ∀ k, 0 < k → k < h.size → h.versionAt (parent k) ≤ h.versionAt k

/-- A heap: its readers in slots they keep, ordered by version. -/
structure Valid (h : ReaderHeap) : Prop where
  slots : h.Slots
  ordered : h.Ordered

theorem item_eq {h : ReaderHeap} {i : Nat} (hi : i < h.items.size) : h.item i = h.items[i] := by
  simp [item, Array.getD_eq_getD_getElem?, Array.getElem?_eq_getElem hi]

theorem item_swap {h : ReaderHeap} {i j k : Nat} (hi : i < h.size) (hj : j < h.size)
    (hk : k < h.size) :
    (h.swap i j).item k = if k = i then h.item j else if k = j then h.item i else h.item k := by
  unfold size at hi hj hk
  have hk' : k < (h.items.swapIfInBounds i j).size := by rw [Array.size_swapIfInBounds]; exact hk
  rw [item_eq hi, item_eq hj, item_eq hk]
  show (h.items.swapIfInBounds i j).getD k 0 = _
  rw [Array.getD_eq_getD_getElem?, Array.getElem?_eq_getElem hk', Option.getD_some,
    Array.getElem_swapIfInBounds]
  simp only [hi, hj, and_true]
  split <;> rfl

theorem versionAt_swap {h : ReaderHeap} {i j k : Nat} (hi : i < h.size) (hj : j < h.size)
    (hk : k < h.size) : (h.swap i j).versionAt k =
      if k = i then h.versionAt j else if k = j then h.versionAt i else h.versionAt k := by
  unfold versionAt
  rw [item_swap hi hj hk, version_swap]
  split
  · rfl
  · split <;> rfl

theorem readers_swap {h : ReaderHeap} {i j : Nat} (hi : i < h.size) (hj : j < h.size) :
    (h.swap i j).readers = h.readers := by
  refine Multiset.coe_eq_coe.mpr ?_
  show (h.items.swapIfInBounds i j).toList.Perm h.items.toList
  unfold size at hi hj
  rw [Array.swapIfInBounds_def, dif_pos hi, dif_pos hj]
  exact Array.perm_iff_toList_perm.mp (Array.swap_perm hi hj)

theorem item_inj {h : ReaderHeap} (hs : h.items.toList.Nodup) {i j : Nat} (hi : i < h.size)
    (hj : j < h.size) (he : h.item i = h.item j) : i = j := by
  unfold size at hi hj
  rw [item_eq hi, item_eq hj] at he
  exact hs.getElem_inj_iff.mp he

theorem Slots.swap {h : ReaderHeap} (hs : h.Slots) {i j : Nat} (hi : i < h.size) (hj : j < h.size) :
    (h.swap i j).Slots := by
  have hnd : (h.swap i j).items.toList.Nodup := by
    have := congrArg Multiset.Nodup (readers_swap hi hj)
    exact Multiset.coe_nodup.mp (this.mpr (Multiset.coe_nodup.mpr hs.nodup))
  refine ⟨hnd, fun k hk => ?_⟩
  have hsize := size_swap h i j
  have hinj := fun a (ha : a < (h.swap i j).size) => item_inj hnd hk ha
  rw [hsize] at hk hinj
  rw [heapIndex_swap]
  by_cases hkj : k = j
  · rw [hkj, Function.update_self]
  · rw [Function.update_of_ne (fun he => hkj (hinj j hj he))]
    by_cases hki : k = i
    · rw [hki, Function.update_self]
    · rw [Function.update_of_ne (fun he => hki (hinj i hi he)), item_swap hi hj hk, if_neg hki,
        if_neg hkj, hs.index k hk]

/-- What `up` starts from at slot `j`: the order holds but above `j`, and what is below `j` is
not older than what is above it. -/
structure UpInv (h : ReaderHeap) (j : Nat) : Prop where
  rest : ∀ k, 0 < k → k < h.size → k ≠ j → h.versionAt (parent k) ≤ h.versionAt k
  grand : 0 < j → ∀ k, 0 < k → k < h.size → parent k = j → h.versionAt (parent j) ≤ h.versionAt k

/-- What `down` starts from at slot `i`: the order holds but around `i`, and what is below `i` is
not older than what is above it. -/
structure DownInv (h : ReaderHeap) (i : Nat) : Prop where
  rest : ∀ k, 0 < k → k < h.size → k ≠ i → parent k ≠ i → h.versionAt (parent k) ≤ h.versionAt k
  grand : 0 < i → ∀ k, 0 < k → k < h.size → parent k = i → h.versionAt (parent i) ≤ h.versionAt k

/-- Nothing but the order of the readers changes. -/
structure Rearranges (h h' : ReaderHeap) : Prop where
  size : h'.size = h.size
  version : h'.version = h.version
  readers : h'.readers = h.readers
  slots : h.Slots → h'.Slots
  /-- No other reader is touched. -/
  outside : ∀ r, r ∉ h.readers → h'.heapIndex r = h.heapIndex r

theorem Rearranges.refl (h : ReaderHeap) : Rearranges h h := ⟨rfl, rfl, rfl, id, fun _ _ => rfl⟩

theorem Rearranges.trans {h h1 h2 : ReaderHeap} (a : Rearranges h h1) (b : Rearranges h1 h2) :
    Rearranges h h2 where
  size := b.size.trans a.size
  version := b.version.trans a.version
  readers := b.readers.trans a.readers
  slots := b.slots ∘ a.slots
  outside r hr := (b.outside r (by rwa [a.readers])).trans (a.outside r hr)

theorem item_mem {h : ReaderHeap} {i : Nat} (hi : i < h.size) : h.item i ∈ h.readers := by
  rw [item_eq hi]
  exact Multiset.mem_coe.mpr (Array.getElem_mem_toList hi)

theorem Rearranges.swap {h : ReaderHeap} {i j : Nat} (hi : i < h.size) (hj : j < h.size) :
    Rearranges h (h.swap i j) where
  size := size_swap h i j
  version := rfl
  readers := readers_swap hi hj
  slots hs := hs.swap hi hj
  outside r hr := by
    have hne : ∀ k, k < h.size → r ≠ (h.swap i j).item k := by
      intro k hk he
      have hmem := item_mem (h := h.swap i j) (by rwa [size_swap])
      rw [readers_swap hi hj, ← he] at hmem
      exact hr hmem
    rw [heapIndex_swap, Function.update_of_ne (hne j hj), Function.update_of_ne (hne i hi)]

theorem UpInv.step {h : ReaderHeap} {j : Nat} (hu : h.UpInv j) (hj : j < h.size) (hpos : 0 < j)
    (hlt : h.versionAt j < h.versionAt (parent j)) : (h.swap (parent j) j).UpInv (parent j) := by
  have hp := parent_lt hpos
  have hps : parent j < h.size := hp.trans hj
  refine ⟨fun k hk hks hkp => ?_, fun hpp k hk hks hkp => ?_⟩
  · rw [size_swap] at hks
    have hpk := parent_lt hk
    rw [versionAt_swap hps hj (hpk.trans hks), versionAt_swap hps hj hks, if_neg hkp]
    by_cases hkj : k = j
    · rw [if_pos hkj, hkj, if_pos rfl]
      exact le_of_lt hlt
    · rw [if_neg hkj]
      -- the sibling, a child of the moved reader, or neither
      by_cases h1 : parent k = parent j
      · rw [if_pos h1]
        have := hu.rest k hk hks hkj
        rw [h1] at this
        omega
      · rw [if_neg h1]
        by_cases h2 : parent k = j
        · rw [if_pos h2]
          exact hu.grand hpos k hk hks h2
        · rw [if_neg h2]
          exact hu.rest k hk hks hkj
  · rw [size_swap] at hks
    have hpp' := parent_lt hpp
    have h1 := hu.rest (parent j) hpp hps (by omega)
    have hpk := parent_lt hk
    rw [versionAt_swap hps hj (hpp'.trans hps), if_neg (by omega), if_neg (by omega),
      versionAt_swap hps hj hks, if_neg (by omega)]
    by_cases hkj : k = j
    · rw [if_pos hkj]; exact h1
    · rw [if_neg hkj]
      have := hu.rest k hk hks hkj
      rw [hkp] at this
      exact h1.trans this

theorem Rearranges.up (h : ReaderHeap) (j : Nat) (hj : j < h.size) : Rearranges h (h.up j) := by
  fun_induction ReaderHeap.up h j with
  | case1 h j hpos hlt ih =>
      exact (Rearranges.swap ((parent_lt hpos).trans hj) hj).trans
        (ih (by rw [size_swap]; exact (parent_lt hpos).trans hj))
  | case2 h j hpos hlt => exact .refl h
  | case3 h j hpos => exact .refl h

theorem up_ordered (h : ReaderHeap) (j : Nat) (hu : h.UpInv j) (hj : j < h.size) :
    (h.up j).Ordered := by
  fun_induction up h j with
  | case1 h j hpos hlt ih =>
      have hps := (parent_lt hpos).trans hj
      exact ih (hu.step hj hpos (by simpa [less] using hlt)) (by rwa [size_swap])
  | case2 h j hpos hlt =>
      intro k hk hks
      by_cases hkj : k = j
      · rw [hkj]; simpa [less] using hlt
      · exact hu.rest k hk hks hkj
  | case3 h j hpos =>
      intro k hk hks
      exact hu.rest k hk hks (by omega)

theorem kid_spec (h : ReaderHeap) {i : Nat} (hi : 2 * i + 1 < h.size) :
    h.kid i < h.size ∧ parent (h.kid i) = i ∧
      ∀ k, 0 < k → k < h.size → parent k = i → h.versionAt (h.kid i) ≤ h.versionAt k := by
  unfold kid parent less
  split
  · rename_i hc
    have := of_decide_eq_true hc.2
    refine ⟨hc.1, by omega, fun k hk hks hp => ?_⟩
    rcases (by omega : k = 2 * i + 1 ∨ k = 2 * i + 2) with h1 | h1 <;> rw [h1]
    omega
  · rename_i hc
    refine ⟨hi, by omega, fun k hk hks hp => ?_⟩
    rcases (by omega : k = 2 * i + 1 ∨ k = 2 * i + 2) with h1 | h1 <;> rw [h1]
    rw [not_and, decide_eq_true_eq, not_lt] at hc
    exact hc (by omega)

/-- After a swap with the older child only the edges below the child may be out of order. -/
theorem DownInv.step {h : ReaderHeap} {i : Nat} (hd : h.DownInv i) (hi : 2 * i + 1 < h.size) :
    (h.swap i (h.kid i)).DownInv (h.kid i) := by
  obtain ⟨hks, hkp, hmin⟩ := kid_spec h hi
  have hgt := h.kid_gt i
  generalize h.kid i = c at *
  have his : i < h.size := by omega
  refine ⟨fun k hk hk' hkc hne => ?_, fun hc k hk hk' hpk => ?_⟩
  · rw [size_swap] at hk'
    have hpk := parent_lt hk
    rw [versionAt_swap his hks (hpk.trans hk'), versionAt_swap his hks hk', if_neg hkc]
    by_cases h1 : k = i
    · -- the slot `i` itself, under its parent
      rw [if_pos h1, if_neg (by omega), if_neg hne, h1]
      exact hd.grand (by omega) c (by omega) hks hkp
    · rw [if_neg h1]
      by_cases h3 : parent k = i
      · rw [if_pos h3]
        exact hmin k hk hk' h3
      · rw [if_neg h3, if_neg hne]
        exact hd.rest k hk hk' h1 h3
  · rw [size_swap] at hk'
    have := parent_lt hk
    have hrest := hd.rest k hk hk' (by omega) (by omega)
    rw [hpk] at hrest
    rw [versionAt_swap his hks (by omega), if_pos hkp, versionAt_swap his hks hk',
      if_neg (by omega), if_neg (by omega)]
    exact hrest

theorem Rearranges.downLoop (h : ReaderHeap) (i : Nat) (hi : i < h.size) :
    Rearranges h (h.downLoop i).1 ∧ (h.downLoop i).2 < h.size := by
  fun_induction ReaderHeap.downLoop h i with
  | case1 h i hsize hless ih =>
      have hk := (kid_spec h hsize).1
      obtain ⟨h1, h2⟩ := ih (by rwa [size_swap])
      rw [size_swap] at h2
      exact ⟨(Rearranges.swap hi hk).trans h1, h2⟩
  | case2 h i hsize hlt => exact ⟨.refl h, hi⟩
  | case3 h i hsize => exact ⟨.refl h, hi⟩

theorem downLoop_ordered (h : ReaderHeap) (i : Nat) (hd : h.DownInv i) (hi : i < h.size) :
    (h.downLoop i).2 = i ∧ (h.downLoop i).1 = h ∧
        (∀ k, 0 < k → k < h.size → parent k = i → h.versionAt i ≤ h.versionAt k) ∨
      i < (h.downLoop i).2 ∧ (h.downLoop i).1.Ordered := by
  fun_induction downLoop h i with
  | case1 h i hsize hless ih =>
      have hlt : h.versionAt (h.kid i) < h.versionAt i := by simpa [less] using hless
      have hk := kid_spec h hsize
      have hgt := h.kid_gt i
      have hd' := hd.step hsize
      right
      rcases ih hd' (by rw [size_swap]; exact hk.1) with ⟨h2, h3, h4⟩ | ⟨h2, h3⟩
      · refine ⟨by omega, ?_⟩
        rw [h3]
        intro k hk0 hks
        by_cases hpk : parent k = h.kid i
        · rw [hpk]; exact h4 k hk0 hks hpk
        · by_cases hkc : k = h.kid i
          · -- the item that went down, under the child that came up
            rw [hkc, hk.2.1, versionAt_swap hi hk.1 hi, if_pos rfl, versionAt_swap hi hk.1 hk.1,
              if_neg (by omega), if_pos rfl]
            exact le_of_lt hlt
          · exact hd'.rest k hk0 hks hkc hpk
      · exact ⟨by omega, h3⟩
  | case2 h i hsize hlt =>
      refine Or.inl ⟨rfl, rfl, fun k hk hks hp => ?_⟩
      have := (kid_spec h hsize).2.2 k hk hks hp
      have hle : h.versionAt i ≤ h.versionAt (h.kid i) := by simpa [less] using hlt
      exact hle.trans this
  | case3 h i hsize =>
      refine Or.inl ⟨rfl, rfl, fun k hk hks hp => ?_⟩
      unfold parent at hp
      omega

theorem Rearranges.sift {h : ReaderHeap} {i : Nat} (hi : i < h.size) : Rearranges h (h.sift i) := by
  have h1 := (Rearranges.downLoop h i hi).1
  unfold ReaderHeap.sift down
  dsimp only
  split
  · exact h1
  · exact h1.trans (Rearranges.up _ i (h1.size.symm ▸ hi))

/-- **A sift restores the order** around one slot. -/
theorem sift_ordered {h : ReaderHeap} {i : Nat} (hd : h.DownInv i) (hi : i < h.size) :
    (h.sift i).Ordered := by
  unfold sift down
  dsimp only
  rcases downLoop_ordered h i hd hi with ⟨h2, h3, h4⟩ | ⟨h2, h3⟩
  · rw [if_neg (by simp [h2]), h3]
    refine up_ordered h i ⟨fun k hk hks hki => ?_, hd.grand⟩ hi
    by_cases hp : parent k = i
    · rw [hp]; exact h4 k hk hks hp
    · exact hd.rest k hk hks hki hp
  · rw [if_pos (by simpa using h2)]
    exact h3

/-! ## The operations -/

theorem min_eq_none {h : ReaderHeap} : h.min = none ↔ h.readers = 0 := by
  unfold min readers
  rw [Array.getElem?_eq_none_iff, Multiset.coe_eq_zero, Array.toList_eq_nil_iff,
    ← Array.size_eq_zero_iff]
  omega

/-- **The oldest reader comes first.** -/
theorem Valid.min {h : ReaderHeap} (hv : h.Valid) {r : Nat} (hr : h.min = some r) :
    r ∈ h.readers ∧ ∀ q ∈ h.readers, h.version r ≤ h.version q := by
  obtain ⟨hpos, hr⟩ := Array.getElem?_eq_some_iff.mp hr
  have hle : ∀ k, k < h.size → h.versionAt 0 ≤ h.versionAt k := by
    intro k
    induction k using Nat.strong_induction_on with
    | _ k ih =>
        intro hk
        rcases Nat.eq_zero_or_pos k with h0 | h0
        · rw [h0]
        · exact (ih _ (parent_lt h0) ((parent_lt h0).trans hk)).trans (hv.ordered k h0 hk)
  have hitem : ∀ k, (hk : k < h.items.size) → h.versionAt k = h.version h.items[k] := fun k hk => by
    rw [versionAt, item_eq hk]
  refine ⟨?_, fun q hq => ?_⟩
  · rw [← hr]
    exact Multiset.mem_coe.mpr (Array.getElem_mem_toList hpos)
  · obtain ⟨k, hk, hq⟩ := List.mem_iff_getElem.mp (Multiset.mem_coe.mp hq)
    have := hle k (by simpa [size] using hk)
    rw [hitem 0 hpos, hitem k (by simpa using hk), hr] at this
    rw [← hq]
    simpa using this

/-- The version of a reader outside the heap may change. -/
theorem Valid.setVersion {h : ReaderHeap} (hv : h.Valid) {r : Nat} (hr : r ∉ h.readers) (v : Nat) :
    Valid { h with version := Function.update h.version r v } := by
  have hat : ∀ k, k < h.size →
      versionAt { h with version := Function.update h.version r v } k = h.versionAt k := by
    intro k hk
    refine Function.update_of_ne (fun he => hr ?_) _ _
    rw [← he]
    exact item_mem hk
  refine ⟨⟨hv.slots.nodup, hv.slots.index⟩, fun k hk hks => ?_⟩
  rw [hat k hks, hat _ ((parent_lt hk).trans hks)]
  exact hv.ordered k hk hks

theorem card_readers (h : ReaderHeap) : h.readers.card = h.size := by
  unfold readers size
  rw [Multiset.coe_card, Array.length_toList]

/-- **A pushed reader joins the heap.** -/
theorem push_spec {h : ReaderHeap} (hv : h.Valid) {r : Nat} (hr : r ∉ h.readers) :
    (h.push r).Valid ∧ (h.push r).readers = r ::ₘ h.readers ∧ (h.push r).version = h.version := by
  have hitem : ∀ k, k < h.size → (h.items.push r).getD k 0 = h.item k := by
    intro k hk
    rw [item, Array.getD_eq_getD_getElem?, Array.getD_eq_getD_getElem?,
      Array.getElem?_push_lt hk, Array.getElem?_eq_getElem hk]
  unfold push
  dsimp only
  generalize hh : (⟨h.items.push r, h.version, Function.update h.heapIndex r (castInt h.size)⟩ :
    ReaderHeap) = g
  have hsize : g.size = h.size + 1 := by rw [← hh]; exact Array.size_push _
  have hver : g.version = h.version := by rw [← hh]
  have hat : ∀ k, k < h.size → g.item k = h.item k := by rw [← hh]; exact hitem
  have hreaders : g.readers = r ::ₘ h.readers := by
    rw [← hh]
    show ((h.items.push r).toList : Multiset Nat) = _
    rw [Array.toList_push]
    exact Multiset.coe_eq_coe.mpr (List.perm_append_singleton r h.items.toList)
  have hslots : g.Slots := by
    refine ⟨?_, fun k hk => ?_⟩
    · rw [← Multiset.coe_nodup]
      show g.readers.Nodup
      rw [hreaders]
      exact Multiset.nodup_cons.mpr ⟨hr, Multiset.coe_nodup.mpr hv.slots.nodup⟩
    · have hidx : g.heapIndex = Function.update h.heapIndex r (castInt h.size) := by rw [← hh]
      rw [hidx]
      by_cases hlt : k < h.size
      · have hne : h.item k ≠ r := fun he => hr (he ▸ item_mem hlt)
        rw [hat k hlt, Function.update_of_ne hne, hv.slots.index k hlt]
      · have hk' : k = h.size := by omega
        have : g.item k = r := by
          rw [← hh, hk']
          show (h.items.push r).getD h.items.size 0 = r
          rw [Array.getD_eq_getD_getElem?, Array.getElem?_push_size, Option.getD_some]
        rw [this, Function.update_self, hk']
  -- the order holds but for the last slot, where the new reader is
  have hup : g.UpInv (g.size - 1) := by
    refine ⟨fun k hk hks hne => ?_, fun _ k hk hks hp => ?_⟩
    · have hlt : k < h.size := by omega
      rw [versionAt, versionAt, hver, hat k hlt, hat _ ((parent_lt hk).trans hlt)]
      exact hv.ordered k hk hlt
    · have := parent_lt hk
      omega
  have hre := Rearranges.up g (g.size - 1) (by omega)
  have hord := up_ordered g (g.size - 1) hup (by omega)
  exact ⟨⟨hre.slots hslots, hord⟩, hre.readers.trans hreaders, hre.version.trans hver⟩

/-- What a removal leaves: a heap without one reader, which has no slot then. -/
structure Removes (h : ReaderHeap) (r : Nat) (h' : ReaderHeap) : Prop where
  valid : h'.Valid
  readers : h'.readers = h.readers.erase r
  version : h'.version = h.version
  index : h'.heapIndex r = -1

/-- **The reader in a slot is removed** by the number of the slot. -/
theorem remove_slot {h : ReaderHeap} (hv : h.Valid) {i : Nat} (hi' : i < h.size) :
    ∃ h', h.remove i = .ok (h.item i, h') ∧ Removes h (h.item i) h' := by
  generalize hitem : h.item i = r
  have hlast : h.size - 1 < h.size := by omega
  unfold remove
  rw [require_pos ⟨by omega, by simpa using hi'⟩, ok_bind, Int.toNat_natCast]
  dsimp only
  have hsw := Rearranges.swap hi' hlast
  have hswap := fun k => item_swap (k := k) hi' hlast
  have hord : ∀ k, k < h.size → (h.swap i (h.size - 1)).versionAt k = _ := fun k hk =>
    versionAt_swap hi' hlast hk
  generalize h.swap i (h.size - 1) = g at *
  have hgsize : g.items.size = h.size := hsw.size
  have hr' : g.item (g.size - 1) = r := by
    rw [hsw.size, hswap _ hlast]
    split
    · rename_i he; rw [he, hitem]
    · rw [if_pos rfl, hitem]
  rw [hr']
  generalize hp : ({ g with items := g.items.pop } : ReaderHeap) = p
  have hpsize : p.size = h.size - 1 := by
    rw [← hp]; show g.items.pop.size = _; rw [Array.size_pop, hgsize]
  have hpat : ∀ k, k < p.size → p.item k = g.item k := by
    intro k hk
    rw [← hp]
    show g.items.pop.getD k 0 = g.items.getD k 0
    rw [Array.getD_eq_getD_getElem?, Array.getD_eq_getD_getElem?, Array.getElem?_pop, if_pos]
    omega
  have hpver : p.version = h.version := by rw [← hp]; exact hsw.version
  have hreaders : g.readers = r ::ₘ p.readers := by
    have hne : g.items.toList ≠ [] := by
      rw [Ne, Array.toList_eq_nil_iff, ← Array.size_eq_zero_iff]; omega
    have hl := List.dropLast_append_getLast hne
    have hlast' : g.items.toList.getLast hne = r := by
      rw [List.getLast_eq_getElem, ← hr', item_eq (show g.size - 1 < g.items.size by
        unfold size at *; omega)]
      simp [size]
    rw [← hp]
    show (g.items.toList : Multiset Nat) = r ::ₘ (g.items.pop.toList : Multiset Nat)
    rw [hlast'] at hl
    rw [Array.toList_pop]
    refine Multiset.coe_eq_coe.mpr ?_
    conv_lhs => rw [← hl]
    exact List.perm_append_singleton r _
  have hgnd : g.readers.Nodup := Multiset.coe_nodup.mpr (hsw.slots hv.slots).nodup
  rw [hreaders, Multiset.nodup_cons] at hgnd
  have hslots : p.Slots := by
    refine ⟨Multiset.coe_nodup.mp hgnd.2, fun k hk => ?_⟩
    have := (hsw.slots hv.slots).index k (by rw [hsw.size]; omega)
    rw [hpat k hk, ← hp]
    exact this
  have hpv : ∀ k, k < p.size → p.versionAt k = if k = i then h.versionAt (h.size - 1)
      else h.versionAt k := by
    intro k hk
    have := hord k (by omega)
    rw [if_neg (show ¬ k = h.size - 1 by omega)] at this
    rw [← this, versionAt, versionAt, hpat k hk, hpver, hsw.version]
  have hperase : p.readers = h.readers.erase r := by
    rw [← hsw.readers, hreaders, Multiset.erase_cons_head]
  -- whichever way the hole is filled, the rest is a heap
  have hfix : ∀ q, q = (if i < p.size then p.sift i else p) → Rearranges p q ∧ q.Ordered := by
    intro q hq
    by_cases hip : i < p.size
    · rw [if_pos hip] at hq
      rw [hq]
      refine ⟨.sift hip, sift_ordered ⟨fun k hk hks hki hpk => ?_, fun hi0 k hk hks hpk => ?_⟩ hip⟩
      · have := parent_lt hk
        rw [hpv k hks, hpv _ (by omega), if_neg hki, if_neg hpk]
        exact hv.ordered k hk (by omega)
      · have h1 := parent_lt hk
        have h2 := parent_lt hi0
        rw [hpv k hks, hpv _ (by omega), if_neg (by omega), if_neg (by omega)]
        have h3 := hv.ordered k hk (by omega)
        rw [hpk] at h3
        exact (hv.ordered i hi0 hi').trans h3
    · rw [if_neg hip] at hq
      rw [hq]
      refine ⟨.refl p, fun k hk hks => ?_⟩
      have := parent_lt hk
      rw [hpv k hks, hpv _ (by omega), if_neg (by omega), if_neg (by omega)]
      exact hv.ordered k hk (by omega)
  generalize hq : (if i < p.size then p.sift i else p) = q
  obtain ⟨hre, hqord⟩ := hfix q hq.symm
  have hqs := hre.slots hslots
  refine ⟨_, rfl, ⟨⟨hqs.nodup, fun k hk => ?_⟩, hqord⟩, hre.readers.trans hperase,
    hre.version.trans hpver, Function.update_self _ _ _⟩
  have hmem : q.item k ∈ q.readers := item_mem (h := q) hk
  refine (Function.update_of_ne (fun he => ?_) _ _).trans (hqs.index k hk)
  have he' : q.item k = r := he
  rw [he', hre.readers] at hmem
  exact hgnd.1 hmem

/-- Whatever index is given, the reader that comes back was in the heap, and is not any more. -/
theorem remove_inv {h h' : ReaderHeap} (hv : h.Valid) {index : Int} {r : Nat}
    (hremove : h.remove index = .ok (r, h')) : r ∈ h.readers ∧ Removes h r h' := by
  obtain ⟨_, hidx, _⟩ := bind_eq_ok.mp hremove
  obtain ⟨hpos, hi⟩ := require_eq_ok.mp hidx
  obtain ⟨h'', hremove', hspec⟩ := remove_slot hv hi
  rw [Int.toNat_of_nonneg hpos, hremove] at hremove'
  obtain ⟨rfl, rfl⟩ := Prod.mk.inj (Except.ok.inj hremove')
  exact ⟨item_mem hi, hspec⟩

/-- **A reader in the heap is removed by its index**, as long as an `int` can number the slots. -/
theorem remove_spec {h : ReaderHeap} (hv : h.Valid) (hfew : h.size ≤ 2 ^ 31) {r : Nat}
    (hr : r ∈ h.readers) : ∃ h', h.remove (h.heapIndex r) = .ok (r, h') ∧ Removes h r h' := by
  obtain ⟨i, hi, hri⟩ := List.mem_iff_getElem.mp (Multiset.mem_coe.mp hr)
  have hi' : i < h.size := by simpa [size] using hi
  have hitem : h.item i = r := by rw [item_eq hi', ← hri]; rfl
  obtain ⟨h', hremove, hspec⟩ := remove_slot hv hi'
  rw [hitem] at hremove hspec
  refine ⟨h', ?_, hspec⟩
  rw [← hremove, ← hitem, hv.slots.index i hi', castInt_of_lt (by omega)]

end ReaderHeap

end SqlDb
