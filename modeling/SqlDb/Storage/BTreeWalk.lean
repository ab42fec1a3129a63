import SqlDb.Storage.BTreeMap
import SqlDb.Storage.Cursor

/-!
# Iterating over a tree

What a caller of `seek`, `next` and `prev` sees: the bindings in key order, a position
before them and one after, and a start at the closest binding that satisfies the
relation.
-/

namespace SqlDb

open Outcome OrdMap

/-! ## The closest binding -/

/-- The first binding that satisfies the relation in the direction of its scan. -/
def closest (m : Contents) (key : Bytes) (cmp : CMP) : Option (Bytes × Bytes) :=
  if cmp.positive then (m.filter fun r => cmpOk r.1 cmp key).head?
  else (m.filter fun r => cmpOk r.1 cmp key).getLast?

/-- What is below a point comes first. -/
theorem sorted_split {m : Contents} (hm : Sorted m) {P : Bytes × Bytes → Bool}
    (hP : ∀ a b, a.1 < b.1 → P b = true → P a = true) :
    m = m.filter P ++ m.filter fun r => !P r := by
  induction m with
  | nil => rfl
  | cons r m ih =>
      obtain ⟨hlt, hm'⟩ := sorted_cons.mp hm
      by_cases hr : P r = true
      · rw [List.filter_cons_of_pos hr, List.filter_cons_of_neg (by simp [hr]), List.cons_append,
          ← ih hm']
      · have hnone : m.filter P = [] := List.filter_eq_nil_iff.mpr fun x hx hpx =>
          hr (hP r x (hlt x hx) hpx)
        have hall : (m.filter fun r => !P r) = m := List.filter_eq_self.mpr fun x hx => by
          have : P x = false := Bool.eq_false_iff.mpr fun hpx => hr (hP r x (hlt x hx) hpx)
          rw [this]
          rfl
        rw [List.filter_cons_of_neg hr, List.filter_cons_of_pos (by simp [hr]), hnone, hall]
        rfl

theorem bindingAt_split {m a b : Contents} (h : m = a ++ b) :
    bindingAt m (a.length + 1) = b.head? ∧ bindingAt m a.length = a.getLast? := by
  rw [h]
  constructor
  · rw [bindingAt, if_neg (Nat.succ_ne_zero _), Nat.add_sub_cancel,
      List.getElem?_append_right (le_refl _), Nat.sub_self, List.head?_eq_getElem?]
  · unfold bindingAt
    rcases List.eq_nil_or_concat' a with ha | ⟨a', x, ha⟩
    · rw [ha]
      rfl
    · rw [ha, if_neg (by simp), List.getLast?_concat, List.getElem?_append_left (by simp)]
      simp

/-- **`seek` lands on the closest binding.** -/
theorem bindingAt_seekPos {m : Contents} (hm : Sorted m) (key : Bytes) (cmp : CMP) :
    bindingAt m (seekPos m key cmp) = closest m key cmp := by
  have hlt := bindingAt_split (sorted_split hm (P := fun r => decide (r.1 < key)) fun a b hab hb => by
    simp only [decide_eq_true_eq] at hb ⊢
    exact hab.trans hb)
  have hle := bindingAt_split (sorted_split hm (P := fun r => decide (r.1 ≤ key)) fun a b hab hb => by
    simp only [decide_eq_true_eq] at hb ⊢
    exact hab.le.trans hb)
  rw [← List.countP_eq_length_filter] at hlt hle
  have hnlt : ∀ r : Bytes × Bytes, (!decide (r.1 < key)) = decide (key ≤ r.1) := fun r => by
    rw [← decide_not, decide_eq_decide, not_lt]
  have hnle : ∀ r : Bytes × Bytes, (!decide (r.1 ≤ key)) = decide (key < r.1) := fun r => by
    rw [← decide_not, decide_eq_decide, not_le]
  simp only [hnlt] at hlt
  simp only [hnle] at hle
  -- the order's own decision procedure and the list's agree
  have hcount : countLt m key = List.countP (fun r => decide (r.1 < key)) m :=
    List.countP_congr fun r _ => by simp
  cases cmp with
  | ge =>
      rw [seekPos, hcount, hlt.1]
      exact congrArg List.head? (List.filter_congr fun r _ => by simp [cmpOk])
  | gt => exact hle.1
  | lt =>
      rw [seekPos, hcount, hlt.2]
      exact congrArg List.getLast? (List.filter_congr fun r _ => by simp [cmpOk])
  | le => exact hle.2

theorem seekPos_le (m : Contents) (key : Bytes) (cmp : CMP) : seekPos m key cmp ≤ m.length + 1 := by
  have hlt : countLt m key ≤ m.length := List.countP_le_length
  have hle : countLe m key ≤ m.length := List.countP_le_length
  cases cmp with
  | ge => exact Nat.succ_le_succ hlt
  | gt => exact Nat.succ_le_succ hle
  | lt => exact hlt.trans (Nat.le_succ _)
  | le => exact hle.trans (Nat.le_succ _)

theorem bindingAt_eq_none {m : Contents} {i : Nat} (hi : i ≤ m.length + 1) :
    bindingAt m i = none ↔ i = 0 ∨ i = m.length + 1 := by
  unfold bindingAt
  by_cases h0 : i = 0
  · simp [h0]
  · rw [if_neg h0, List.getElem?_eq_none_iff]
    omega

/-- Without such a binding it lands at the end that its scan runs to. -/
theorem seekPos_of_none {m : Contents} (hm : Sorted m) {key : Bytes} {cmp : CMP}
    (h : closest m key cmp = none) : seekPos m key cmp = if cmp.positive then m.length + 1 else 0 := by
  rw [← bindingAt_seekPos hm] at h
  have hpos := (bindingAt_eq_none (seekPos_le m key cmp)).mp h
  have hlt : countLt m key ≤ m.length := List.countP_le_length
  have hle : countLe m key ≤ m.length := List.countP_le_length
  cases cmp <;> simp only [seekPos] at hpos ⊢ <;> simp [CMP.positive] <;> omega

/-! ## Steps -/

theorem foldl_next (n i k : Nat) (hi : i ≤ n + 1) :
    (List.replicate k Move.next).foldl (Move.apply n) i = min (i + k) (n + 1) := by
  induction k generalizing i with
  | zero => simp [hi]
  | succ k ih =>
      rw [List.replicate_succ, List.foldl_cons, ih _ (by simp [Move.apply])]
      simp only [Move.apply]
      omega

theorem foldl_prev (n i k : Nat) : (List.replicate k Move.prev).foldl (Move.apply n) i = i - k := by
  induction k generalizing i with
  | zero => rfl
  | succ k ih =>
      rw [List.replicate_succ, List.foldl_cons, ih]
      simp only [Move.apply]
      omega

theorem foldl_move_le {n i : Nat} (hi : i ≤ n + 1) (moves : List Move) :
    moves.foldl (Move.apply n) i ≤ n + 1 := by
  induction moves generalizing i with
  | nil => exact hi
  | cons move moves ih =>
      refine ih ?_
      cases move with
      | next => exact min_le_right _ _
      | prev => exact (Nat.sub_le _ _).trans hi

/-- Keys are not empty, so every one of them is above the empty key. -/
theorem seekPos_first {m : Contents} (hne : ∀ r ∈ m, r.1 ≠ []) : seekPos m [] .gt = 1 := by
  have h0 : countLe m [] = 0 := List.countP_eq_zero.mpr fun r hr hle =>
    hne r hr (le_antisymm (of_decide_eq_true hle) (Bytes.nil_le _))
  rw [seekPos, h0]

/-! ## Over runs -/

namespace BTree

variable {σ : Type} [PageManager σ] {I : σ → Multiset Nat → Prop} {E : Fault → Prop}

/-- **Seeking and iterating agree with the sorted keys.** After any sequence of calls from the empty
tree there are bindings `m`, in key order and those of the map, such that `seek` lands at the
closest one, or at an end if there is none, and every step from there moves one position. So a walk
forward lists them, a walk back lists them reversed, and a step on and back returns. -/
theorem seek_and_walk (hI : LawfulPages I E) {s : σ} (hs : I s 0) (calls : List Call) {t : BTree σ}
    (ht : run (⟨0, s⟩ : BTree σ) calls = .ok t) :
    ∃ m : Contents, Sorted m ∧ lookup m = RefMap.run (fun _ => none) calls ∧
      (∀ key cmp, ∃ p, p ≤ m.length + 1 ∧ bindingAt m p = closest m key cmp ∧
        (closest m key cmp = none → p = if cmp.positive then m.length + 1 else 0) ∧
        ∀ moves, t.walk key cmp moves = .ok (bindingAt m (moves.foldl (Move.apply m.length) p))) ∧
      (∀ i, t.walk [] .gt (List.replicate i .next) = .ok m[i]?) ∧
      (∀ i, t.walk [] .gt (List.replicate m.length .next ++ List.replicate (i + 1) .prev) =
        .ok m.reverse[i]?) ∧
      ∀ key cmp moves r, t.walk key cmp moves = .ok (some r) →
        t.walk key cmp (moves ++ [.next, .prev]) = .ok (some r) := by
  obtain ⟨m, ps, hd, hm⟩ := (run_spec hI (denotes_empty hs) calls).of_ok ht
  have hreads := readsAs hd.tree (fun p hp => (hI.ptr hd.owns p hp).1) (hI.count hd.owns)
  have hsorted := hd.tree.sorted
  have hfirst := seekPos_first hd.tree.key_ne_nil
  refine ⟨m, hsorted, hm, fun key cmp => ⟨seekPos m key cmp, seekPos_le m key cmp,
    bindingAt_seekPos hsorted key cmp, seekPos_of_none hsorted, hreads.walk key cmp⟩,
    fun i => ?_, fun i => ?_, fun key cmp moves r hr => ?_⟩
  · rw [hreads.walk, walkOf, hfirst, foldl_next _ _ _ (by omega)]
    unfold bindingAt
    rw [if_neg (by omega)]
    by_cases hi : i ≤ m.length
    · rw [show min (1 + i) (m.length + 1) - 1 = i by omega]
    · rw [List.getElem?_eq_none (by omega), List.getElem?_eq_none (by omega)]
  · rw [hreads.walk, walkOf, hfirst, List.foldl_append, foldl_next _ _ _ (by omega), foldl_prev]
    unfold bindingAt
    by_cases hi : i < m.length
    · rw [if_neg (by omega), List.getElem?_reverse hi]
      congr 2
      omega
    · rw [if_pos (by omega), List.getElem?_eq_none (by rw [List.length_reverse]; omega)]
  · rw [hreads.walk, Except.ok.injEq] at hr ⊢
    rw [← hr, walkOf, walkOf, List.foldl_append]
    have hle := foldl_move_le (seekPos_le m key cmp) moves
    rw [walkOf] at hr
    -- a walk that shows a binding is at neither end, so one step on and back returns
    generalize moves.foldl (Move.apply m.length) (seekPos m key cmp) = i at hle hr
    have hi : ¬ (i = 0 ∨ i = m.length + 1) := fun h => by
      rw [(bindingAt_eq_none hle).mpr h] at hr
      cases hr
    simp only [List.foldl_cons, List.foldl_nil, Move.apply]
    congr 1
    omega

end BTree

/-- Over two leaves in memory: forward to the end, and back. -/
theorem BTree.seek_and_walk_in_memory : ∃ (t : BTree InMemoryPageManager) (m : Contents),
    BTree.run ⟨0, {}⟩ (inserts sixBindings) = .ok t ∧ t.DrawnAs twoLeaves ∧
      lookup m = RefMap.run (fun _ => none) (inserts sixBindings) ∧
      (∀ i, t.walk [] .gt (List.replicate i .next) = .ok m[i]?) ∧
      (∀ i, t.walk [] .gt (List.replicate m.length .next ++ List.replicate (i + 1) .prev) =
        .ok m.reverse[i]?) ∧
      ∀ key cmp moves r, t.walk key cmp moves = .ok (some r) →
        t.walk key cmp (moves ++ [.next, .prev]) = .ok (some r) := by
  obtain ⟨t, hrun, ht⟩ := run_six
  obtain ⟨m, _, hm, _, hwalk⟩ := BTree.seek_and_walk InMemoryPageManager.lawful
    InMemoryPageManager.owns_empty (inserts sixBindings) hrun
  exact ⟨t, m, hrun, ht.drawn, hm, hwalk⟩

end SqlDb
