import Mathlib.Data.List.Lex
import Mathlib.Order.Compare
import Mathlib.Order.Lattice

/-!
# Strings that part

Two strings part if they differ at a position that both have. Which of them is the
smaller is settled there, whatever follows, and neither is a prefix of the other. An
encoding whose strings always part can be put in front of anything, in any number, and
the order of the whole is the order of the first that differ.
-/

namespace Lex

variable {α : Type} [LinearOrder α]

/-- `a` and `b` part at a position where `a` is the smaller. -/
def PartsBelow (a b : List α) : Prop :=
  ∃ p x y s t, a = p ++ x :: s ∧ b = p ++ y :: t ∧ x < y

theorem partsBelow_cons {x y : α} (s t : List α) (h : x < y) : PartsBelow (x :: s) (y :: t) :=
  ⟨[], x, y, s, t, rfl, rfl, h⟩

namespace PartsBelow

variable {a b : List α}

/-- What comes before does not matter. -/
theorem append_left (h : PartsBelow a b) (p : List α) : PartsBelow (p ++ a) (p ++ b) := by
  obtain ⟨q, x, y, s, t, rfl, rfl, hxy⟩ := h
  exact ⟨p ++ q, x, y, s, t, by simp, by simp, hxy⟩

/-- What comes after does not matter. -/
theorem append (h : PartsBelow a b) (r r' : List α) : PartsBelow (a ++ r) (b ++ r') := by
  obtain ⟨p, x, y, s, t, rfl, rfl, hxy⟩ := h
  exact ⟨p, x, y, s ++ r, t ++ r', by simp, by simp, hxy⟩

theorem lt (h : PartsBelow a b) : a < b := by
  obtain ⟨p, x, y, s, t, rfl, rfl, hxy⟩ := h
  exact List.Lex.append_left (· < ·) (List.Lex.rel hxy) p

theorem not_prefix (h : PartsBelow a b) : ¬ a <+: b := by
  obtain ⟨p, x, y, s, t, rfl, rfl, hxy⟩ := h
  intro hp
  rw [List.prefix_append_right_inj, List.cons_prefix_cons] at hp
  exact absurd hp.1 (ne_of_lt hxy)

theorem not_prefix' (h : PartsBelow a b) : ¬ b <+: a := by
  obtain ⟨p, x, y, s, t, rfl, rfl, hxy⟩ := h
  intro hp
  rw [List.prefix_append_right_inj, List.cons_prefix_cons] at hp
  exact absurd hp.1 (ne_of_gt hxy)

end PartsBelow

/-- How `a` and `b` compare, parting unless they are equal. -/
def Parts (o : Ordering) (a b : List α) : Prop :=
  match o with
  | .lt => PartsBelow a b
  | .eq => a = b
  | .gt => PartsBelow b a

namespace Parts

variable {o : Ordering} {a b : List α}

theorem cmp_eq (h : Parts o a b) : cmp a b = o := by
  unfold cmp cmpUsing
  cases o with
  | lt => exact if_pos (PartsBelow.lt h)
  | eq =>
      obtain rfl : a = b := h
      rw [if_neg (List.lt_irrefl a), if_neg (List.lt_irrefl a)]
  | gt =>
      have hlt : b < a := PartsBelow.lt h
      rw [if_neg (lt_asymm hlt), if_pos hlt]

/-- Strings that part are prefixes of one another only if they are equal. -/
theorem eq_of_prefix (h : Parts o a b) (hp : a <+: b) : a = b := by
  cases o with
  | lt => exact absurd hp h.not_prefix
  | eq => exact h
  | gt => exact absurd hp h.not_prefix'

/-- **The first that differ decide.** -/
theorem append {o' : Ordering} {a' b' : List α} (h : Parts o a b) (h' : Parts o' a' b') :
    Parts (o.then o') (a ++ a') (b ++ b') := by
  cases o with
  | lt => exact PartsBelow.append h a' b'
  | gt => exact PartsBelow.append h b' a'
  | eq =>
      obtain rfl : a = b := h
      cases o' with
      | lt => exact PartsBelow.append_left h' a
      | gt => exact PartsBelow.append_left h' a
      | eq =>
          obtain rfl : a' = b' := h'
          exact rfl

end Parts

section Map

variable {β : Type} [LT β] [DecidableLT β] {f : β → List α}

/-- An order-preserving map whose images part. -/
theorem parts_of_lt (htri : ∀ x y : β, x < y ∨ x = y ∨ y < x)
    (hf : ∀ x y, x < y → PartsBelow (f x) (f y)) (x y : β) : Parts (cmp x y) (f x) (f y) := by
  unfold cmp cmpUsing
  by_cases hlt : x < y
  · rw [if_pos hlt]
    exact hf x y hlt
  · rw [if_neg hlt]
    by_cases hgt : y < x
    · rw [if_pos hgt]
      exact hf y x hgt
    · rw [if_neg hgt]
      rcases htri x y with h | h | h
      · exact absurd h hlt
      · exact congrArg f h
      · exact absurd h hgt

theorem eq_of_cmp (htri : ∀ x y : β, x < y ∨ x = y ∨ y < x) {x y : β} (h : cmp x y = .eq) :
    x = y := by
  unfold cmp cmpUsing at h
  rcases htri x y with hlt | heq | hgt
  · rw [if_pos hlt] at h
    cases h
  · exact heq
  · by_cases hlt : x < y
    · rw [if_pos hlt] at h
      cases h
    · rw [if_neg hlt, if_pos hgt] at h
      cases h

end Map

end Lex
