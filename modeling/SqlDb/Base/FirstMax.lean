import Mathlib.Order.Lattice

/-!
# The first of the best

A loop that keeps what it has unless the next one is strictly better ends with the first of
the best: all before it are worse, and none after it is better. The score may be in any
linear order; for the least of something, take the dual.
-/

/-- All before `x` score less, and none after it scores more. -/
def FirstMax {α β : Type} [LinearOrder β] (score : α → β) (xs : List α) (x : α) : Prop :=
  ∃ before after, xs = before ++ x :: after ∧ (∀ y ∈ before, score y < score x) ∧
    ∀ y ∈ after, score y ≤ score x

namespace FirstMax

variable {α β : Type} [LinearOrder β] {score : α → β} {xs : List α} {x y : α}

theorem singleton (score : α → β) (x : α) : FirstMax score [x] x :=
  ⟨[], [], rfl, fun _ hy => absurd hy List.not_mem_nil, fun _ hy => absurd hy List.not_mem_nil⟩

theorem mem (h : FirstMax score xs x) : x ∈ xs := by
  obtain ⟨before, after, rfl, _, _⟩ := h
  exact List.mem_append_right _ List.mem_cons_self

theorem le (h : FirstMax score xs x) (hy : y ∈ xs) : score y ≤ score x := by
  obtain ⟨before, after, rfl, hbefore, hafter⟩ := h
  rcases List.mem_append.mp hy with hy | hy
  · exact le_of_lt (hbefore y hy)
  · rcases List.mem_cons.mp hy with rfl | hy
    · exact le_refl _
    · exact hafter y hy

/-- Something worse in front changes nothing. -/
theorem worse (h : FirstMax score xs x) (hy : score y < score x) : FirstMax score (y :: xs) x := by
  obtain ⟨before, after, rfl, hbefore, hafter⟩ := h
  exact ⟨y :: before, after, rfl, List.forall_mem_cons.mpr ⟨hy, hbefore⟩, hafter⟩

/-- Something no better than what is in front of it changes nothing. -/
theorem skip {z : α} (h : FirstMax score (z :: xs) x) (hy : score y ≤ score z) :
    FirstMax score (z :: y :: xs) x := by
  obtain ⟨before, after, he, hbefore, hafter⟩ := h
  cases before with
  | nil =>
      rw [List.nil_append, List.cons.injEq] at he
      obtain ⟨rfl, rfl⟩ := he
      exact ⟨[], y :: xs, rfl, hbefore, List.forall_mem_cons.mpr ⟨hy, hafter⟩⟩
  | cons c before =>
      rw [List.cons_append, List.cons.injEq] at he
      obtain ⟨rfl, rfl⟩ := he
      obtain ⟨hz, hrest⟩ := List.forall_mem_cons.mp hbefore
      refine ⟨z :: y :: before, after, rfl, List.forall_mem_cons.mpr ⟨hz, ?_⟩, hafter⟩
      exact List.forall_mem_cons.mpr ⟨lt_of_le_of_lt hy hz, hrest⟩

/-- **There is only one.** -/
theorem unique {x' : α} (h : FirstMax score xs x) (h' : FirstMax score xs x') : x = x' := by
  obtain ⟨before, after, he, hbefore, hafter⟩ := h
  obtain ⟨before', after', he', hbefore', hafter'⟩ := h'
  subst he
  induction before generalizing before' with
  | nil =>
      cases before' with
      | nil => exact (List.cons.inj he').1
      | cons c before' =>
          obtain ⟨hc, hsplit⟩ := List.cons.inj he'
          have hlt : score x < score x' := hc ▸ hbefore' c List.mem_cons_self
          have hmem : x' ∈ after := hsplit ▸ List.mem_append_right _ List.mem_cons_self
          exact absurd (hafter x' hmem) (not_le.mpr hlt)
  | cons c before ih =>
      obtain ⟨hc, hrest⟩ := List.forall_mem_cons.mp hbefore
      cases before' with
      | nil =>
          obtain ⟨he, hsplit⟩ := List.cons.inj he'
          have hmem : x ∈ after' := hsplit ▸ List.mem_append_right _ List.mem_cons_self
          exact absurd (hafter' x hmem) (not_le.mpr (he ▸ hc))
      | cons c' before' =>
          exact ih hrest before' (fun y hy => hbefore' y (List.mem_cons_of_mem _ hy))
            (List.cons.inj he').2

end FirstMax
