import Mathlib.Logic.Basic

/-!
# Postconditions for code that can fail

A call returns a value or fails, and a specification has to say something about
both: what holds of the value, and which failures are possible at all. `Ends E Q r`
says the two together, and the rules below are the usual ones — consequence,
return, sequencing — so that a proof about a function can follow its text.

Nothing here is about this repository; `ε` is any type of failures.
-/

namespace Outcome

variable {ε α β : Type}

/-- `r` returns something satisfying `Q`, or fails in a way `E` allows. -/
def Ends (E : ε → Prop) (Q : α → Prop) : Except ε α → Prop
  | .ok a => Q a
  | .error e => E e

@[simp] theorem ends_ok {E : ε → Prop} {Q : α → Prop} {a : α} :
    Ends E Q (.ok a : Except ε α) ↔ Q a := Iff.rfl

@[simp] theorem ends_error {E : ε → Prop} {Q : α → Prop} {e : ε} :
    Ends E Q (.error e : Except ε α) ↔ E e := Iff.rfl

@[simp] theorem ends_pure {E : ε → Prop} {Q : α → Prop} {a : α} :
    Ends E Q (pure a : Except ε α) ↔ Q a := Iff.rfl

@[simp] theorem ends_throw {E : ε → Prop} {Q : α → Prop} {e : ε} :
    Ends E Q (throw e : Except ε α) ↔ E e := Iff.rfl

/-- **Consequence.** -/
theorem Ends.mono {E E' : ε → Prop} {Q Q' : α → Prop} {r : Except ε α}
    (h : Ends E Q r) (hE : ∀ e, E e → E' e) (hQ : ∀ a, Q a → Q' a) : Ends E' Q' r := by
  cases r with
  | ok a => exact hQ a h
  | error e => exact hE e h

/-- Consequence on the returned value alone. -/
theorem Ends.imp {E : ε → Prop} {Q Q' : α → Prop} {r : Except ε α}
    (h : Ends E Q r) (hQ : ∀ a, Q a → Q' a) : Ends E Q' r :=
  h.mono (fun _ he => he) hQ

/-- **Sequencing.** -/
theorem Ends.bind {E : ε → Prop} {P : α → Prop} {Q : β → Prop} {r : Except ε α}
    {f : α → Except ε β} (h : Ends E P r) (hf : ∀ a, P a → Ends E Q (f a)) :
    Ends E Q (r >>= f) := by
  cases r with
  | ok a => exact hf a h
  | error e => exact h

/-- What a specification says about a call that did return. -/
theorem Ends.of_ok {E : ε → Prop} {Q : α → Prop} {r : Except ε α} {a : α}
    (h : Ends E Q r) (hr : r = .ok a) : Q a := by subst hr; exact h

/-- A call none of whose failures is possible returns. -/
theorem Ends.exists_ok {E : ε → Prop} {Q : α → Prop} {r : Except ε α}
    (h : Ends E Q r) (hE : ∀ e, ¬ E e) : ∃ a, r = .ok a ∧ Q a := by
  cases r with
  | ok a => exact ⟨a, rfl, h⟩
  | error e => exact absurd h (hE e)

/-- A sequence that returned ran both of its parts. -/
theorem bind_eq_ok {r : Except ε α} {f : α → Except ε β} {b : β} :
    (r >>= f) = .ok b ↔ ∃ a, r = .ok a ∧ f a = .ok b := by
  cases r with
  | ok a =>
      constructor
      · intro h; exact ⟨a, rfl, h⟩
      · rintro ⟨a', ha, h⟩; cases ha; exact h
  | error e =>
      constructor
      · intro h; cases h
      · rintro ⟨a', ha, _⟩; cases ha

@[simp] theorem ok_bind {a : α} {f : α → Except ε β} : ((.ok a : Except ε α) >>= f) = f a := rfl

@[simp] theorem error_bind {e : ε} {f : α → Except ε β} :
    ((.error e : Except ε α) >>= f) = .error e := rfl

theorem toOption_eq_some {r : Except ε α} {a : α} : r.toOption = some a ↔ r = .ok a := by
  cases r with
  | ok b => exact ⟨fun h => congrArg _ (Option.some.inj h), fun h => congrArg _ (Except.ok.inj h)⟩
  | error e => exact ⟨fun h => (nomatch h), fun h => (nomatch h)⟩

/-- An assertion: go on if `p` holds, fail with `e` if not. -/
def require (p : Prop) [Decidable p] (e : ε) : Except ε Unit := if p then .ok () else .error e

theorem require_pos {p : Prop} [Decidable p] {e : ε} (h : p) : require p e = .ok () := if_pos h

theorem require_neg {p : Prop} [Decidable p] {e : ε} (h : ¬ p) : require p e = .error e := if_neg h

@[simp] theorem require_eq_ok {p : Prop} [Decidable p] {e : ε} {u : Unit} :
    require p e = .ok u ↔ p := by
  unfold require
  split
  · rename_i h; exact ⟨fun _ => h, fun _ => rfl⟩
  · rename_i h; exact ⟨fun he => (nomatch he), fun hp => absurd hp h⟩

/-- An assertion that holds is passed over. -/
theorem Ends.require {E : ε → Prop} {Q : α → Prop} {p : Prop} [Decidable p] {e : ε}
    {f : Unit → Except ε α} (hp : p) (h : Ends E Q (f ())) :
    Ends E Q (Outcome.require p e >>= f) := by
  rw [require_pos hp]; exact h

end Outcome
