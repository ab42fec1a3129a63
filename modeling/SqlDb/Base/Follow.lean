import SqlDb.Base.Outcome

/-!
# Runs that follow each other

One computation does what another does, and may be stopped on the way. `Follows G φ r' r`
says that `r'` was stopped by a failure of `G`, or else that `r` ended as it did, the
results being related by the map `φ`. `Alike R r r'` says that the two fail in the same way,
or that what they return is related by `R`. The rules are those of sequencing, so that a
proof about two runs of one text can follow the text.

Nothing here is about this repository; `ε` is any type of failures.
-/

namespace Outcome

variable {ε α α' β β' γ : Type}

/-- `r` ended as `r'` did, unless that was stopped. -/
def Follows (G : ε → Prop) (φ : α' → α) (r' : Except ε α') (r : Except ε α) : Prop :=
  (∃ f, G f ∧ r' = .error f) ∨ r = r'.map φ

variable {G : ε → Prop} {φ : α' → α} {ψ : β' → β}

theorem Follows.ok (a : α') : Follows G φ (.ok a) (.ok (φ a)) := Or.inr rfl

theorem Follows.error (f : ε) : Follows G φ (.error f) (.error f) := Or.inr rfl

/-- **Sequencing.** -/
theorem Follows.bind {r' : Except ε α'} {r : Except ε α} {f' : α' → Except ε β'}
    {f : α → Except ε β} (h : Follows G φ r' r) (hf : ∀ a, Follows G ψ (f' a) (f (φ a))) :
    Follows G ψ (r' >>= f') (r >>= f) := by
  rcases h with ⟨e, hG, rfl⟩ | rfl
  · exact Or.inl ⟨e, hG, rfl⟩
  · cases r' with
    | error e => exact .error e
    | ok a => exact hf a

/-- What both runs do alike. -/
theorem Follows.same {r : Except ε γ} {f' : γ → Except ε β'} {f : γ → Except ε β}
    (hf : ∀ a, Follows G ψ (f' a) (f a)) : Follows G ψ (r >>= f') (r >>= f) := by
  cases r with
  | error e => exact .error e
  | ok a => exact hf a

theorem Follows.ite {p : Prop} [Decidable p] {a' b' : Except ε α'} {a b : Except ε α}
    (ha : Follows G φ a' a) (hb : Follows G φ b' b) :
    Follows G φ (if p then a' else b') (if p then a else b) := by
  split
  · exact ha
  · exact hb

/-- A run that was not stopped. -/
theorem Follows.eq {r' : Except ε α'} {r : Except ε α} (h : Follows G φ r' r)
    (hno : ∀ f, G f → r' ≠ .error f) : r = r'.map φ := by
  rcases h with ⟨f, hG, he⟩ | he
  · exact absurd he (hno f hG)
  · exact he

/-- A postcondition that rules out being stopped holds of the other run. -/
theorem Follows.ends {r' : Except ε α'} {r : Except ε α} {E : ε → Prop} {Q : α' → Prop}
    (h : Follows G φ r' r) (hE : ∀ f, G f → ¬ E f) (hr : Ends E Q r') : r = r'.map φ := by
  refine h.eq fun f hG he => hE f hG ?_
  rw [he] at hr
  exact hr

/-- Both fail in the same way, or both return and `R` relates what they return. -/
def Alike (R : α → β → Prop) : Except ε α → Except ε β → Prop
  | .ok a, .ok b => R a b
  | .error e, .error e' => e = e'
  | _, _ => False

section Alike

variable {R S : α → β → Prop} {r : Except ε α} {r' : Except ε β}

theorem Alike.ok {a : α} {b : β} (h : R a b) : Alike (ε := ε) R (.ok a) (.ok b) := h

theorem Alike.error (e : ε) : Alike R (.error e) (.error e) := rfl

/-- **Consequence.** -/
theorem Alike.imp (h : Alike R r r') (hRS : ∀ a b, R a b → S a b) : Alike S r r' := by
  cases r with
  | ok a => cases r' with
    | ok b => exact hRS a b h
    | error e => exact h
  | error e => cases r' with
    | ok b => exact h
    | error e => exact h

/-- **Sequencing.** -/
theorem Alike.bind {T : α' → β' → Prop} {f : α → Except ε α'} {f' : β → Except ε β'}
    (h : Alike R r r') (hf : ∀ a b, R a b → Alike T (f a) (f' b)) :
    Alike T (r >>= f) (r' >>= f') := by
  cases r with
  | ok a => cases r' with
    | ok b => exact hf a b h
    | error e => exact h.elim
  | error e => cases r' with
    | ok b => exact h.elim
    | error e' => exact h

/-- A run that returned has the other one return as well. -/
theorem Alike.of_ok {a : α} (h : Alike R r r') (hr : r = .ok a) : ∃ b, r' = .ok b ∧ R a b := by
  rw [hr] at h
  cases r' with
  | ok b => exact ⟨b, rfl, h⟩
  | error e => exact h.elim

/-- What is known of each run alone can be added. -/
theorem Alike.and {E : ε → Prop} {P : α → Prop} {Q : β → Prop} (h : Alike R r r')
    (hr : Ends E P r) (hr' : Ends E Q r') : Alike (fun a b => R a b ∧ P a ∧ Q b) r r' := by
  cases r with
  | ok a => cases r' with
    | ok b => exact ⟨h, hr, hr'⟩
    | error e => exact h
  | error e => cases r' with
    | ok b => exact h
    | error e => exact h

end Alike

/-! ## Two runs in one -/

section Agree

variable [DecidableEq ε] {stop : ε} {f : α → β → Option γ} {r : Except ε α} {r' : Except ε β}

/-- What `f` makes of the two values. Two runs that end differently, or whose values `f` makes
nothing of, are stopped. -/
def agree (stop : ε) (f : α → β → Option γ) : Except ε α → Except ε β → Except ε γ
  | .ok a, .ok b => (f a b).elim (.error stop) .ok
  | .error e, .error e' => if e = e' then .error e else .error stop
  | _, _ => .error stop

theorem agree_ok {a : α} {b : β} :
    agree stop f (.ok a) (.ok b) = (f a b).elim (.error stop) .ok := rfl

/-- It follows the first run, -/
theorem agree_left {φ : γ → α} (hf : ∀ a b c, f a b = some c → φ c = a) :
    Follows (· = stop) φ (agree stop f r r') r := by
  cases r with
  | error e => cases r' with
    | error e' =>
        by_cases he : e = e'
        · exact Or.inr (by rw [agree, if_pos he]; rfl)
        · exact Or.inl ⟨stop, rfl, by rw [agree, if_neg he]⟩
    | ok b => exact Or.inl ⟨stop, rfl, rfl⟩
  | ok a => cases r' with
    | error e' => exact Or.inl ⟨stop, rfl, rfl⟩
    | ok b =>
        rw [agree_ok]
        cases hc : f a b with
        | none => exact Or.inl ⟨stop, rfl, rfl⟩
        | some c =>
            refine Or.inr ?_
            show Except.ok a = .ok (φ c)
            rw [hf a b c hc]

/-- and the second. -/
theorem agree_right {φ : γ → β} (hf : ∀ a b c, f a b = some c → φ c = b) :
    Follows (· = stop) φ (agree stop f r r') r' := by
  cases r' with
  | error e' => cases r with
    | error e =>
        by_cases he : e = e'
        · exact Or.inr (by rw [agree, if_pos he, he]; rfl)
        · exact Or.inl ⟨stop, rfl, by rw [agree, if_neg he]⟩
    | ok a => exact Or.inl ⟨stop, rfl, rfl⟩
  | ok b => cases r with
    | error e => exact Or.inl ⟨stop, rfl, rfl⟩
    | ok a =>
        rw [agree_ok]
        cases hc : f a b with
        | none => exact Or.inl ⟨stop, rfl, rfl⟩
        | some c =>
            refine Or.inr ?_
            show Except.ok b = .ok (φ c)
            rw [hf a b c hc]

/-- Two runs that end alike are not stopped. -/
theorem Alike.agree {R : α → β → Prop} {E : ε → Prop} {P : α → Prop} {Q : γ → Prop}
    (h : Alike R r r') (hr : Ends E P r)
    (hf : ∀ a b, R a b → P a → ∃ c, f a b = some c ∧ Q c) :
    Ends E Q (Outcome.agree stop f r r') := by
  cases r with
  | error e => cases r' with
    | error e' =>
        have he : e = e' := h
        rw [Outcome.agree, if_pos he]
        exact hr
    | ok b => exact h.elim
  | ok a => cases r' with
    | error e' => exact h.elim
    | ok b =>
        obtain ⟨c, hc, hQ⟩ := hf a b h hr
        rw [agree_ok, hc]
        exact hQ

end Agree

end Outcome
