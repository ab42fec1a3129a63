import Mathlib.Data.List.Basic
import Mathlib.Data.List.Induction

/-!
# Parsers and what they parse

A parser takes a sentence off the front of some tokens, and returns what it means and the
tokens behind it. `Parses p R F` says that the sentences are those of the language `R`, and
that the parser stops at the end of one wherever the rest is as `F` says: in front of such a
rest no longer sentence begins.

There is a rule for each way to put a parser together. A rule for two parts, one behind the
other, asks that the second part leaves the first one a rest to stop in front of; that is
what makes one token of lookahead suffice.

Nothing here is about this repository; the tokens and the meanings are any types.
-/

namespace Parsing

variable {T α β : Type}

abbrev Parser (T : Type) := StateT (List T) Option

/-- Sentences, and what they mean. -/
abbrev Language (T α : Type) := List T → α → Prop

/-! ## Parsers -/

/-- A token of some kind. -/
def next (f : T → Option α) : Parser T α
  | [] => none
  | t :: ts => (f t).map fun a => (a, ts)

def token [DecidableEq T] (t : T) : Parser T Unit := next fun u => if u = t then some () else none

/-- One of two parsers, by what is ahead. -/
def choose (ahead : List T → Bool) (p q : Parser T α) : Parser T α :=
  fun ts => if ahead ts then p ts else q ts

/-- What a meaning comes to, if to anything. -/
def accept (f : α → Option β) (p : Parser T α) : Parser T β := do
  let a ← p
  StateT.lift (f a)

/-- More items, each behind a separator. An item follows a separator if `ahead` holds of what stands
behind it. -/
def listLoop [DecidableEq T] (sep : T) (ahead : List T → Bool) (item : Parser T α)
    (step : β → α → β) : Nat → β → Parser T β
  | 0, b, ts => some (b, ts)
  | _ + 1, b, [] => some (b, [])
  | fuel + 1, b, t :: ts =>
      if t = sep ∧ ahead ts = true then
        match item ts with
        | none => none
        | some (a, ts) => listLoop sep ahead item step fuel (step b a) ts
      else some (b, t :: ts)

/-- One item or more; there are no more of them than tokens. -/
def list [DecidableEq T] (sep : T) (ahead : List T → Bool) (item : Parser T α) (first : α → β)
    (step : β → α → β) : Parser T β := fun ts =>
  match item ts with
  | none => none
  | some (a, rest) => listLoop sep ahead item step ts.length (first a) rest

/-! ## Languages -/

/-- The items of a list, by a rule that is recursive on the left. -/
inductive Listed (sep : T) (R : Language T α) (first : α → β) (step : β → α → β) : Language T β
  | one {us : List T} {a : α} : R us a → Listed sep R first step us (first a)
  | more {us vs : List T} {b : β} {a : α} : Listed sep R first step us b → R vs a →
      Listed sep R first step (us ++ sep :: vs) (step b a)

/-- **The items of a list**, one behind the other. -/
theorem listed_iff {sep : T} {R : Language T α} {first : α → β} {step : β → α → β} {us : List T}
    {b : β} : Listed sep R first step us b ↔ ∃ (u : List T) (a : α) (more : List (List T × α)),
      R u a ∧ (∀ q ∈ more, R q.1 q.2) ∧ us = u ++ more.flatMap (fun q => sep :: q.1) ∧
      b = (more.map Prod.snd).foldl step (first a) := by
  constructor
  · intro h
    induction h with
    | one hus => exact ⟨_, _, [], hus, fun _ h => absurd h List.not_mem_nil,
      (List.append_nil _).symm, rfl⟩
    | @more us vs b a _ hvs ih =>
        obtain ⟨u, c, more, hu, hmore, rfl, rfl⟩ := ih
        refine ⟨u, c, more ++ [(vs, a)], hu, fun q hq => ?_, by simp, by simp⟩
        rcases List.mem_append.mp hq with hq | hq
        · exact hmore q hq
        · rwa [List.mem_singleton.mp hq]
  · rintro ⟨u, a, more, hu, hmore, rfl, rfl⟩
    induction more using List.reverseRecOn with
    | nil =>
        rw [List.flatMap_nil, List.append_nil]
        exact .one hu
    | append_singleton more q ih =>
        have hq : R q.1 q.2 := hmore q (by simp)
        have hlist := Listed.more (ih fun r hr => hmore r (List.mem_append_left _ hr)) hq
        simpa using hlist

/-- **What holds of a list** whose items' tokens are all of a kind. -/
theorem Listed.invariant {sep : T} {R : Language T α} {first : α → β}
    {step : β → α → β} {us : List T}
    {b : β} (h : Listed sep R first step us b) {S : T → Prop} (hus : ∀ t ∈ us, S t) {I : β → Prop}
    (hfirst : ∀ {vs a}, R vs a → (∀ t ∈ vs, S t) → I (first a))
    (hstep : ∀ {b vs a}, I b → R vs a → (∀ t ∈ vs, S t) → I (step b a)) : I b := by
  induction h with
  | one hvs => exact hfirst hvs hus
  | more _ hvs ih =>
      obtain ⟨hus, hvs'⟩ := List.forall_mem_append.mp hus
      exact hstep (ih hus) hvs (List.forall_mem_cons.mp hvs').2

/-- **What a parser parses.** -/
structure Parses (p : Parser T α) (R : Language T α) (F : List T → Prop) : Prop where
  sound : ∀ {ts rest : List T} {a : α}, p ts = some (a, rest) → ∃ us, R us a ∧ ts = us ++ rest
  complete : ∀ {us rest : List T} {a : α}, R us a → F rest → p (us ++ rest) = some (a, rest)

/-- A rest that begins with none of these tokens. -/
def NotAhead (cs : List T) (rest : List T) : Prop := ∀ t ∈ rest.head?, t ∉ cs

@[simp] theorem notAhead_cons {cs : List T} {t : T} {rest : List T} :
    NotAhead cs (t :: rest) ↔ t ∉ cs := by
  constructor
  · exact fun h => h t rfl
  · intro h u hu
    rwa [← Option.some.inj hu]

theorem NotAhead.mono {cs cs' : List T} {rest : List T} (h : NotAhead cs rest)
    (hsub : ∀ t ∈ cs', t ∈ cs) : NotAhead cs' rest :=
  fun t ht hmem => h t ht (hsub t hmem)

/-! ## Rules -/

namespace Parses

variable {p q : Parser T α} {R S : Language T α} {F G : List T → Prop}

/-- **Consequence.** -/
theorem congr (h : Parses p R F) (hR : ∀ ts a, R ts a ↔ S ts a) (hF : ∀ rest, G rest → F rest) :
    Parses p S G where
  sound hp := by
    obtain ⟨us, hus, hts⟩ := h.sound hp
    exact ⟨us, (hR us _).mp hus, hts⟩
  complete hus hrest := h.complete ((hR _ _).mpr hus) (hF _ hrest)

/-- A parser that stops in front of some rests stops in front of fewer. -/
theorem mono (h : Parses p R F) (hF : ∀ rest, G rest → F rest) : Parses p R G :=
  h.congr (fun _ _ => Iff.rfl) hF

theorem pure (a : α) :
    Parses (pure a : Parser T α) (fun us b => us = [] ∧ b = a) fun _ => True where
  sound hp := by
    obtain ⟨rfl, rfl⟩ := Prod.mk.inj (Option.some.inj hp)
    exact ⟨[], ⟨rfl, rfl⟩, rfl⟩
  complete := by
    rintro us rest b ⟨rfl, rfl⟩ _
    rfl

theorem next (f : T → Option α) :
    Parses (next f) (fun us a => ∃ t, f t = some a ∧ us = [t]) fun _ => True where
  sound := by
    intro ts rest a hp
    cases ts with
    | nil => cases hp
    | cons t ts =>
        obtain ⟨b, hb, he⟩ := Option.map_eq_some_iff.mp hp
        obtain ⟨rfl, rfl⟩ := Prod.mk.inj he
        exact ⟨[t], ⟨t, hb, rfl⟩, rfl⟩
  complete := by
    rintro us rest a ⟨t, ht, rfl⟩ _
    show Option.map _ (f t) = _
    rw [ht]
    rfl

/-- **One behind the other.** -/
theorem bind {f : α → Parser T β} {S : α → Language T β} (hp : Parses p R F)
    (hf : ∀ a, Parses (f a) (S a) G)
    (hfollow : ∀ a us b rest, S a us b → G rest → F (us ++ rest)) :
    Parses (p >>= f) (fun ts b => ∃ us vs a, R us a ∧ S a vs b ∧ ts = us ++ vs) G where
  sound := by
    intro ts rest b hrun
    obtain ⟨⟨a, rest'⟩, ha, hb⟩ := Option.bind_eq_some_iff.mp hrun
    obtain ⟨us, hus, rfl⟩ := hp.sound ha
    obtain ⟨vs, hvs, rfl⟩ := (hf a).sound hb
    exact ⟨us ++ vs, ⟨us, vs, a, hus, hvs, rfl⟩, (List.append_assoc _ _ _).symm⟩
  complete := by
    rintro ts rest b ⟨us, vs, a, hus, hvs, rfl⟩ hrest
    refine Option.bind_eq_some_iff.mpr ⟨(a, vs ++ rest), ?_, (hf a).complete hvs hrest⟩
    rw [List.append_assoc]
    exact hp.complete hus (hfollow a vs b rest hvs hrest)

theorem map (h : Parses p R F) (f : α → β) :
    Parses (p >>= fun a => Pure.pure (f a)) (fun ts b => ∃ a, R ts a ∧ b = f a) F :=
  (h.bind (S := fun a us b => us = [] ∧ b = f a)
      (fun a => (Parses.pure (f a)).mono fun _ _ => trivial)
      fun a us b rest hus hrest => by rwa [hus.1]).congr
    (fun ts b => by
      constructor
      · rintro ⟨us, vs, a, hus, ⟨rfl, rfl⟩, rfl⟩
        exact ⟨a, by rwa [List.append_nil], rfl⟩
      · rintro ⟨a, hts, rfl⟩
        exact ⟨ts, [], a, hts, ⟨rfl, rfl⟩, (List.append_nil _).symm⟩)
    fun _ hrest => hrest

theorem accept {f : α → Option β} (h : Parses p R F) :
    Parses (accept f p) (fun ts b => ∃ a, R ts a ∧ f a = some b) F where
  sound := by
    intro ts rest b hrun
    obtain ⟨⟨a, rest'⟩, ha, hb⟩ := Option.bind_eq_some_iff.mp hrun
    obtain ⟨c, hc, he⟩ := Option.bind_eq_some_iff.mp hb
    obtain ⟨rfl, rfl⟩ := Prod.mk.inj (Option.some.inj he)
    obtain ⟨us, hus, rfl⟩ := h.sound ha
    exact ⟨us, ⟨a, hus, hc⟩, rfl⟩
  complete := by
    rintro us rest b ⟨a, hus, hb⟩ hrest
    refine Option.bind_eq_some_iff.mpr ⟨(a, rest), h.complete hus hrest, ?_⟩
    exact Option.bind_eq_some_iff.mpr ⟨b, hb, rfl⟩

/-- **One of two.** -/
theorem choose {ahead : List T → Bool} (hp : Parses p R F) (hq : Parses q S F)
    (hR : ∀ us a rest, R us a → F rest → ahead (us ++ rest) = true)
    (hS : ∀ us a rest, S us a → F rest → ahead (us ++ rest) = false) :
    Parses (choose ahead p q) (fun ts a => R ts a ∨ S ts a) F where
  sound := by
    intro ts rest a hrun
    unfold Parsing.choose at hrun
    split at hrun
    · obtain ⟨us, hus, hts⟩ := hp.sound hrun
      exact ⟨us, Or.inl hus, hts⟩
    · obtain ⟨us, hus, hts⟩ := hq.sound hrun
      exact ⟨us, Or.inr hus, hts⟩
  complete := by
    intro us rest a hus hrest
    unfold Parsing.choose
    rcases hus with hus | hus
    · rw [if_pos (hR us a rest hus hrest)]
      exact hp.complete hus hrest
    · rw [if_neg (by rw [hS us a rest hus hrest]; exact Bool.false_ne_true)]
      exact hq.complete hus hrest

/-! ### Tokens and lists -/

variable [DecidableEq T]

/-- A token in front. -/
theorem behind {t : T} (h : Parses p R F) :
    Parses (token t >>= fun _ => p) (fun ts a => ∃ us, R us a ∧ ts = t :: us) F :=
  ((Parses.next fun u => if u = t then some () else none).bind (S := fun _ => R) (fun _ => h)
      fun _ _ _ _ _ _ => trivial).congr
    (fun ts b => by
      constructor
      · rintro ⟨us, vs, a, ⟨u, hu, rfl⟩, hvs, rfl⟩
        split at hu
        · rename_i he
          exact ⟨vs, hvs, by rw [he]; rfl⟩
        · cases hu
      · rintro ⟨us, hus, rfl⟩
        exact ⟨[t], us, (), ⟨t, if_pos rfl, rfl⟩, hus, rfl⟩)
    fun _ hrest => hrest

section List

variable {sep : T} {ahead : List T → Bool} {first : α → β} {step : β → α → β}

/-- Items behind those of a list are items of it. -/
theorem listLoop_sound (hp : Parses p R F) {fuel : Nat} {b b' : β} {us ts rest : List T}
    (hus : Listed sep R first step us b)
    (hrun : listLoop sep ahead p step fuel b ts = some (b', rest)) :
    ∃ vs, Listed sep R first step (us ++ vs) b' ∧ ts = vs ++ rest := by
  induction fuel generalizing us ts b with
  | zero =>
      obtain ⟨rfl, rfl⟩ := Prod.mk.inj (Option.some.inj hrun)
      exact ⟨[], by rwa [List.append_nil], rfl⟩
  | succ fuel ih =>
      cases ts with
      | nil =>
          obtain ⟨rfl, rfl⟩ := Prod.mk.inj (Option.some.inj hrun)
          exact ⟨[], by rwa [List.append_nil], rfl⟩
      | cons t ts =>
          rw [listLoop] at hrun
          split at hrun
          · rename_i hsep
            cases hitem : p ts with
            | none =>
                rw [hitem] at hrun
                cases hrun
            | some r =>
                obtain ⟨a, ts'⟩ := r
                obtain ⟨vs, hvs, rfl⟩ := hp.sound hitem
                rw [hitem] at hrun
                obtain ⟨ws, hws, rfl⟩ := ih (.more hus hvs) hrun
                refine ⟨sep :: vs ++ ws, by rwa [← List.append_assoc], ?_⟩
                rw [hsep.1]
                simp
          · obtain ⟨rfl, rfl⟩ := Prod.mk.inj (Option.some.inj hrun)
            exact ⟨[], by rwa [List.append_nil], rfl⟩

/-- The loop gets to the end of a list's items, with fuel left for what is behind. -/
theorem listed_complete (hp : Parses p R F) (hsep : ∀ rest, F (sep :: rest))
    (hahead : ∀ us a rest, R us a → F rest → ahead (us ++ rest) = true) {us : List T} {b : β}
    (hus : Listed sep R first step us b) : ∀ rest, F rest → ∃ fuel, rest.length ≤ fuel ∧
      list sep ahead p first step (us ++ rest) = listLoop sep ahead p step fuel b rest := by
  induction hus with
  | @one us a hus =>
      intro rest hrest
      refine ⟨(us ++ rest).length, by simp, ?_⟩
      rw [list, hp.complete hus hrest]
  | @more us vs b a _ hvs ih =>
      intro rest hrest
      obtain ⟨fuel, hfuel, hrun⟩ := ih (sep :: (vs ++ rest)) (hsep _)
      rw [List.length_cons, List.length_append] at hfuel
      obtain ⟨fuel, rfl⟩ : ∃ k, fuel = k + 1 := ⟨fuel - 1, by omega⟩
      refine ⟨fuel, by omega, ?_⟩
      rw [List.append_assoc, List.cons_append, hrun, listLoop,
        if_pos ⟨rfl, hahead vs a rest hvs hrest⟩, hp.complete hvs hrest]

/-- **A list.** It ends in front of anything but a separator with an item behind it. -/
theorem list (hp : Parses p R F) (hsep : ∀ rest, F (sep :: rest))
    (hahead : ∀ us a rest, R us a → F rest → ahead (us ++ rest) = true)
    (hG : ∀ rest, G rest → F rest ∧ ∀ ts, rest = sep :: ts → ahead ts = false) :
    Parses (list sep ahead p first step) (Listed sep R first step) G where
  sound := by
    intro ts rest b hrun
    unfold Parsing.list at hrun
    cases hitem : p ts with
    | none =>
        rw [hitem] at hrun
        cases hrun
    | some r =>
        obtain ⟨a, ts'⟩ := r
        obtain ⟨us, hus, rfl⟩ := hp.sound hitem
        rw [hitem] at hrun
        obtain ⟨vs, hvs, rfl⟩ := hp.listLoop_sound (.one hus) hrun
        exact ⟨us ++ vs, hvs, (List.append_assoc _ _ _).symm⟩
  complete := by
    intro us rest b hus hrest
    obtain ⟨hF, hend⟩ := hG rest hrest
    obtain ⟨fuel, hfuel, hrun⟩ := hp.listed_complete hsep hahead hus rest hF
    rw [hrun]
    cases rest with
    | nil => cases fuel <;> rfl
    | cons t rest =>
        rw [List.length_cons] at hfuel
        obtain ⟨fuel, rfl⟩ : ∃ k, fuel = k + 1 := ⟨fuel - 1, by omega⟩
        rw [listLoop, if_neg]
        rintro ⟨rfl, h⟩
        rw [hend rest rfl] at h
        cases h

end List

end Parses

end Parsing
