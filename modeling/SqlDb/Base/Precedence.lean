import Mathlib.Data.List.Basic
import Mathlib.Algebra.Order.Group.Nat

/-!
# Operators by precedence

A grammar of expressions that has one rule for each operator is ambiguous, and a generator
of shift-reduce parsers settles it by levels: where a finished rule stands in front of an
operator, the rule is completed if its level is the higher one, the operator is read on if
its level is, and at one level the associativity decides. `Grammar.drive` is such a parser.
`Reads` says what it reads: the rules of the grammar, each with what the levels ask of the
operators at the edges of its parts.

The tokens and the values are any types; nothing here is about this repository.
-/

namespace Precedence

variable {T N : Type}

/-- How operators of one level group. -/
inductive Assoc where
  | left
  | right
  | nonassoc
deriving DecidableEq

/-- What to do with a finished rule in front of an operator. -/
inductive Action where
  | shift
  | reduce
  | reject
deriving DecidableEq

/-- An operator grammar. A token is looked up as a prefix operator in front of an operand, and as an
infix operator behind one, so that one token can be both. -/
structure Grammar (T N : Type) where
  /-- An operand of one token. -/
  atom : T → Option N
  unaryLevel : T → Option Nat
  binaryLevel : T → Option (Nat × Assoc)
  lparen : T
  comma : T
  rparen : T
  unary : T → N → N
  binary : T → N → N → N
  /-- Two or more in parentheses. -/
  tuple : List N → N
  atom_unary : ∀ t level, unaryLevel t = some level → atom t = none
  atom_lparen : atom lparen = none
  unaryLevel_lparen : unaryLevel lparen = none
  binaryLevel_comma : binaryLevel comma = none
  binaryLevel_rparen : binaryLevel rparen = none
  rparen_ne_comma : rparen ≠ comma

namespace Grammar

/-- A finished rule of this level, in front of `op`. -/
def resolve (G : Grammar T N) (rule : Nat) (op : T) : Action :=
  match G.binaryLevel op with
  | none => .reduce
  | some (level, assoc) =>
      if level < rule then .reduce
      else if rule < level then .shift
      else
        match assoc with
        | .left => .reduce
        | .right => .shift
        | .nonassoc => .reject

/-! ## What is read -/

/-- Some tokens, what they are read as, the infix operators that the parts on the left edge end
in front of, and the levels of the rules that are finished on the right edge. -/
structure Phrase (T N : Type) where
  tokens : List T
  value : N
  lefts : List T := []
  rights : List Nat := []

/-- The rules, and what the levels ask of the parts' edges. -/
inductive Reads (G : Grammar T N) : Phrase T N → Prop where
  | atom {t : T} {n : N} : G.atom t = some n → Reads G { tokens := [t], value := n }
  | group {p : Phrase T N} : Reads G p →
      Reads G { tokens := G.lparen :: p.tokens ++ [G.rparen], value := p.value }
  | tuple {p : Phrase T N} {more : List (Phrase T N)} : Reads G p → more ≠ [] →
      (∀ q ∈ more, Reads G q) → Reads G {
        tokens := G.lparen :: p.tokens ++ (more.flatMap fun q => G.comma :: q.tokens) ++ [G.rparen]
        value := G.tuple (p.value :: more.map Phrase.value) }
  | unary {op : T} {level : Nat} {p : Phrase T N} : G.unaryLevel op = some level → Reads G p →
      (∀ o ∈ p.lefts, G.resolve level o = .shift) → Reads G {
        tokens := op :: p.tokens, value := G.unary op p.value, rights := level :: p.rights }
  | binary {op : T} {level : Nat} {assoc : Assoc} {p q : Phrase T N} :
      G.binaryLevel op = some (level, assoc) → Reads G p → Reads G q →
      (∀ l ∈ p.rights, G.resolve l op = .reduce) → (∀ o ∈ q.lefts, G.resolve level o = .shift) →
      Reads G {
        tokens := p.tokens ++ op :: q.tokens
        value := G.binary op p.value q.value
        lefts := p.lefts ++ [op]
        rights := level :: q.rights }

/-- **How a phrase begins.** -/
theorem Reads.begins {G : Grammar T N} {p : Phrase T N} (h : G.Reads p) : ∃ t ts, p.tokens = t :: ts ∧
    ((∃ n, G.atom t = some n) ∨ (∃ level, G.unaryLevel t = some level) ∨ t = G.lparen) := by
  induction h with
  | atom hatom => exact ⟨_, [], rfl, .inl ⟨_, hatom⟩⟩
  | group => exact ⟨_, _, rfl, .inr (.inr rfl)⟩
  | tuple => exact ⟨_, _, rfl, .inr (.inr rfl)⟩
  | unary hop => exact ⟨_, _, rfl, .inr (.inl ⟨_, hop⟩)⟩
  | binary _ _ _ _ _ ihp =>
      obtain ⟨t, ts, htokens, ht⟩ := ihp
      exact ⟨t, _, by rw [htokens]; rfl, ht⟩

/-! ## The parser -/

/-- What is on the parser's stack. -/
inductive Frame (T N : Type) where
  | unary (op : T)
  | binary (lhs : N) (op : T)
  /-- An open parenthesis and what was separated behind it. -/
  | group (kids : List N)

/-- The rule that the frame is the beginning of: its level, and its action on the last part. -/
def rule (G : Grammar T N) : Frame T N → Option (Nat × (N → N))
  | .unary op => (G.unaryLevel op).map fun level => (level, G.unary op)
  | .binary lhs op => (G.binaryLevel op).map fun level => (level.1, G.binary op lhs)
  | .group _ => none

/-- Completes rules in front of an infix operator. -/
def reduceFor (G : Grammar T N) (op : T) : List (Frame T N) → N → Option (List (Frame T N) × N)
  | [], n => some ([], n)
  | frame :: stack, n =>
      match G.rule frame with
      | none => some (frame :: stack, n)
      | some (level, build) =>
          match G.resolve level op with
          | .reduce => G.reduceFor op stack (build n)
          | .shift => some (frame :: stack, n)
          | .reject => none

/-- Completes rules in front of anything else. -/
def reduceAll (G : Grammar T N) : List (Frame T N) → N → List (Frame T N) × N
  | [], n => ([], n)
  | frame :: stack, n =>
      match G.rule frame with
      | none => (frame :: stack, n)
      | some (_, build) => G.reduceAll stack (build n)

/-- What stands in parentheses. -/
def grouped (G : Grammar T N) : List N → N
  | [n] => n
  | kids => G.tuple kids

/-- The parser, in front of an operand or behind `n`. It stops in front of a token that cannot go on
the expression. -/
def drive [DecidableEq T] (G : Grammar T N) :
    List T → List (Frame T N) → Option N → Option (N × List T)
  | [], _, none => none
  | t :: ts, stack, none =>
      match G.atom t with
      | some n => G.drive ts stack (some n)
      | none =>
          if (G.unaryLevel t).isSome then G.drive ts (.unary t :: stack) none
          else if t = G.lparen then G.drive ts (.group [] :: stack) none
          else none
  | [], stack, some n =>
      match G.reduceAll stack n with
      | ([], n) => some (n, [])
      | _ => none
  | t :: ts, stack, some n =>
      if (G.binaryLevel t).isSome then
        match G.reduceFor t stack n with
        | none => none
        | some (stack, lhs) => G.drive ts (.binary lhs t :: stack) none
      else
        match G.reduceAll stack n with
        | ([], n) => some (n, t :: ts)
        | (.group kids :: stack, n) =>
            if t = G.comma then G.drive ts (.group (kids ++ [n]) :: stack) none
            else if t = G.rparen then G.drive ts stack (some (G.grouped (kids ++ [n])))
            else none
        | _ => none

/-- An expression at the beginning of the tokens. -/
def parse [DecidableEq T] (G : Grammar T N) (ts : List T) : Option (N × List T) := G.drive ts [] none

/-! ## Whatever is read, the parser finds -/

variable {G : Grammar T N}

/-- The frame on top of the stack lets these operators be read on. -/
def Admits (G : Grammar T N) : List (Frame T N) → List T → Prop
  | [], _ => True
  | frame :: _, ops => ∀ level build, G.rule frame = some (level, build) →
      ∀ o ∈ ops, G.resolve level o = .shift

theorem admits_nil_right (G : Grammar T N) (stack : List (Frame T N)) : G.Admits stack [] := by
  cases stack with
  | nil => trivial
  | cons frame stack => exact fun _ _ _ _ h => absurd h List.not_mem_nil

theorem admits_append {stack : List (Frame T N)} {ops ops' : List T} :
    G.Admits stack (ops ++ ops') ↔ G.Admits stack ops ∧ G.Admits stack ops' := by
  cases stack with
  | nil => simp [Admits]
  | cons frame stack =>
      constructor
      · intro h
        exact ⟨fun l b hr o ho => h l b hr o (List.mem_append_left _ ho),
          fun l b hr o ho => h l b hr o (List.mem_append_right _ ho)⟩
      · rintro ⟨h, h'⟩ l b hr o ho
        exact (List.mem_append.mp ho).elim (h l b hr o) (h' l b hr o)

/-- An admitted operator leaves the stack as it is. -/
theorem reduceFor_of_admits {stack : List (Frame T N)} {op : T} (h : G.Admits stack [op]) (n : N) :
    G.reduceFor op stack n = some (stack, n) := by
  cases stack with
  | nil => rfl
  | cons frame stack =>
      rw [reduceFor]
      cases hr : G.rule frame with
      | none => rfl
      | some r =>
          dsimp only
          rw [h r.1 r.2 hr op (List.mem_singleton_self op)]

/-- The parser behind a phrase: what is on the stack, and the last value, come to the phrase's value
in front of any token that completes its rules. -/
def Comes (G : Grammar T N) (p : Phrase T N) (frames : List (Frame T N)) (last : N) : Prop :=
  ∀ stack, G.reduceAll (frames ++ stack) last = G.reduceAll stack p.value ∧
    ∀ o, (∀ l ∈ p.rights, G.resolve l o = .reduce) →
      G.reduceFor o (frames ++ stack) last = G.reduceFor o stack p.value

theorem comes_nil {p : Phrase T N} : G.Comes p [] p.value := fun _ => ⟨rfl, fun _ _ => rfl⟩

/-- A rule is completed after its last part. -/
theorem Comes.rule {p q : Phrase T N} {frames : List (Frame T N)} {last : N} {frame : Frame T N}
    {level : Nat} {build : N → N} (h : G.Comes p frames last)
    (hr : G.rule frame = some (level, build))
    (hvalue : q.value = build p.value) (hrights : q.rights = level :: p.rights) :
    G.Comes q (frames ++ [frame]) last := by
  intro stack
  obtain ⟨hall, hfor⟩ := h (frame :: stack)
  have hsplit : frames ++ [frame] ++ stack = frames ++ frame :: stack := by simp
  refine ⟨?_, fun o ho => ?_⟩
  · rw [hsplit, hall, reduceAll, hr, hvalue]
  · rw [hrights] at ho
    obtain ⟨hlevel, hrest⟩ := List.forall_mem_cons.mp ho
    rw [hsplit, hfor o hrest, reduceFor, hr]
    dsimp only
    rw [hlevel, hvalue]

section Drive

variable [DecidableEq T]

theorem drive_operand (t : T) (ts : List T) (stack : List (Frame T N)) :
    G.drive (t :: ts) stack none =
      match G.atom t with
      | some n => G.drive ts stack (some n)
      | none =>
          if (G.unaryLevel t).isSome then G.drive ts (.unary t :: stack) none
          else if t = G.lparen then G.drive ts (.group [] :: stack) none
          else none := rfl

theorem drive_behind (t : T) (ts : List T) (stack : List (Frame T N)) (n : N) :
    G.drive (t :: ts) stack (some n) =
      if (G.binaryLevel t).isSome then
        match G.reduceFor t stack n with
        | none => none
        | some (stack, lhs) => G.drive ts (.binary lhs t :: stack) none
      else
        match G.reduceAll stack n with
        | ([], n) => some (n, t :: ts)
        | (.group kids :: stack, n) =>
            if t = G.comma then G.drive ts (.group (kids ++ [n]) :: stack) none
            else if t = G.rparen then G.drive ts stack (some (G.grouped (kids ++ [n])))
            else none
        | _ => none := rfl

theorem drive_atom {t : T} {n : N} (h : G.atom t = some n) (ts : List T)
    (stack : List (Frame T N)) :
    G.drive (t :: ts) stack none = G.drive ts stack (some n) := by rw [drive_operand, h]

theorem drive_unary {t : T} {level : Nat} (h : G.unaryLevel t = some level) (ts : List T)
    (stack : List (Frame T N)) :
    G.drive (t :: ts) stack none = G.drive ts (.unary t :: stack) none := by
  rw [drive_operand, G.atom_unary t level h]
  dsimp only
  rw [if_pos (by rw [h]; rfl)]

theorem drive_lparen (ts : List T) (stack : List (Frame T N)) :
    G.drive (G.lparen :: ts) stack none = G.drive ts (.group [] :: stack) none := by
  rw [drive_operand, G.atom_lparen]
  dsimp only
  rw [if_neg (by rw [G.unaryLevel_lparen]; exact Bool.false_ne_true), if_pos rfl]

theorem drive_binary {t : T} {level : Nat} {assoc : Assoc} {n lhs : N}
    {stack stack' : List (Frame T N)}
    (h : G.binaryLevel t = some (level, assoc)) (hreduce : G.reduceFor t stack n = some (stack', lhs))
    (ts : List T) : G.drive (t :: ts) stack (some n) = G.drive ts (.binary lhs t :: stack') none := by
  rw [drive_behind, if_pos (by rw [h]; rfl), hreduce]

theorem drive_comma {kids : List N} {n n' : N} {stack stack' : List (Frame T N)}
    (h : G.reduceAll stack n = (.group kids :: stack', n')) (ts : List T) :
    G.drive (G.comma :: ts) stack (some n) = G.drive ts (.group (kids ++ [n']) :: stack') none := by
  rw [drive_behind, if_neg (by rw [G.binaryLevel_comma]; exact Bool.false_ne_true), h]
  dsimp only
  rw [if_pos rfl]

theorem drive_rparen {kids : List N} {n n' : N} {stack stack' : List (Frame T N)}
    (h : G.reduceAll stack n = (.group kids :: stack', n')) (ts : List T) :
    G.drive (G.rparen :: ts) stack (some n) = G.drive ts stack' (some (G.grouped (kids ++ [n']))) := by
  rw [drive_behind, if_neg (by rw [G.binaryLevel_rparen]; exact Bool.false_ne_true), h]
  dsimp only
  rw [if_neg G.rparen_ne_comma, if_pos rfl]

omit [DecidableEq T] in
theorem reduceAll_group (kids : List N) (stack : List (Frame T N)) (n : N) :
    G.reduceAll (.group kids :: stack) n = (.group kids :: stack, n) := rfl

/-- The parser reads the phrase, on a stack that lets it. -/
def Finds (G : Grammar T N) (p : Phrase T N) : Prop :=
  ∀ stack, G.Admits stack p.lefts → ∃ frames last, G.Comes p frames last ∧
    ∀ rest, G.drive (p.tokens ++ rest) stack none = G.drive rest (frames ++ stack) (some last)

/-- In parentheses, up to the token behind the phrase. -/
theorem Finds.inside {p : Phrase T N} (h : G.Finds p) (kids : List N) (stack : List (Frame T N)) :
    ∃ stack' last, G.reduceAll stack' last = (.group kids :: stack, p.value) ∧
      ∀ rest, G.drive (p.tokens ++ rest) (.group kids :: stack) none =
        G.drive rest stack' (some last) := by
  obtain ⟨frames, last, hcomes, hdrive⟩ :=
    h (.group kids :: stack) fun _ _ hr => (nomatch hr)
  exact ⟨_, last, (hcomes _).1.trans (reduceAll_group kids stack _), hdrive⟩

/-- The rest of a tuple. -/
theorem Finds.list {more : List (Phrase T N)} (h : ∀ q ∈ more, G.Finds q) (kids : List N)
    (stack : List (Frame T N)) {stack1 : List (Frame T N)} {n1 n : N}
    (h1 : G.reduceAll stack1 n1 = (.group kids :: stack, n)) (rest : List T) :
    G.drive ((more.flatMap fun q => G.comma :: q.tokens) ++ G.rparen :: rest) stack1 (some n1) =
      G.drive rest stack (some (G.grouped (kids ++ n :: more.map Phrase.value))) := by
  induction more generalizing kids stack1 n1 n with
  | nil => exact drive_rparen h1 rest
  | cons q more ih =>
      obtain ⟨hq, hmore⟩ := List.forall_mem_cons.mp h
      obtain ⟨stack2, last, h2, hdrive⟩ := hq.inside (kids ++ [n]) stack
      rw [List.flatMap_cons, List.append_assoc, List.cons_append, drive_comma h1, hdrive,
        ih hmore _ h2, List.map_cons, List.append_assoc, List.singleton_append]

/-- **What is read is found.** -/
theorem Reads.finds {p : Phrase T N} (h : G.Reads p) : G.Finds p := by
  induction h with
  | atom hatom =>
      exact fun stack _ => ⟨[], _, comes_nil, fun rest => drive_atom hatom rest stack⟩
  | @group p _ ih =>
      intro stack _
      obtain ⟨stack', last, hreduce, hdrive⟩ := ih.inside [] stack
      refine ⟨[], p.value, comes_nil, fun rest => ?_⟩
      rw [List.cons_append, List.cons_append, drive_lparen, List.append_assoc, hdrive]
      exact drive_rparen hreduce rest
  | @tuple p more _ hne _ ih ihmore =>
      intro stack _
      obtain ⟨stack', last, hreduce, hdrive⟩ := ih.inside [] stack
      have hgrouped : G.grouped ([] ++ p.value :: more.map Phrase.value) =
          G.tuple (p.value :: more.map Phrase.value) := by
        obtain ⟨q, more, rfl⟩ := List.exists_cons_of_ne_nil hne
        rfl
      refine ⟨[], _, comes_nil, fun rest => ?_⟩
      rw [List.append_assoc, List.append_assoc, List.cons_append, drive_lparen, hdrive,
        List.singleton_append, Finds.list ihmore [] stack hreduce, hgrouped]
      rfl
  | @unary op level p hop _ hshift ih =>
      intro stack _
      have hrule : G.rule (.unary op) = some (level, G.unary op) := by rw [rule, hop]; rfl
      obtain ⟨frames, last, hcomes, hdrive⟩ := ih (.unary op :: stack) fun l b hr o ho => by
        rw [hrule] at hr
        rw [← (Prod.mk.inj (Option.some.inj hr)).1]
        exact hshift o ho
      refine ⟨frames ++ [.unary op], last, hcomes.rule hrule rfl rfl, fun rest => ?_⟩
      rw [List.cons_append, drive_unary hop, hdrive, List.append_assoc, List.singleton_append]
  | @binary op level assoc p q hop _ _ hrights hshift ihp ihq =>
      intro stack hadmits
      obtain ⟨hlefts, hadmit⟩ := admits_append.mp hadmits
      have hrule : G.rule (.binary p.value op) = some (level, G.binary op p.value) := by
        rw [rule, hop]; rfl
      obtain ⟨frames, last, hcomes, hdrive⟩ := ihp stack hlefts
      obtain ⟨frames', last', hcomes', hdrive'⟩ := ihq (.binary p.value op :: stack)
        fun l b hr o ho => by
          rw [hrule] at hr
          rw [← (Prod.mk.inj (Option.some.inj hr)).1]
          exact hshift o ho
      refine ⟨frames' ++ [.binary p.value op], last', hcomes'.rule hrule rfl rfl, fun rest => ?_⟩
      have hreduce : G.reduceFor op (frames ++ stack) last = some (stack, p.value) := by
        rw [(hcomes stack).2 op hrights, reduceFor_of_admits hadmit]
      rw [List.append_assoc, List.cons_append, hdrive, drive_binary hop hreduce, hdrive',
        List.append_assoc, List.singleton_append]

end Drive

/-! ## Whatever the parser finds, is read -/

/-- The tokens that a stack stands for. A frame's left part is a phrase that was completed in front
of the operator, and the frame below let the operator be read on. -/
inductive Holds (G : Grammar T N) : List (Frame T N) → List T → Prop where
  | nil : Holds G [] []
  | unary {op : T} {level : Nat} {stack : List (Frame T N)} {ts : List T} :
      G.unaryLevel op = some level → Holds G stack ts → Holds G (.unary op :: stack) (ts ++ [op])
  | binary {op : T} {level : Nat} {assoc : Assoc} {p : Phrase T N} {stack : List (Frame T N)}
      {ts : List T} : G.binaryLevel op = some (level, assoc) → Holds G stack ts → G.Reads p →
      (∀ l ∈ p.rights, G.resolve l op = .reduce) → G.Admits stack (p.lefts ++ [op]) →
      Holds G (.binary p.value op :: stack) (ts ++ (p.tokens ++ [op]))
  | group {kids : List (Phrase T N)} {stack : List (Frame T N)} {ts : List T} :
      Holds G stack ts → (∀ q ∈ kids, G.Reads q) → Holds G (.group (kids.map Phrase.value) :: stack)
        (ts ++ G.lparen :: kids.flatMap fun q => q.tokens ++ [G.comma])

/-- **A rule that is completed** is a phrase, over what is below on the stack. -/
theorem Holds.complete {frame : Frame T N} {stack : List (Frame T N)} {ts : List T} {level : Nat}
    {build : N → N} {p : Phrase T N} (h : G.Holds (frame :: stack) ts)
    (hr : G.rule frame = some (level, build)) (hp : G.Reads p)
    (hadmits : G.Admits (frame :: stack) p.lefts) :
    ∃ q ts', G.Reads q ∧ G.Holds stack ts' ∧ q.value = build p.value ∧
      q.rights = level :: p.rights ∧
      G.Admits stack q.lefts ∧ ts' ++ q.tokens = ts ++ p.tokens := by
  have hshift := hadmits level build hr
  cases h with
  | unary hop hstack =>
      rw [rule, hop] at hr
      obtain ⟨rfl, rfl⟩ := Prod.mk.inj (Option.some.inj hr)
      exact ⟨_, _, .unary hop hp hshift, hstack, rfl, rfl, admits_nil_right G stack, by simp⟩
  | binary hop hstack hlhs hrights hadmit =>
      rw [rule, hop] at hr
      obtain ⟨rfl, rfl⟩ := Prod.mk.inj (Option.some.inj hr)
      exact ⟨_, _, .binary hop hlhs hp hrights hshift, hstack, rfl, rfl, hadmit, by simp⟩
  | group hstack hkids => cases hr

theorem Holds.reduceFor {stack stack' : List (Frame T N)} {ts : List T} {op : T} {n : N}
    {p : Phrase T N} (h : G.Holds stack ts) (hp : G.Reads p) (hadmits : G.Admits stack p.lefts)
    (hrights : ∀ l ∈ p.rights, G.resolve l op = .reduce)
    (hreduce : G.reduceFor op stack p.value = some (stack', n)) :
    ∃ q ts', G.Reads q ∧ G.Holds stack' ts' ∧ q.value = n ∧
      (∀ l ∈ q.rights, G.resolve l op = .reduce) ∧ G.Admits stack' (q.lefts ++ [op]) ∧
      ts' ++ q.tokens = ts ++ p.tokens := by
  induction stack generalizing ts p with
  | nil =>
      obtain ⟨rfl, rfl⟩ := Prod.mk.inj (Option.some.inj hreduce)
      exact ⟨p, ts, hp, h, rfl, hrights, trivial, rfl⟩
  | cons frame stack ih =>
      rw [Grammar.reduceFor] at hreduce
      cases hr : G.rule frame with
      | none =>
          rw [hr] at hreduce
          obtain ⟨rfl, rfl⟩ := Prod.mk.inj (Option.some.inj hreduce)
          refine ⟨p, ts, hp, h, rfl, hrights, fun _ _ hr' => ?_, rfl⟩
          rw [hr] at hr'
          cases hr'
      | some r =>
          obtain ⟨level, build⟩ := r
          rw [hr] at hreduce
          dsimp only at hreduce
          cases haction : G.resolve level op with
          | reduce =>
              obtain ⟨q, ts', hq, hstack, hvalue, hrights', hadmits', htokens⟩ :=
                h.complete hr hp hadmits
              rw [haction, ← hvalue] at hreduce
              obtain ⟨q', ts'', hq', hstack', hvalue', hlevels, hadmit, htokens'⟩ :=
                ih hstack hq hadmits' (by
                  rw [hrights']
                  exact List.forall_mem_cons.mpr ⟨haction, hrights⟩) hreduce
              exact ⟨q', ts'', hq', hstack', hvalue', hlevels, hadmit, htokens'.trans htokens⟩
          | shift =>
              rw [haction] at hreduce
              obtain ⟨rfl, rfl⟩ := Prod.mk.inj (Option.some.inj hreduce)
              refine ⟨p, ts, hp, h, rfl, hrights, admits_append.mpr ⟨hadmits, ?_⟩, rfl⟩
              intro l b hr' o ho
              rw [hr] at hr'
              rw [← (Prod.mk.inj (Option.some.inj hr')).1, List.mem_singleton.mp ho, haction]
          | reject =>
              rw [haction] at hreduce
              cases hreduce

theorem Holds.reduceAll {stack stack' : List (Frame T N)} {ts : List T} {n : N} {p : Phrase T N}
    (h : G.Holds stack ts) (hp : G.Reads p) (hadmits : G.Admits stack p.lefts)
    (hreduce : G.reduceAll stack p.value = (stack', n)) :
    ∃ q ts', G.Reads q ∧ G.Holds stack' ts' ∧ q.value = n ∧ ts' ++ q.tokens = ts ++ p.tokens := by
  induction stack generalizing ts p with
  | nil =>
      obtain ⟨rfl, rfl⟩ := Prod.mk.inj hreduce
      exact ⟨p, ts, hp, h, rfl, rfl⟩
  | cons frame stack ih =>
      rw [Grammar.reduceAll] at hreduce
      cases hr : G.rule frame with
      | none =>
          rw [hr] at hreduce
          obtain ⟨rfl, rfl⟩ := Prod.mk.inj hreduce
          exact ⟨p, ts, hp, h, rfl, rfl⟩
      | some r =>
          obtain ⟨q, ts', hq, hstack, hvalue, _, hadmits', htokens⟩ :=
            h.complete (show G.rule frame = some (r.1, r.2) from hr) hp hadmits
          rw [hr] at hreduce
          dsimp only at hreduce
          rw [← hvalue] at hreduce
          obtain ⟨q', ts'', hq', hstack', hvalue', htokens'⟩ := ih hstack hq hadmits' hreduce
          exact ⟨q', ts'', hq', hstack', hvalue', htokens'.trans htokens⟩

/-- Commas behind the parts, or in front of them. -/
theorem flatMap_comma (q : Phrase T N) (kids : List (Phrase T N)) (p : Phrase T N) :
    ((q :: kids).flatMap fun r => r.tokens ++ [G.comma]) ++ p.tokens =
      q.tokens ++ (kids ++ [p]).flatMap fun r => G.comma :: r.tokens := by
  induction kids generalizing q with
  | nil => simp
  | cons r kids ih =>
      rw [List.flatMap_cons, List.append_assoc, ih]
      simp

/-- **Parentheses that are closed** are a phrase. -/
theorem Reads.grouped {kids : List (Phrase T N)} {p : Phrase T N} (hkids : ∀ q ∈ kids, G.Reads q)
    (hp : G.Reads p) : G.Reads {
      tokens := G.lparen :: (kids.flatMap fun q => q.tokens ++ [G.comma]) ++ p.tokens ++ [G.rparen]
      value := G.grouped (kids.map Phrase.value ++ [p.value]) } := by
  cases kids with
  | nil => exact .group hp
  | cons q kids =>
      obtain ⟨hq, hkids⟩ := List.forall_mem_cons.mp hkids
      have hmore : ∀ r ∈ kids ++ [p], G.Reads r := by
        intro r hr
        rcases List.mem_append.mp hr with hr | hr
        · exact hkids r hr
        · rwa [List.mem_singleton.mp hr]
      have htuple := Reads.tuple hq (by simp) hmore
      have hvalue : G.grouped ((q :: kids).map Phrase.value ++ [p.value]) =
          G.tuple (q.value :: (kids ++ [p]).map Phrase.value) := by
        cases kids <;> simp [Grammar.grouped]
      rw [hvalue, List.cons_append, flatMap_comma]
      exact htuple

/-- No token in front of which an expression goes on. -/
def Stops (G : Grammar T N) (rest : List T) : Prop := ∀ t ∈ rest.head?, G.binaryLevel t = none

section Drive

variable [DecidableEq T]

/-- **What is found is read**, from any point of a parse. -/
theorem Holds.drive {toks : List T} {stack : List (Frame T N)} {ts rest : List T} {n : N}
    (h : G.Holds stack ts) :
    (G.drive toks stack none = some (n, rest) →
      ∃ q, G.Reads q ∧ q.value = n ∧ ts ++ toks = q.tokens ++ rest ∧ G.Stops rest) ∧
    ∀ us c, G.Reads { tokens := us, value := c } → G.drive toks stack (some c) = some (n, rest) →
      ∃ q, G.Reads q ∧ q.value = n ∧ ts ++ us ++ toks = q.tokens ++ rest ∧ G.Stops rest := by
  induction toks generalizing stack ts with
  | nil =>
      refine ⟨fun hdrive => (nomatch hdrive), fun us c hc hdrive => ?_⟩
      rw [Grammar.drive] at hdrive
      cases hreduce : G.reduceAll stack c with
      | mk stack' n' =>
          obtain ⟨q, ts', hq, hstack, hvalue, htokens⟩ :=
            h.reduceAll hc (admits_nil_right G stack) hreduce
          rw [hreduce] at hdrive
          cases stack' with
          | nil =>
              obtain ⟨rfl, rfl⟩ := Prod.mk.inj (Option.some.inj hdrive)
              cases hstack
              exact ⟨q, hq, hvalue, by rw [List.append_nil, List.append_nil, ← htokens]; rfl,
                fun _ ht => nomatch ht⟩
          | cons frame stack' => cases hdrive
  | cons t toks ih =>
      constructor
      · -- in front of an operand: an atom, a prefix operator or a parenthesis
        intro hdrive
        rw [Grammar.drive] at hdrive
        cases hatom : G.atom t with
        | some c =>
            rw [hatom] at hdrive
            obtain ⟨q, hq, hvalue, htokens, hstops⟩ := (ih h).2 [t] c (.atom hatom) hdrive
            exact ⟨q, hq, hvalue, by rw [← htokens]; simp, hstops⟩
        | none =>
            rw [hatom] at hdrive
            dsimp only at hdrive
            split at hdrive
            · rename_i hop
              obtain ⟨level, hlevel⟩ := Option.isSome_iff_exists.mp hop
              obtain ⟨q, hq, hvalue, htokens, hstops⟩ := (ih (.unary hlevel h)).1 hdrive
              exact ⟨q, hq, hvalue, by rw [← htokens]; simp, hstops⟩
            · split at hdrive
              · rename_i hparen
                obtain ⟨q, hq, hvalue, htokens, hstops⟩ :=
                  (ih (@Holds.group T N G [] stack ts h fun _ hq => absurd hq List.not_mem_nil)).1 hdrive
                exact ⟨q, hq, hvalue, by rw [← htokens, hparen]; simp, hstops⟩
              · cases hdrive
      · -- behind an operand
        intro us c hc hdrive
        rw [Grammar.drive] at hdrive
        split at hdrive
        · rename_i hop
          obtain ⟨⟨level, assoc⟩, hlevel⟩ := Option.isSome_iff_exists.mp hop
          cases hreduce : G.reduceFor t stack c with
          | none =>
              rw [hreduce] at hdrive
              cases hdrive
          | some r =>
              obtain ⟨stack', lhs⟩ := r
              rw [hreduce] at hdrive
              obtain ⟨p, ts', hp, hstack, rfl, hrights, hadmit, htokens'⟩ :=
                h.reduceFor hc (admits_nil_right G stack)
                  (fun _ hl => absurd hl List.not_mem_nil) hreduce
              obtain ⟨q, hq, hvalue, htokens, hstops⟩ :=
                (ih (.binary hlevel hstack hp hrights hadmit)).1 hdrive
              refine ⟨q, hq, hvalue, ?_, hstops⟩
              rw [← htokens, ← List.append_assoc, htokens']
              simp
        · rename_i hop
          have hnone : G.binaryLevel t = none := Option.not_isSome_iff_eq_none.mp hop
          cases hreduce : G.reduceAll stack c with
          | mk stack' n' =>
              obtain ⟨p, ts', hp, hstack, hvalue', htokens'⟩ :=
                h.reduceAll hc (admits_nil_right G stack) hreduce
              rw [hreduce] at hdrive
              cases hstack with
              | nil =>
                  obtain ⟨rfl, rfl⟩ := Prod.mk.inj (Option.some.inj hdrive)
                  refine ⟨p, hp, hvalue', by rw [← htokens']; rfl, fun t' ht => ?_⟩
                  rwa [← Option.some.inj ht]
              | unary => cases hdrive
              | binary => cases hdrive
              | @group kids stack' ts' hstack hkids =>
                  dsimp only at hdrive htokens'
                  split at hdrive
                  · rename_i hcomma
                    have hkids' : ∀ r ∈ kids ++ [p], G.Reads r := by
                      intro r hr
                      rcases List.mem_append.mp hr with hr | hr
                      · exact hkids r hr
                      · rwa [List.mem_singleton.mp hr]
                    have hgroup := Holds.group hstack hkids'
                    rw [List.map_append, List.map_singleton, hvalue'] at hgroup
                    obtain ⟨q, hq, hvalue, htokens, hstops⟩ := (ih hgroup).1 hdrive
                    refine ⟨q, hq, hvalue, ?_, hstops⟩
                    rw [← htokens, ← htokens', hcomma]
                    simp
                  · split at hdrive
                    · rename_i hparen
                      have hgroup := Reads.grouped hkids hp
                      rw [hvalue'] at hgroup
                      obtain ⟨q, hq, hvalue, htokens, hstops⟩ := (ih hstack).2 _ _ hgroup hdrive
                      refine ⟨q, hq, hvalue, ?_, hstops⟩
                      rw [← htokens, ← htokens', hparen]
                      simp
                    · cases hdrive

/-- **The parser finds exactly what is read**: the longest expression at the beginning of the
tokens, in front of a token with which none goes on. -/
theorem parse_eq_some {ts rest : List T} {n : N} : G.parse ts = some (n, rest) ↔
    ∃ p, G.Reads p ∧ p.value = n ∧ ts = p.tokens ++ rest ∧ G.Stops rest := by
  constructor
  · intro h
    exact (Holds.drive .nil).1 h
  · rintro ⟨p, hp, rfl, rfl, hstops⟩
    obtain ⟨frames, last, hcomes, hdrive⟩ := hp.finds [] trivial
    have hreduce := (hcomes []).1
    rw [parse, hdrive]
    cases rest with
    | nil => rw [Grammar.drive, hreduce, Grammar.reduceAll]
    | cons t rest =>
        have hnone : G.binaryLevel t = none := hstops t rfl
        rw [Grammar.drive, if_neg (by rw [hnone]; exact Bool.false_ne_true), hreduce,
          Grammar.reduceAll]

/-- **A text is read in one way.** -/
theorem Reads.unique {p q : Phrase T N} (hp : G.Reads p) (hq : G.Reads q)
    (h : p.tokens = q.tokens) : p.value = q.value := by
  have hstops : G.Stops [] := fun _ ht => nomatch ht
  have hp' : G.parse p.tokens = some (p.value, []) :=
    parse_eq_some.mpr ⟨p, hp, rfl, (List.append_nil _).symm, hstops⟩
  have hq' : G.parse p.tokens = some (q.value, []) :=
    parse_eq_some.mpr ⟨q, hq, rfl, by rw [h, List.append_nil], hstops⟩
  exact (Prod.mk.inj (Option.some.inj (hp'.symm.trans hq'))).1

end Drive

/-! ## Writing an expression -/

/-- The phrase has no operator looser than `k` at its edges. -/
structure AtLeast (G : Grammar T N) (k : Nat) (p : Phrase T N) : Prop where
  lefts : ∀ o ∈ p.lefts, ∃ level assoc, G.binaryLevel o = some (level, assoc) ∧ k ≤ level
  rights : ∀ level ∈ p.rights, k ≤ level

/-- `p` is read from these tokens, with nothing looser than `k` at its edges. -/
def Writes (G : Grammar T N) (k : Nat) (ts : List T) (n : N) : Prop :=
  ∃ p, G.Reads p ∧ p.tokens = ts ∧ p.value = n ∧ G.AtLeast k p

theorem resolve_of_lt {rule level : Nat} {assoc : Assoc} {op : T}
    (hop : G.binaryLevel op = some (level, assoc)) (h : level < rule) : G.resolve rule op = .reduce := by
  rw [resolve, hop]
  exact if_pos h

theorem resolve_of_gt {rule level : Nat} {assoc : Assoc} {op : T}
    (hop : G.binaryLevel op = some (level, assoc)) (h : rule < level) : G.resolve rule op = .shift := by
  rw [resolve, hop]
  exact (if_neg (by omega)).trans (if_pos h)

theorem resolve_self {level : Nat} {op : T} (hop : G.binaryLevel op = some (level, .left)) :
    G.resolve level op = .reduce := by
  rw [resolve, hop]
  exact (if_neg (by omega)).trans (if_neg (by omega))

/-- What is tighter than the rule is read on. -/
theorem AtLeast.shift {k rule : Nat} {p : Phrase T N} (h : G.AtLeast k p) (hk : rule < k) :
    ∀ o ∈ p.lefts, G.resolve rule o = .shift := by
  intro o ho
  obtain ⟨level, assoc, hop, hle⟩ := h.lefts o ho
  exact resolve_of_gt hop (by omega)

theorem writes_atom {t : T} {n : N} (h : G.atom t = some n) (k : Nat) : G.Writes k [t] n :=
  ⟨_, .atom h, rfl, rfl, fun _ h => absurd h List.not_mem_nil, fun _ h => absurd h List.not_mem_nil⟩

theorem Writes.mono {k k' : Nat} {ts : List T} {n : N} (h : G.Writes k ts n) (hk : k' ≤ k) :
    G.Writes k' ts n := by
  obtain ⟨p, hp, htokens, hvalue, hlefts, hrights⟩ := h
  refine ⟨p, hp, htokens, hvalue, fun o ho => ?_, fun l hl => hk.trans (hrights l hl)⟩
  obtain ⟨level, assoc, hop, hle⟩ := hlefts o ho
  exact ⟨level, assoc, hop, hk.trans hle⟩

/-- Anything may stand in parentheses. -/
theorem Writes.group {k : Nat} {ts : List T} {n : N} (h : G.Writes k ts n) (k' : Nat) :
    G.Writes k' (G.lparen :: ts ++ [G.rparen]) n := by
  obtain ⟨p, hp, rfl, rfl, _⟩ := h
  exact ⟨_, .group hp, rfl, rfl, fun _ h => absurd h List.not_mem_nil,
    fun _ h => absurd h List.not_mem_nil⟩

/-- Two parts or more, each behind a comma but the first. -/
theorem Writes.tuple {n : N} {ts : List T} {more : List (List T × N)} (h : G.Writes 0 ts n)
    (hne : more ≠ []) (hmore : ∀ q ∈ more, G.Writes 0 q.1 q.2) (k : Nat) :
    G.Writes k (G.lparen :: ts ++ (more.flatMap fun q => G.comma :: q.1) ++ [G.rparen])
      (G.tuple (n :: more.map Prod.snd)) := by
  obtain ⟨p, hp, rfl, rfl, _⟩ := h
  obtain ⟨qs, hqs, htokens, hvalues⟩ : ∃ qs : List (Phrase T N), (∀ q ∈ qs, G.Reads q) ∧
      (qs.flatMap fun q => G.comma :: q.tokens) = (more.flatMap fun q => G.comma :: q.1) ∧
      qs.map Phrase.value = more.map Prod.snd := by
    clear hne
    induction more with
    | nil => exact ⟨[], fun _ h => absurd h List.not_mem_nil, rfl, rfl⟩
    | cons q more ih =>
        obtain ⟨⟨r, hr, htokens, hvalue, _⟩, hmore⟩ := List.forall_mem_cons.mp hmore
        obtain ⟨qs, hqs, htokens', hvalues⟩ := ih hmore
        refine ⟨r :: qs, List.forall_mem_cons.mpr ⟨hr, hqs⟩, ?_, ?_⟩
        · rw [List.flatMap_cons, List.flatMap_cons, htokens, htokens']
        · rw [List.map_cons, List.map_cons, hvalue, hvalues]
  have hqne : qs ≠ [] := by
    rintro rfl
    exact hne (List.map_eq_nil_iff.mp hvalues.symm)
  refine ⟨_, .tuple hp hqne hqs, by rw [htokens], by rw [hvalues], fun _ h => absurd h List.not_mem_nil,
    fun _ h => absurd h List.not_mem_nil⟩

/-- A prefix operator, where no infix operator has its level. -/
theorem Writes.unary {op : T} {level : Nat} {ts : List T} {n : N}
    (hop : G.unaryLevel op = some level)
    (hfree : ∀ o assoc, G.binaryLevel o ≠ some (level, assoc)) (h : G.Writes level ts n) :
    G.Writes level (op :: ts) (G.unary op n) := by
  obtain ⟨p, hp, rfl, rfl, hlefts, hrights⟩ := h
  refine ⟨_, .unary hop hp fun o ho => ?_, rfl, rfl, fun _ h => absurd h List.not_mem_nil,
    List.forall_mem_cons.mpr ⟨le_rfl, hrights⟩⟩
  obtain ⟨l, assoc, hl, hle⟩ := hlefts o ho
  refine resolve_of_gt hl (lt_of_le_of_ne hle ?_)
  rintro rfl
  exact hfree o assoc hl

/-- **An infix operator.** The part on the left may have the operator's level where it groups to the
left; the part on the right is tighter. -/
theorem Writes.binary {op : T} {level k : Nat} {assoc : Assoc} {ts us : List T} {n m : N}
    (hop : G.binaryLevel op = some (level, assoc))
    (hk : level < k ∨ (k = level ∧ assoc = .left)) (hleft : G.Writes k ts n)
    (hright : G.Writes (level + 1) us m) :
    G.Writes level (ts ++ op :: us) (G.binary op n m) := by
  obtain ⟨p, hp, rfl, rfl, hlefts, hrights⟩ := hleft
  obtain ⟨q, hq, rfl, rfl, hq'⟩ := hright
  have hle : level ≤ k := by omega
  refine ⟨_, .binary hop hp hq (fun l hl => ?_) (hq'.shift (Nat.lt_succ_self level)), rfl, rfl,
    fun o ho => ?_, List.forall_mem_cons.mpr ⟨le_rfl, fun l hl => ?_⟩⟩
  · rcases Nat.lt_or_ge level l with hlt | hge
    · exact resolve_of_lt hop hlt
    · have hl' := hrights l hl
      obtain rfl : l = level := by omega
      obtain ⟨_, rfl⟩ := hk.resolve_left (by omega)
      exact resolve_self hop
  · rcases List.mem_append.mp ho with ho | ho
    · obtain ⟨l, assoc', hl, hle'⟩ := hlefts o ho
      exact ⟨l, assoc', hl, hle.trans hle'⟩
    · obtain rfl := List.mem_singleton.mp ho
      exact ⟨level, assoc, hop, le_rfl⟩
  · exact (Nat.le_succ level).trans (hq'.rights l hl)

end Grammar

end Precedence
