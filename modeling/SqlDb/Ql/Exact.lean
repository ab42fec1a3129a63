import SqlDb.Base.Outcome
import SqlDb.Ql.Expr

/-!
# Exact values

An expression's value over the unbounded integers: a quotient is rounded toward zero, and a
remainder has the dividend's sign. `qlEval` gives that value, or it fails; and if the names
are columns and the types fit, it fails just where a subexpression divides by zero or has a
result that is no `int64_t`. No operation it carries out is undefined.
-/

namespace SqlDb

open Outcome

/-- A value, its integers unbounded. -/
inductive ExactValue where
  | error
  | num (n : Int)
  | str (s : Bytes)
deriving DecidableEq

def Value.exact : Value → ExactValue
  | .error => .error
  | .int64 v => .num v.toInt
  | .bytes s => .str s

namespace ExactValue

def bool (v : Bool) : ExactValue := .num (if v then 1 else 0)

/-- The integer, if it is one. -/
def number : ExactValue → Option Int
  | .num n => some n
  | _ => none

/-- Values of one type compare. -/
def compare : ExactValue → ExactValue → Option Ordering
  | .num n, .num k => some (cmp n k)
  | .str s, .str t => some (cmp s t)
  | .error, .error => some .eq
  | _, _ => none

end ExactValue

/-- There is no quotient by zero. -/
def QLArith.exact (type : QLArith) (a b : Int) : Option Int :=
  match type with
  | .add => some (a + b)
  | .sub => some (a - b)
  | .mul => some (a * b)
  | .div => if b = 0 then none else some (a.tdiv b)
  | .mod => if b = 0 then none else some (a.tmod b)

/-- The value over the unbounded integers, if there is one. -/
def QLNode.exact : QLNode → Record → Option ExactValue
  | .int64 v, _ => some (.num v.toInt)
  | .str v, _ => some (.str v)
  | .sym name, env => (env.get name).map Value.exact
  | .neg kid, env => do
      let v ← kid.exact env
      let n ← v.number
      return .num (-n)
  | .not kid, env => do
      let v ← kid.exact env
      let n ← v.number
      return .bool (n = 0)
  | .logic type lhs rhs, env => do
      let a ← lhs.exact env
      let b ← rhs.exact env
      let n ← a.number
      let k ← b.number
      return .bool (type.apply (n ≠ 0) (k ≠ 0))
  | .cmp type lhs rhs, env => do
      let a ← lhs.exact env
      let b ← rhs.exact env
      let c ← a.compare b
      return .bool (type.holds c)
  | .arith type lhs rhs, env => do
      let a ← lhs.exact env
      let b ← rhs.exact env
      let n ← a.number
      let k ← b.number
      let r ← type.exact n k
      return .num r
  | .tup _, _ => none
  | .star, _ => none
  | .uninit, _ => none

/-! ## Names and types -/

/-- Both sides need to be numbers. -/
def bothNumbers (s t : Option ValueType) : Option ValueType :=
  if s = some .int64 ∧ t = some .int64 then some .int64 else none

/-- The type of an expression whose names resolve and whose operands fit. -/
def QLNode.typeIn (env : Record) : QLNode → Option ValueType
  | .int64 _ => some .int64
  | .str _ => some .bytes
  | .sym name => (env.get name).map Value.type
  | .neg kid => bothNumbers (kid.typeIn env) (kid.typeIn env)
  | .not kid => bothNumbers (kid.typeIn env) (kid.typeIn env)
  | .logic _ lhs rhs => bothNumbers (lhs.typeIn env) (rhs.typeIn env)
  | .cmp _ lhs rhs =>
      if lhs.typeIn env ≠ none ∧ lhs.typeIn env = rhs.typeIn env then some .int64 else none
  | .arith _ lhs rhs => bothNumbers (lhs.typeIn env) (rhs.typeIn env)
  | .tup _ => none
  | .star => none
  | .uninit => none

/-- All names are columns, and all operands are of a type that fits. -/
def QLNode.Fits (node : QLNode) (env : Record) : Prop := node.typeIn env ≠ none

/-! ## Limits -/

/-- An `int64_t` has the value. -/
def IsInt64 (r : Int) : Prop := Int64.minValue.toInt ≤ r ∧ r ≤ Int64.maxValue.toInt

instance (r : Int) : Decidable (IsInt64 r) := by
  unfold IsInt64
  infer_instance

/-- The operation divides by zero, or its result is no `int64_t`. A remainder goes with its
quotient. -/
def QLArith.PastLimit (type : QLArith) (a b : Int) : Prop :=
  match type with
  | .add => ¬ IsInt64 (a + b)
  | .sub => ¬ IsInt64 (a - b)
  | .mul => ¬ IsInt64 (a * b)
  | .div => b = 0 ∨ ¬ IsInt64 (a.tdiv b)
  | .mod => b = 0 ∨ ¬ IsInt64 (a.tdiv b)

/-- The expression's own operation is past the limit, on the exact values of its operands. -/
def QLNode.PastLimit (env : Record) : QLNode → Prop
  | .neg kid => ∃ n, kid.exact env = some (.num n) ∧ ¬ IsInt64 (-n)
  | .arith type lhs rhs => ∃ n k, lhs.exact env = some (.num n) ∧ rhs.exact env = some (.num k) ∧
      type.PastLimit n k
  | _ => False

/-- The subexpressions, itself the first. -/
def QLNode.subs : QLNode → List QLNode
  | .neg kid => .neg kid :: kid.subs
  | .not kid => .not kid :: kid.subs
  | .logic type lhs rhs => .logic type lhs rhs :: (lhs.subs ++ rhs.subs)
  | .cmp type lhs rhs => .cmp type lhs rhs :: (lhs.subs ++ rhs.subs)
  | .arith type lhs rhs => .arith type lhs rhs :: (lhs.subs ++ rhs.subs)
  | node => [node]

/-! ## One operation -/

section Arith

variable {a b : Int64}

/-- `__builtin_add_overflow` and its like: whether the wrapped result is not the exact one. -/
def builtinOverflow (wrapped : Int64) (exact : Int) : Except Bytes Int64 :=
  if wrapped.toInt ≠ exact then .error (.ofString "integer overflow") else .ok wrapped

/-- A division as the language has it: undefined for a divisor of zero, and for the quotient that is
too large. -/
def languageDiv (op : Int64 → Int64 → Int64) (a b : Int64) : Option Int64 :=
  if b = 0 ∨ ¬ IsInt64 (a.toInt.tdiv b.toInt) then none else some (op a b)

/-- `arith` in the operations of the language. Nothing is the result of an undefined one. -/
def QLArith.run (type : QLArith) (a b : Int64) : Option (Except Bytes Int64) :=
  match type with
  | .add => some (builtinOverflow (a + b) (a.toInt + b.toInt))
  | .sub => some (builtinOverflow (a - b) (a.toInt - b.toInt))
  | .mul => some (builtinOverflow (a * b) (a.toInt * b.toInt))
  | .div =>
      if b = 0 then some (.error (.ofString "division by zero"))
      else if a = .minValue ∧ b = -1 then some (.error (.ofString "integer overflow"))
      else (languageDiv (· / ·) a b).map .ok
  | .mod =>
      if b = 0 then some (.error (.ofString "modulo by zero"))
      else if a = .minValue ∧ b = -1 then some (.error (.ofString "integer overflow"))
      else (languageDiv (· % ·) a b).map .ok

theorem isInt64_toInt (v : Int64) : IsInt64 v.toInt := ⟨v.minValue_le_toInt, v.toInt_le⟩

theorem inInt64_pos {r : Int} (h : IsInt64 r) : inInt64 r = .ok (.ofInt r) := if_pos h

theorem inInt64_neg {r : Int} (h : ¬ IsInt64 r) :
    inInt64 r = .error (.ofString "integer overflow") := if_neg h

theorem inInt64_spec (r : Int) :
    match inInt64 r with
    | .ok v => v.toInt = r ∧ IsInt64 r
    | .error _ => ¬ IsInt64 r := by
  by_cases h : IsInt64 r
  · have hmax := Int64.toInt_maxValue_add_one
    have hlt := h.2
    rw [inInt64_pos h]
    exact ⟨Int64.toInt_ofInt_of_le h.1 (by omega), h⟩
  · rw [inInt64_neg h]
    exact h

/-- Only the least integer has a quotient that is too large. -/
theorem isInt64_tdiv :
    IsInt64 (a.toInt.tdiv b.toInt) ↔ ¬ (a = .minValue ∧ b = -1) := by
  constructor
  · intro h hc
    rw [hc.1, hc.2] at h
    exact absurd h (by decide)
  · intro h
    by_cases ha : a = .minValue
    · rw [← Int64.toInt_div_of_ne_right a b fun hb' => h ⟨ha, hb'⟩]
      exact isInt64_toInt _
    · rw [← Int64.toInt_div_of_ne_left a b ha]
      exact isInt64_toInt _

theorem toInt_ne_zero (h : b ≠ 0) : b.toInt ≠ 0 := fun h0 => h (Int64.toInt_inj.mp h0)

/-- **An operation is exact, or past its limit.** -/
theorem QLArith.apply_spec (type : QLArith) (a b : Int64) :
    match type.apply a b with
    | .ok r => type.exact a.toInt b.toInt = some r.toInt ∧ ¬ type.PastLimit a.toInt b.toInt
    | .error _ => type.PastLimit a.toInt b.toInt := by
  have hbuiltin : ∀ r : Int, match inInt64 r with
      | .ok v => some r = some v.toInt ∧ ¬ ¬ IsInt64 r
      | .error _ => ¬ IsInt64 r := by
    intro r
    have hspec := inInt64_spec r
    cases hr : inInt64 r with
    | error _ =>
        rw [hr] at hspec
        exact hspec
    | ok v =>
        rw [hr] at hspec
        exact ⟨congrArg some hspec.1.symm, not_not.mpr hspec.2⟩
  -- both divisions fail on the same operands
  have hdiv : ∀ err err' : Bytes, ∀ q : Int64, ∀ e : Int, (b ≠ 0 → ¬ (a = .minValue ∧ b = -1) →
      q.toInt = e) →
      match (if b = 0 then Except.error err else if a = .minValue ∧ b = -1 then .error err'
        else .ok q) with
      | .ok r => (if b.toInt = 0 then none else some e) = some r.toInt ∧
          ¬ (b.toInt = 0 ∨ ¬ IsInt64 (a.toInt.tdiv b.toInt))
      | .error _ => b.toInt = 0 ∨ ¬ IsInt64 (a.toInt.tdiv b.toInt) := by
    intro err err' q e hq
    by_cases hb : b = 0
    · rw [if_pos hb]
      exact Or.inl (congrArg Int64.toInt hb)
    · rw [if_neg hb]
      by_cases hmin : a = .minValue ∧ b = -1
      · rw [if_pos hmin]
        exact Or.inr fun h => isInt64_tdiv.mp h hmin
      · rw [if_neg hmin]
        refine ⟨?_, fun h => h.elim (toInt_ne_zero hb) fun h => h (isInt64_tdiv.mpr hmin)⟩
        rw [if_neg (toInt_ne_zero hb), hq hb hmin]
  cases type with
  | add => exact hbuiltin _
  | sub => exact hbuiltin _
  | mul => exact hbuiltin _
  | div =>
      refine hdiv _ _ _ _ fun _ hmin => ?_
      by_cases ha : a = .minValue
      · exact Int64.toInt_div_of_ne_right a b fun hb' => hmin ⟨ha, hb'⟩
      · exact Int64.toInt_div_of_ne_left a b ha
  | mod => exact hdiv _ _ _ _ fun _ _ => Int64.toInt_mod a b

theorem builtinOverflow_eq {wrapped : Int64} {r : Int} (h : wrapped.toInt = r.bmod (2 ^ 64)) :
    builtinOverflow wrapped r = inInt64 r := by
  unfold builtinOverflow
  by_cases hr : IsInt64 r
  · have hwrap : wrapped.toInt = r := by
      have h1 := Int64.toInt_minValue
      have h2 := Int64.toInt_maxValue
      obtain ⟨hlo, hhi⟩ := hr
      rw [h]
      exact Int.bmod_eq_of_le_mul_two (by omega) (by omega)
    rw [if_neg (not_not.mpr hwrap), inInt64_pos hr, ← hwrap, Int64.ofInt_toInt]
  · have hne : wrapped.toInt ≠ r := fun he => hr (he ▸ isInt64_toInt wrapped)
    rw [if_pos hne, inInt64_neg hr]

/-- **No operation is undefined**, whatever the operands. -/
theorem QLArith.run_eq (type : QLArith) (a b : Int64) : type.run a b = some (type.apply a b) := by
  have hdefined : ∀ op : Int64 → Int64 → Int64, b ≠ 0 → ¬ (a = .minValue ∧ b = -1) →
      languageDiv op a b = some (op a b) := by
    intro op hb hmin
    unfold languageDiv
    rw [if_neg fun h => h.elim hb fun h => h (isInt64_tdiv.mpr hmin)]
  cases type with
  | add => exact congrArg some (builtinOverflow_eq (Int64.toInt_add a b))
  | sub => exact congrArg some (builtinOverflow_eq (Int64.toInt_sub a b))
  | mul => exact congrArg some (builtinOverflow_eq (Int64.toInt_mul a b))
  | div =>
      unfold QLArith.run QLArith.apply
      dsimp only
      split
      · rfl
      · rename_i hb
        split
        · rfl
        · rename_i hmin
          rw [hdefined _ hb hmin]
          rfl
  | mod =>
      unfold QLArith.run QLArith.apply
      dsimp only
      split
      · rfl
      · rename_i hb
        split
        · rfl
        · rename_i hmin
          rw [hdefined _ hb hmin]
          rfl

end Arith

/-! ## Expressions -/

section Expr

variable {env : Record}

theorem exact_makeBool (b : Bool) : (makeBool b).exact = .bool b := by
  cases b <;> rfl

theorem eq_zero_iff {n : Int64} : n.toInt = 0 ↔ n = 0 := Int64.toInt_inj (y := 0)

theorem number_eq_ok {v : Value} {err : Bytes} {n : Int64} :
    v.number err = .ok n ↔ v = .int64 n := by
  cases v <;> simp [Value.number]

theorem numbers_eq_ok {a b : Value} {err : Bytes} {p : Int64 × Int64} :
    numbers a b err = .ok p ↔ a = .int64 p.1 ∧ b = .int64 p.2 := by
  obtain ⟨n, k⟩ := p
  cases a <;> cases b <;> simp [numbers]

theorem qlCompare_exact {a b : Value} {c : Ordering} (h : qlCompare a b = .ok c) :
    a.exact.compare b.exact = some c := by
  unfold qlCompare at h
  split at h
  · cases h
  · rename_i htype
    cases h
    -- values of two types are not compared
    cases a <;> cases b <;> first | rfl | exact absurd (fun h => by cases h) htype

/-! ### What a value is made of -/

section Made

variable {kid lhs rhs : QLNode} {v : Value}

theorem qlEval_neg (h : qlEval (.neg kid) env = .ok v) :
    ∃ n r, qlEval kid env = .ok (.int64 n) ∧ QLArith.sub.apply 0 n = .ok r ∧ v = .int64 r := by
  rw [qlEval] at h
  obtain ⟨w, hw, h⟩ := bind_eq_ok.mp h
  obtain ⟨n, hn, h⟩ := bind_eq_ok.mp h
  obtain ⟨r, hr, h⟩ := bind_eq_ok.mp h
  exact ⟨n, r, number_eq_ok.mp hn ▸ hw, hr, (Except.ok.inj h).symm⟩

theorem qlEval_not (h : qlEval (.not kid) env = .ok v) :
    ∃ n, qlEval kid env = .ok (.int64 n) ∧ v = makeBool (n = 0) := by
  rw [qlEval] at h
  obtain ⟨w, hw, h⟩ := bind_eq_ok.mp h
  obtain ⟨n, hn, h⟩ := bind_eq_ok.mp h
  exact ⟨n, number_eq_ok.mp hn ▸ hw, (Except.ok.inj h).symm⟩

theorem qlEval_logic {type : QLLogic} (h : qlEval (.logic type lhs rhs) env = .ok v) :
    ∃ n k, qlEval lhs env = .ok (.int64 n) ∧ qlEval rhs env = .ok (.int64 k) ∧
      v = makeBool (type.apply (n ≠ 0) (k ≠ 0)) := by
  rw [qlEval] at h
  obtain ⟨a, ha, h⟩ := bind_eq_ok.mp h
  obtain ⟨b, hb, h⟩ := bind_eq_ok.mp h
  obtain ⟨⟨n, k⟩, hn, hv⟩ := bind_eq_ok.mp h
  obtain ⟨rfl, rfl⟩ := numbers_eq_ok.mp hn
  exact ⟨n, k, ha, hb, (Except.ok.inj hv).symm⟩

theorem qlEval_compared {type : QLCmp} (h : qlEval (.cmp type lhs rhs) env = .ok v) :
    ∃ a b c, qlEval lhs env = .ok a ∧ qlEval rhs env = .ok b ∧ qlCompare a b = .ok c ∧
      v = makeBool (type.holds c) := by
  rw [qlEval] at h
  obtain ⟨a, ha, h⟩ := bind_eq_ok.mp h
  obtain ⟨b, hb, h⟩ := bind_eq_ok.mp h
  obtain ⟨c, hc, h⟩ := bind_eq_ok.mp h
  exact ⟨a, b, c, ha, hb, hc, (Except.ok.inj h).symm⟩

theorem qlEval_arith {type : QLArith} (h : qlEval (.arith type lhs rhs) env = .ok v) :
    ∃ n k r, qlEval lhs env = .ok (.int64 n) ∧ qlEval rhs env = .ok (.int64 k) ∧
      type.apply n k = .ok r ∧ v = .int64 r := by
  rw [qlEval] at h
  obtain ⟨a, ha, h⟩ := bind_eq_ok.mp h
  obtain ⟨b, hb, h⟩ := bind_eq_ok.mp h
  obtain ⟨⟨n, k⟩, hn, h⟩ := bind_eq_ok.mp h
  obtain ⟨r, hr, hv⟩ := bind_eq_ok.mp h
  obtain ⟨rfl, rfl⟩ := numbers_eq_ok.mp hn
  exact ⟨n, k, r, ha, hb, hr, (Except.ok.inj hv).symm⟩

end Made

/-! ### Exactness -/

/-- **A value is exact**: what is evaluated is the value over the unbounded integers. -/
theorem qlEval_exact : ∀ {node : QLNode} {v : Value}, qlEval node env = .ok v →
    node.exact env = some v.exact
  | .int64 _, _, h => by cases h; rfl
  | .str _, _, h => by cases h; rfl
  | .sym name, v, h => by
      rw [qlEval] at h
      rw [QLNode.exact]
      cases hget : env.get name with
      | none => simp [hget] at h
      | some w =>
          simp only [hget, Except.ok.injEq] at h
          rw [h]
          rfl
  | .neg kid, v, h => by
      obtain ⟨n, r, hkid, hr, rfl⟩ := qlEval_neg h
      have hspec := QLArith.sub.apply_spec 0 n
      rw [hr] at hspec
      -- the source negates by subtracting from 0
      have hneg : -n.toInt = r.toInt := (zero_sub _).symm.trans (Option.some.inj hspec.1)
      rw [QLNode.exact, qlEval_exact hkid]
      show some (ExactValue.num (-n.toInt)) = _
      rw [hneg]
      rfl
  | .not kid, v, h => by
      obtain ⟨n, hkid, rfl⟩ := qlEval_not h
      rw [QLNode.exact, qlEval_exact hkid, exact_makeBool]
      show some (ExactValue.bool (n.toInt = 0)) = _
      rw [decide_eq_decide.mpr eq_zero_iff]
  | .logic type lhs rhs, v, h => by
      obtain ⟨n, k, ha, hb, rfl⟩ := qlEval_logic h
      rw [QLNode.exact, qlEval_exact ha, qlEval_exact hb, exact_makeBool]
      show some (ExactValue.bool (type.apply (n.toInt ≠ 0) (k.toInt ≠ 0))) = _
      rw [decide_eq_decide.mpr (not_congr eq_zero_iff), decide_eq_decide.mpr (not_congr eq_zero_iff)]
  | .cmp type lhs rhs, v, h => by
      obtain ⟨a, b, c, ha, hb, hc, rfl⟩ := qlEval_compared h
      rw [QLNode.exact, qlEval_exact ha, qlEval_exact hb, exact_makeBool]
      show ((a.exact.compare b.exact).bind fun c => some (ExactValue.bool (type.holds c))) = _
      rw [qlCompare_exact hc]
      rfl
  | .arith type lhs rhs, v, h => by
      obtain ⟨n, k, r, ha, hb, hr, rfl⟩ := qlEval_arith h
      have hspec := type.apply_spec n k
      rw [hr] at hspec
      rw [QLNode.exact, qlEval_exact ha, qlEval_exact hb]
      show ((type.exact n.toInt k.toInt).bind fun r => some (ExactValue.num r)) = _
      rw [hspec.1]
      rfl
  | .tup _, _, h => by cases h
  | .star, _, h => by cases h
  | .uninit, _, h => by cases h

/-! ### Failures -/

/-- A negation is a difference from zero. -/
theorem pastLimit_neg {n : Int} :
    QLArith.sub.PastLimit (Int64.toInt 0) n ↔ ¬ IsInt64 (-n) := by
  show ¬ IsInt64 (0 - n) ↔ _
  rw [zero_sub]

theorem fits_of_typeIn {node : QLNode} {type : ValueType} (h : node.typeIn env = some type) :
    node.Fits env := by
  intro hnone
  rw [h] at hnone
  cases hnone

/-- An expression that has a value is not past its limit. -/
theorem not_pastLimit {node : QLNode} {v : Value} (h : qlEval node env = .ok v) :
    ¬ node.PastLimit env := by
  intro hlimit
  cases node with
  | neg kid =>
      obtain ⟨n, r, hkid, hr, _⟩ := qlEval_neg h
      obtain ⟨n', hn', hlimit⟩ := hlimit
      have hspec := QLArith.sub.apply_spec 0 n
      rw [hr] at hspec
      rw [qlEval_exact hkid] at hn'
      obtain rfl : n.toInt = n' := ExactValue.num.inj (Option.some.inj hn')
      exact hspec.2 (pastLimit_neg.mpr hlimit)
  | arith type lhs rhs =>
      obtain ⟨n, k, r, ha, hb, hr, _⟩ := qlEval_arith h
      obtain ⟨n', k', hn', hk', hlimit⟩ := hlimit
      have hspec := type.apply_spec n k
      rw [hr] at hspec
      rw [qlEval_exact ha] at hn'
      rw [qlEval_exact hb] at hk'
      obtain rfl : n.toInt = n' := ExactValue.num.inj (Option.some.inj hn')
      obtain rfl : k.toInt = k' := ExactValue.num.inj (Option.some.inj hk')
      exact hspec.2 hlimit
  | _ => exact hlimit

/-- Nothing is evaluated without all of its subexpressions. -/
theorem qlEval_subs : ∀ {node : QLNode} {v : Value}, qlEval node env = .ok v →
    ∀ s ∈ node.subs, ∃ w, qlEval s env = .ok w
  | .int64 _, v, h, s, hs => by rw [List.mem_singleton.mp hs]; exact ⟨v, h⟩
  | .str _, v, h, s, hs => by rw [List.mem_singleton.mp hs]; exact ⟨v, h⟩
  | .sym _, v, h, s, hs => by rw [List.mem_singleton.mp hs]; exact ⟨v, h⟩
  | .neg kid, v, h, s, hs => by
      obtain ⟨n, r, hkid, _⟩ := qlEval_neg h
      rcases List.mem_cons.mp hs with rfl | hs
      · exact ⟨v, h⟩
      · exact qlEval_subs hkid s hs
  | .not kid, v, h, s, hs => by
      obtain ⟨n, hkid, _⟩ := qlEval_not h
      rcases List.mem_cons.mp hs with rfl | hs
      · exact ⟨v, h⟩
      · exact qlEval_subs hkid s hs
  | .logic type lhs rhs, v, h, s, hs => by
      obtain ⟨n, k, ha, hb, _⟩ := qlEval_logic h
      rcases List.mem_cons.mp hs with rfl | hs
      · exact ⟨v, h⟩
      · exact (List.mem_append.mp hs).elim (qlEval_subs ha s) (qlEval_subs hb s)
  | .cmp type lhs rhs, v, h, s, hs => by
      obtain ⟨a, b, c, ha, hb, _⟩ := qlEval_compared h
      rcases List.mem_cons.mp hs with rfl | hs
      · exact ⟨v, h⟩
      · exact (List.mem_append.mp hs).elim (qlEval_subs ha s) (qlEval_subs hb s)
  | .arith type lhs rhs, v, h, s, hs => by
      obtain ⟨n, k, r, ha, hb, _⟩ := qlEval_arith h
      rcases List.mem_cons.mp hs with rfl | hs
      · exact ⟨v, h⟩
      · exact (List.mem_append.mp hs).elim (qlEval_subs ha s) (qlEval_subs hb s)
  | .tup _, _, h, _, _ => by cases h
  | .star, _, h, _, _ => by cases h
  | .uninit, _, h, _, _ => by cases h

theorem bothNumbers_ne_none {s t : Option ValueType} :
    bothNumbers s t ≠ none ↔ s = some .int64 ∧ t = some .int64 := by
  unfold bothNumbers
  split
  · rename_i h
    exact ⟨fun _ => h, fun _ => Option.some_ne_none _⟩
  · rename_i h
    exact ⟨fun hne => absurd rfl hne, fun hyes => absurd hyes h⟩

theorem bothNumbers_eq_some {s t : Option ValueType} {type : ValueType}
    (h : bothNumbers s t = some type) : type = .int64 := by
  unfold bothNumbers at h
  split at h
  · exact (Option.some.inj h).symm
  · cases h

/-- An expression whose operands fit has a value of its type. -/
theorem qlEval_type : ∀ {node : QLNode} {v : Value} {type : ValueType},
    node.typeIn env = some type → qlEval node env = .ok v → v.type = type
  | .int64 _, _, _, ht, h => by cases h; exact Option.some.inj ht
  | .str _, _, _, ht, h => by cases h; exact Option.some.inj ht
  | .sym name, v, type, ht, h => by
      rw [qlEval] at h
      rw [QLNode.typeIn] at ht
      cases hget : env.get name with
      | none => simp [hget] at h
      | some w =>
          simp only [hget, Except.ok.injEq] at h
          rw [hget] at ht
          rw [← h]
          exact Option.some.inj ht
  | .neg kid, v, type, ht, h => by
      obtain ⟨n, r, _, _, rfl⟩ := qlEval_neg h
      exact (bothNumbers_eq_some ht).symm
  | .not kid, v, type, ht, h => by
      obtain ⟨n, _, rfl⟩ := qlEval_not h
      exact (bothNumbers_eq_some ht).symm
  | .logic type' lhs rhs, v, type, ht, h => by
      obtain ⟨n, k, _, _, rfl⟩ := qlEval_logic h
      exact (bothNumbers_eq_some ht).symm
  | .cmp type' lhs rhs, v, type, ht, h => by
      obtain ⟨a, b, c, _, _, _, rfl⟩ := qlEval_compared h
      rw [QLNode.typeIn] at ht
      split at ht
      · exact Option.some.inj ht
      · cases ht
  | .arith type' lhs rhs, v, type, ht, h => by
      obtain ⟨n, k, r, _, _, _, rfl⟩ := qlEval_arith h
      exact (bothNumbers_eq_some ht).symm
  | .tup _, _, _, _, h => by cases h
  | .star, _, _, _, h => by cases h
  | .uninit, _, _, _, h => by cases h

/-- A number, where the operand fits. -/
theorem qlEval_number {node : QLNode} {v : Value} (ht : node.typeIn env = some .int64)
    (h : qlEval node env = .ok v) : ∃ n, v = .int64 n := by
  have htype := qlEval_type ht h
  cases v with
  | int64 n => exact ⟨n, rfl⟩
  | _ => cases htype

/-- Of two operands one stops past the limit, or both have values. -/
theorem pastLimit_or_ok
    (hl : ∀ err, qlEval lhs env = .error err → ∃ s ∈ lhs.subs, s.PastLimit env)
    (hr : ∀ err, qlEval rhs env = .error err → ∃ s ∈ rhs.subs, s.PastLimit env) :
    (∃ s ∈ lhs.subs ++ rhs.subs, s.PastLimit env) ∨
      ∃ a b, qlEval lhs env = .ok a ∧ qlEval rhs env = .ok b := by
  cases ha : qlEval lhs env with
  | error err =>
      obtain ⟨s, hs, hlimit⟩ := hl err ha
      exact Or.inl ⟨s, List.mem_append_left _ hs, hlimit⟩
  | ok a =>
      cases hb : qlEval rhs env with
      | error err =>
          obtain ⟨s, hs, hlimit⟩ := hr err hb
          exact Or.inl ⟨s, List.mem_append_right _ hs, hlimit⟩
      | ok b => exact Or.inr ⟨a, b, rfl, rfl⟩

/-- **A failure is a limit**, in the expression itself or below. -/
theorem exists_pastLimit : ∀ {node : QLNode} {err : Bytes}, node.Fits env →
    qlEval node env = .error err → ∃ s ∈ node.subs, s.PastLimit env
  | .int64 _, _, _, h => by cases h
  | .str _, _, _, h => by cases h
  | .sym name, _, hfits, h => by
      rw [qlEval] at h
      cases hget : env.get name with
      | none => exact absurd (congrArg (Option.map Value.type) hget) hfits
      | some w => simp [hget] at h
  | .neg kid, err, hfits, h => by
      have hkid := (bothNumbers_ne_none.mp hfits).1
      cases hv : qlEval kid env with
      | error err' =>
          obtain ⟨s, hs, hlimit⟩ := exists_pastLimit (fits_of_typeIn hkid) hv
          exact ⟨s, List.mem_cons_of_mem _ hs, hlimit⟩
      | ok v =>
          -- the operand has a value, so it is the difference from 0 that does not fit
          obtain ⟨n, rfl⟩ := qlEval_number hkid hv
          refine ⟨_, List.mem_cons_self, n.toInt, qlEval_exact hv, ?_⟩
          have hspec := QLArith.sub.apply_spec 0 n
          rw [qlEval, hv, ok_bind, Value.number, ok_bind] at h
          cases hr : QLArith.sub.apply 0 n with
          | ok r => rw [hr] at h; cases h
          | error err' =>
              rw [hr] at hspec
              exact pastLimit_neg.mp hspec
  | .not kid, err, hfits, h => by
      have hkid := (bothNumbers_ne_none.mp hfits).1
      cases hv : qlEval kid env with
      | error err' =>
          obtain ⟨s, hs, hlimit⟩ := exists_pastLimit (fits_of_typeIn hkid) hv
          exact ⟨s, List.mem_cons_of_mem _ hs, hlimit⟩
      | ok v =>
          obtain ⟨n, rfl⟩ := qlEval_number hkid hv
          rw [qlEval, hv] at h
          cases h
  | .logic type lhs rhs, err, hfits, h => by
      obtain ⟨hlhs, hrhs⟩ := bothNumbers_ne_none.mp hfits
      rcases pastLimit_or_ok (fun _ => exists_pastLimit (fits_of_typeIn hlhs))
        (fun _ => exists_pastLimit (fits_of_typeIn hrhs)) with
        ⟨s, hs, hlimit⟩ | ⟨a, b, ha, hb⟩
      · exact ⟨s, List.mem_cons_of_mem _ hs, hlimit⟩
      · obtain ⟨n, rfl⟩ := qlEval_number hlhs ha
        obtain ⟨k, rfl⟩ := qlEval_number hrhs hb
        rw [qlEval, ha, hb] at h
        cases h
  | .cmp type lhs rhs, err, hfits, h => by
      have hsame : lhs.typeIn env ≠ none ∧ lhs.typeIn env = rhs.typeIn env := by
        by_contra hno
        exact hfits (if_neg hno)
      rcases pastLimit_or_ok (fun _ => exists_pastLimit hsame.1)
        (fun _ => exists_pastLimit (hsame.2.symm.trans_ne hsame.1)) with
        ⟨s, hs, hlimit⟩ | ⟨a, b, ha, hb⟩
      · exact ⟨s, List.mem_cons_of_mem _ hs, hlimit⟩
      · -- values of one type can be compared
        obtain ⟨type', ht⟩ := Option.ne_none_iff_exists'.mp hsame.1
        have htype : a.type = b.type :=
          (qlEval_type ht ha).trans (qlEval_type (hsame.2 ▸ ht) hb).symm
        rw [qlEval, ha, ok_bind, hb, ok_bind, qlCompare, if_neg (not_not.mpr htype)] at h
        cases h
  | .arith type lhs rhs, err, hfits, h => by
      obtain ⟨hlhs, hrhs⟩ := bothNumbers_ne_none.mp hfits
      rcases pastLimit_or_ok (fun _ => exists_pastLimit (fits_of_typeIn hlhs))
        (fun _ => exists_pastLimit (fits_of_typeIn hrhs)) with
        ⟨s, hs, hlimit⟩ | ⟨a, b, ha, hb⟩
      · exact ⟨s, List.mem_cons_of_mem _ hs, hlimit⟩
      · obtain ⟨n, rfl⟩ := qlEval_number hlhs ha
        obtain ⟨k, rfl⟩ := qlEval_number hrhs hb
        refine ⟨_, List.mem_cons_self, n.toInt, k.toInt, qlEval_exact ha, qlEval_exact hb, ?_⟩
        have hspec := type.apply_spec n k
        rw [qlEval, ha, ok_bind, hb, ok_bind, numbers, ok_bind] at h
        cases hr : type.apply n k with
        | ok r => simp [hr] at h
        | error err' =>
            rw [hr] at hspec
            exact hspec
  | .tup _, _, hfits, _ => absurd rfl hfits
  | .star, _, hfits, _ => absurd rfl hfits
  | .uninit, _, hfits, _ => absurd rfl hfits

/-- **Arithmetic is exact or an error.** An integer that an expression evaluates to is its value
over the unbounded integers. If its names resolve and its operands fit, it fails exactly when one of
its subexpressions is past its limit. And no operation that is carried out is undefined. -/
theorem arithmetic_exact_or_error (node : QLNode) (env : Record) :
    (∀ n, qlEval node env = .ok (.int64 n) → node.exact env = some (.num n.toInt)) ∧
    (node.Fits env → ((∃ err, qlEval node env = .error err) ↔
      ∃ s ∈ node.subs, s.PastLimit env)) ∧
    ∀ (type : QLArith) (a b : Int64), type.run a b = some (type.apply a b) := by
  refine ⟨fun n h => qlEval_exact h, fun hfits => ⟨fun h => ?_, fun h => ?_⟩, QLArith.run_eq⟩
  · obtain ⟨err, h⟩ := h
    exact exists_pastLimit hfits h
  · obtain ⟨s, hs, hlimit⟩ := h
    cases hv : qlEval node env with
    | error err => exact ⟨err, rfl⟩
    | ok v =>
        obtain ⟨w, hw⟩ := qlEval_subs hv s hs
        exact absurd hlimit (not_pastLimit hw)

/-- One more than the greatest integer is past the limit, under a comparison too. -/
theorem arithmetic_exact_or_error_max : (∃ err,
      qlEval (.cmp .lt (.arith .add (.int64 .maxValue) (.int64 1)) (.int64 0)) {} = .error err) ↔
    ∃ s ∈ QLNode.subs (.cmp .lt (.arith .add (.int64 .maxValue) (.int64 1)) (.int64 0)),
      s.PastLimit {} :=
  (arithmetic_exact_or_error _ _).2.1 (by unfold QLNode.Fits; decide)

example : qlEval (.arith .mod (.int64 .minValue) (.int64 (-1))) {} =
    .error (.ofString "integer overflow") := by decide

end Expr

end SqlDb
