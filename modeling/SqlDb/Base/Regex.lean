import Mathlib.Computability.RegularExpressions
import Mathlib.Data.Nat.Find
import SqlDb.Base.FirstMax

/-!
# Rules that match the longest prefix

A scanner is a list of rules, each with a regular expression. At any point of its input the
rule that matches most of it wins, and of several that match as much the first one. `best`
computes the winner; `FirstMax` says what it is.
-/

namespace RegularExpression

variable {α ι : Type} [DecidableEq α]

/-! ## Classes and words -/

/-- A character class: any one of the letters. -/
def oneOf (cs : List α) : RegularExpression α := (cs.map char).sum

/-- A literal text. -/
def word (w : List α) : RegularExpression α := (w.map char).prod

def oneOrMore (r : RegularExpression α) : RegularExpression α := r * r.star

omit [DecidableEq α] in
theorem mem_oneOf {cs x : List α} : x ∈ (oneOf cs).matches' ↔ ∃ c ∈ cs, x = [c] := by
  induction cs with
  | nil =>
      rw [oneOf, List.map_nil, List.sum_nil, matches'_zero]
      simp [Language.notMem_zero]
  | cons c cs ih =>
      rw [oneOf, List.map_cons, List.sum_cons, ← oneOf, matches'_add, Language.mem_add, ih,
        matches'_char, List.exists_mem_cons_iff]
      rfl

omit [DecidableEq α] in
theorem mem_oneOf_star {cs x : List α} : x ∈ (oneOf cs).star.matches' ↔ ∀ c ∈ x, c ∈ cs := by
  rw [matches'_star, Language.mem_kstar]
  constructor
  · intro h
    obtain ⟨L, rfl, hL⟩ := h
    intro c hc
    obtain ⟨y, hy, hcy⟩ := List.mem_flatten.mp hc
    obtain ⟨d, hd, rfl⟩ := mem_oneOf.mp (hL y hy)
    rwa [List.mem_singleton.mp hcy]
  · intro h
    refine ⟨x.map fun c => [c], by rw [← List.flatMap_def, List.flatMap_singleton'], fun y hy => ?_⟩
    obtain ⟨c, hc, rfl⟩ := List.mem_map.mp hy
    exact mem_oneOf.mpr ⟨c, h c hc, rfl⟩

omit [DecidableEq α] in
theorem mem_word {w x : List α} : x ∈ (word w).matches' ↔ x = w := by
  induction w generalizing x with
  | nil => rw [word, List.map_nil, List.prod_nil, matches'_epsilon, Language.mem_one]
  | cons c w ih =>
      rw [word, List.map_cons, List.prod_cons, ← word, matches'_mul, Language.mem_mul]
      constructor
      · intro h
        obtain ⟨a, ha, b, hb, rfl⟩ := h
        rw [matches'_char] at ha
        rw [ih.mp hb, show a = [c] from ha]
        rfl
      · rintro rfl
        exact ⟨[c], by rw [matches'_char]; rfl, w, ih.mpr rfl, rfl⟩

omit [DecidableEq α] in
theorem mem_oneOrMore_char {c : α} {x : List α} :
    x ∈ (oneOrMore (char c)).matches' ↔ ∃ k, x = List.replicate (k + 1) c := by
  have hstar : ∀ {y : List α}, y ∈ (char c).star.matches' ↔ ∃ k, y = List.replicate k c := by
    intro y
    rw [matches'_star, Language.mem_kstar]
    constructor
    · rintro ⟨L, rfl, hL⟩
      have hrep : L = List.replicate L.length [c] := List.eq_replicate_iff.mpr ⟨rfl, hL⟩
      exact ⟨L.length, by rw [hrep]; simp⟩
    · rintro ⟨k, rfl⟩
      exact ⟨List.replicate k [c], by simp, fun y hy => List.eq_of_mem_replicate hy⟩
  rw [oneOrMore, matches'_mul, Language.mem_mul]
  constructor
  · rintro ⟨a, rfl, b, hb, rfl⟩
    obtain ⟨k, rfl⟩ := hstar.mp hb
    exact ⟨k, rfl⟩
  · rintro ⟨k, rfl⟩
    exact ⟨[c], rfl, List.replicate k c, hstar.mpr ⟨k, rfl⟩, rfl⟩

omit [DecidableEq α] in
/-- Another word in front. -/
theorem cons_mem_star_mul {P Q : RegularExpression α} {x y : List α} (hx : x ∈ P.matches')
    (hy : y ∈ (P.star * Q).matches') : x ++ y ∈ (P.star * Q).matches' := by
  rw [matches'_mul, Language.mem_mul] at hy ⊢
  obtain ⟨a, ha, b, hb, rfl⟩ := hy
  rw [matches'_star, Language.mem_kstar] at ha
  obtain ⟨L, rfl, hL⟩ := ha
  refine ⟨x ++ L.flatten, ?_, b, hb, List.append_assoc _ _ _⟩
  rw [matches'_star, Language.mem_kstar]
  exact ⟨x :: L, rfl, List.forall_mem_cons.mpr ⟨hx, hL⟩⟩

/-! ## First letters -/

/-- Some word may begin with `c`. -/
def startsWith (c : α) : RegularExpression α → Bool
  | zero => false
  | epsilon => false
  | char a => a = c
  | plus P Q => startsWith c P || startsWith c Q
  | comp P Q => startsWith c P || (P.matchEpsilon && startsWith c Q)
  | star P => startsWith c P

theorem matchEpsilon_of_nil_mem {P : RegularExpression α} (h : [] ∈ P.matches') :
    P.matchEpsilon = true := (rmatch_iff_matches' P []).mpr h

/-- **A word begins with a first letter.** -/
theorem startsWith_of_mem {P : RegularExpression α} {c : α} {w : List α}
    (h : c :: w ∈ P.matches') : P.startsWith c = true := by
  induction P generalizing w with
  | zero => exact absurd h (Language.notMem_zero _)
  | epsilon => cases h
  | char a =>
      obtain ⟨rfl, _⟩ := List.cons.inj (show c :: w = [a] from h)
      exact decide_eq_true rfl
  | plus P Q ihP ihQ =>
      rcases h with h | h
      · rw [startsWith, ihP h, Bool.true_or]
      · rw [startsWith, ihQ h, Bool.or_true]
  | comp P Q ihP ihQ =>
      obtain ⟨a, ha, b, hb, hab⟩ := Language.mem_mul.mp (show c :: w ∈ P.matches' * Q.matches' from h)
      cases a with
      | nil =>
          -- the first part took nothing, so the second one starts the text
          rw [List.nil_append] at hab
          rw [startsWith, matchEpsilon_of_nil_mem ha, ihQ (hab ▸ hb), Bool.true_and, Bool.or_true]
      | cons x a =>
          obtain ⟨rfl, _⟩ := List.cons.inj hab
          rw [startsWith, ihP ha, Bool.true_or]
  | star P ih =>
      obtain ⟨L, hw, hL⟩ :=
        Language.mem_kstar_iff_exists_nonempty.mp (show c :: w ∈ KStar.kstar P.matches' from h)
      cases L with
      | nil => cases hw
      | cons x L =>
          obtain ⟨hx, hne⟩ := hL x List.mem_cons_self
          cases x with
          | nil => exact absurd rfl hne
          | cons y x =>
              obtain ⟨rfl, _⟩ := List.cons.inj hw
              exact ih hx

theorem startsWith_oneOf {cs : List α} {c : α} : (oneOf cs).startsWith c = true ↔ c ∈ cs := by
  induction cs with
  | nil => exact ⟨fun h => (nomatch h), fun h => absurd h List.not_mem_nil⟩
  | cons d cs ih =>
      rw [List.mem_cons, ← ih]
      show (decide (d = c) || startsWith c (oneOf cs)) = true ↔ _
      rw [Bool.or_eq_true, decide_eq_true_iff, eq_comm]

omit [DecidableEq α] in
theorem matchEpsilon_oneOf {cs : List α} : (oneOf cs).matchEpsilon = false := by
  induction cs with
  | nil => rfl
  | cons d cs ih =>
      show (false || (oneOf cs).matchEpsilon) = false
      rw [ih, Bool.false_or]

/-- What a repeated class begins with. -/
theorem startsWith_oneOrMore {cs : List α} {c : α} :
    (oneOrMore (oneOf cs)).startsWith c = true ↔ c ∈ cs := by
  show (startsWith c (oneOf cs) || ((oneOf cs).matchEpsilon && startsWith c (oneOf cs))) = true ↔ _
  rw [matchEpsilon_oneOf, Bool.false_and, Bool.or_false, startsWith_oneOf]

/-! ## Letters -/

/-- The expression has only letters of this kind. -/
def only (p : α → Bool) : RegularExpression α → Bool
  | zero => true
  | epsilon => true
  | char a => p a
  | plus P Q => only p P && only p Q
  | comp P Q => only p P && only p Q
  | star P => only p P

omit [DecidableEq α] in
/-- **A word has letters of its expression.** -/
theorem letters_of_mem {p : α → Bool} {P : RegularExpression α} {w : List α} (h : P.only p = true)
    (hw : w ∈ P.matches') : ∀ c ∈ w, p c = true := by
  induction P generalizing w with
  | zero => exact absurd hw (Language.notMem_zero _)
  | epsilon =>
      rw [show w = [] from hw]
      exact fun _ hc => absurd hc List.not_mem_nil
  | char a =>
      rw [show w = [a] from hw]
      exact List.forall_mem_singleton.mpr h
  | plus P Q ihP ihQ =>
      rw [only, Bool.and_eq_true] at h
      exact hw.elim (ihP h.1) (ihQ h.2)
  | comp P Q ihP ihQ =>
      rw [only, Bool.and_eq_true] at h
      obtain ⟨a, ha, b, hb, rfl⟩ := Language.mem_mul.mp (show w ∈ P.matches' * Q.matches' from hw)
      intro c hc
      exact (List.mem_append.mp hc).elim (ihP h.1 ha c) (ihQ h.2 hb c)
  | star P ih =>
      obtain ⟨L, rfl, hL⟩ := Language.mem_kstar.mp (show w ∈ KStar.kstar P.matches' from hw)
      intro c hc
      obtain ⟨y, hy, hcy⟩ := List.mem_flatten.mp hc
      exact ih h (hL y hy) c hcy

/-! ## The longest prefix -/

/-- The length of the longest prefix that matches, 0 when none does. -/
def matchLength (r : RegularExpression α) (s : List α) : Nat :=
  Nat.findGreatest (fun n => r.rmatch (s.take n) = true) s.length

variable {r : RegularExpression α} {s : List α}

theorem matchLength_le (r : RegularExpression α) (s : List α) : r.matchLength s ≤ s.length :=
  Nat.findGreatest_le _

/-- What was matched is a word. -/
theorem take_matchLength_mem (h : 0 < r.matchLength s) :
    s.take (r.matchLength s) ∈ r.matches' :=
  (rmatch_iff_matches' r _).mp ((Nat.findGreatest_eq_iff.mp rfl).2.1 (Nat.pos_iff_ne_zero.mp h))

/-- No longer prefix matches. -/
theorem le_matchLength {n : Nat} (hn : n ≤ s.length) (h : s.take n ∈ r.matches') :
    n ≤ r.matchLength s :=
  Nat.le_findGreatest hn ((rmatch_iff_matches' r _).mpr h)

theorem matchLength_eq_zero {c : α} (h : r.startsWith c = false) : r.matchLength (c :: s) = 0 := by
  refine Nat.findGreatest_eq_zero_iff.mpr fun n hpos _ hmatch => ?_
  obtain ⟨n, rfl⟩ := Nat.exists_eq_succ_of_ne_zero (Nat.pos_iff_ne_zero.mp hpos)
  have hmem := (rmatch_iff_matches' r _).mp hmatch
  rw [List.take_succ_cons] at hmem
  rw [startsWith_of_mem hmem] at h
  cases h

/-- **A match ends in front of a letter that no word has.** -/
theorem matchLength_le_of_notMem {w rest : List α} {c : α} (h : ∀ x ∈ r.matches', c ∉ x) :
    r.matchLength (w ++ c :: rest) ≤ w.length := by
  refine not_lt.mp fun hlt => ?_
  have hmem := take_matchLength_mem (Nat.zero_lt_of_lt hlt)
  obtain ⟨k, hk⟩ : ∃ k, r.matchLength (w ++ c :: rest) = w.length + (k + 1) :=
    ⟨r.matchLength (w ++ c :: rest) - w.length - 1, by omega⟩
  rw [hk, List.take_length_add_append, List.take_succ_cons] at hmem
  exact h _ hmem (by simp)

/-- What is no word is not matched to its end. -/
theorem matchLength_ne_length {w rest : List α} (hw : w ≠ []) (h : w ∉ r.matches') :
    r.matchLength (w ++ rest) ≠ w.length := by
  intro he
  have hmem : (w ++ rest).take (r.matchLength (w ++ rest)) ∈ r.matches' :=
    take_matchLength_mem (by rw [he]; exact List.length_pos_iff.mpr hw)
  rw [he, List.take_left' rfl] at hmem
  exact h hmem

/-- A word is matched at least to its end. -/
theorem length_le_matchLength {w rest : List α} (h : w ∈ r.matches') :
    w.length ≤ r.matchLength (w ++ rest) :=
  le_matchLength (by simp) (by rwa [List.take_left' rfl])

/-- Words of one length. -/
theorem matchLength_le_of_length {n : Nat} (h : ∀ w ∈ r.matches', w.length ≤ n) (s : List α) :
    r.matchLength s ≤ n := by
  rcases Nat.eq_zero_or_pos (r.matchLength s) with h0 | hpos
  · omega
  · have hlen := h _ (take_matchLength_mem hpos)
    rw [List.length_take] at hlen
    have := matchLength_le r s
    omega

end RegularExpression

/-! ## The best rule -/

variable {ι : Type}

/-- The first of those that score most, unless nothing scores. -/
def best (score : ι → Nat) : List ι → Option ι
  | [] => none
  | i :: rules =>
      match best score rules with
      | none => if 0 < score i then some i else none
      | some j => if score i < score j then some j else some i

variable {score : ι → Nat} {rules : List ι} {i : ι}

theorem best_eq_none (h : best score rules = none) : ∀ i ∈ rules, score i = 0 := by
  induction rules with
  | nil => exact fun _ hi => absurd hi List.not_mem_nil
  | cons i rules ih =>
      rw [best] at h
      cases hrest : best score rules with
      | none =>
          simp only [hrest, ite_eq_right_iff, reduceCtorEq, imp_false, not_lt,
            Nat.le_zero_eq] at h
          exact List.forall_mem_cons.mpr ⟨h, ih hrest⟩
      | some j =>
          simp only [hrest] at h
          split at h <;> cases h

/-- **The winner** is the first of the best. -/
theorem best_firstMax (h : best score rules = some i) : FirstMax score rules i ∧ 0 < score i := by
  induction rules generalizing i with
  | nil => cases h
  | cons k rules ih =>
      have hnone : ∀ y ∈ ([] : List ι), score y < score k := fun _ hy => absurd hy List.not_mem_nil
      rw [best] at h
      cases hrest : best score rules with
      | none =>
          simp only [hrest] at h
          split at h
          · rename_i hpos
            obtain rfl := Option.some.inj h
            refine ⟨⟨[], rules, rfl, hnone, fun y hy => ?_⟩, hpos⟩
            exact le_of_eq_of_le (best_eq_none hrest y hy) (Nat.zero_le _)
          · cases h
      | some j =>
          obtain ⟨hmax, hpos⟩ := ih hrest
          simp only [hrest] at h
          split at h
          · rename_i hlt
            obtain rfl := Option.some.inj h
            exact ⟨hmax.worse hlt, hpos⟩
          · rename_i hge
            obtain rfl := Option.some.inj h
            have hle : score j ≤ score k := not_lt.mp hge
            exact ⟨⟨[], rules, rfl, hnone, fun y hy => le_trans (hmax.le hy) hle⟩,
              lt_of_lt_of_le hpos hle⟩

/-- A rule that scores at all, beats those before it and is not beaten, is the winner. -/
theorem best_eq_some (h : FirstMax score rules i) (hpos : 0 < score i) :
    best score rules = some i := by
  cases hbest : best score rules with
  | none => exact absurd (best_eq_none hbest i h.mem) (Nat.ne_of_gt hpos)
  | some j => rw [(best_firstMax hbest).1.unique h]
