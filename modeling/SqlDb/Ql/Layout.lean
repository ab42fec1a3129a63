import SqlDb.Ql.Spelling

/-!
# The layout of a statement

Between two tokens there may be white space and comments. The scanner skips them: blanks by
the run, newlines one by one, and a comment up to the end of its line or up to the first end
of a comment in it. So the tokens of a text do not depend on its layout.
-/

namespace SqlDb

open RegularExpression Outcome

/-- What may stand between two tokens. A comment ends at the first end of a comment in it. -/
inductive Gap : Bytes → Prop where
  | nil : Gap []
  | white {c : UInt8} {s : Bytes} : c ∈ white → Gap s → Gap (c :: s)
  | line {body s : Bytes} : newline ∉ body → Gap s → Gap (45 :: 45 :: body ++ newline :: s)
  | block {body s : Bytes} : ¬ [42, 47] <:+: body ++ [42] → Gap s →
      Gap (47 :: 42 :: body ++ 42 :: 47 :: s)

/-- A text of these tokens, with gaps; a token ends where no rule goes on. A comment on the last
line may end with the text. -/
inductive Layout : Bytes → List Token → Prop where
  | done {g : Bytes} : Gap g → Layout g []
  | comment {g body : Bytes} : Gap g → newline ∉ body → Layout (g ++ 45 :: 45 :: body) []
  | token {g w s : Bytes} {t : Token} {ts : List Token} : Gap g → Spells w t → Longest w s →
      Layout s ts → Layout (g ++ w ++ s) (t :: ts)

/-! ## Gaps -/

section

variable {fuel : Nat} {s : Bytes} {tok pos : Position}

/-- The rule that wins skips its text. -/
theorem yylexLoop_skip {rule : Rule} {n : Nat} {pos' : Position} (hne : s ≠ [])
    (hbest : best (Rule.score s) lexerRules = some rule) (hn : rule.score s = n)
    (haction : rule.action (s.take n) (pos.advance n) = .skip pos') :
    yylexLoop lexerRules (fuel + 1) s tok pos = yylexLoop lexerRules fuel (s.drop n) pos pos' := by
  subst hn
  rw [yylexLoop, if_neg hne, hbest]
  dsimp only
  rw [haction]

end

/-- In front of a comment, all that is no comment is short. -/
theorem others_score {b : UInt8} (hb : b = 45 ∨ b = 47) (s : Bytes) :
    ∀ rule ∈ wordRules ++ [strRule, quoteRule, otherRule], rule.score (b :: s) ≤ 1 := by
  have hstart : ∀ b ∈ ([45, 47] : Bytes), [numRule, identRule, strRule].all
      (fun rule => !rule.pattern.startsWith b) = true := forall_mem_of_all (by decide)
  have hfixed : ∀ b ∈ ([45, 47] : Bytes), ∀ entry ∈ fixedTokens,
      (fixedRule entry.1 entry.2).pattern.startsWith b = false ∨
        (Bytes.ofString entry.1).length = 1 := forall_mem_of_all (by decide)
  have hmem : b ∈ ([45, 47] : Bytes) := by simpa using hb
  have hzero : ∀ rule ∈ [numRule, identRule, strRule], rule.score (b :: s) ≤ 1 := fun rule hrule =>
    (matchLength_eq_zero (by simpa using List.all_eq_true.mp (hstart b hmem) rule hrule)).trans_le
      (Nat.zero_le 1)
  intro rule hrule
  rcases List.mem_append.mp hrule with hrule | hrule
  · rcases List.mem_append.mp hrule with hrule | hrule
    · obtain ⟨entry, hentry, rfl⟩ := List.mem_map.mp hrule
      rcases hfixed b hmem entry hentry with hno | hone
      · exact (matchLength_eq_zero hno).trans_le (Nat.zero_le 1)
      · refine matchLength_le_of_length (fun x hx => ?_) _
        have hlen := congrArg List.length ((mem_fixedRule hentry).mp hx)
        rw [List.length_map, hone] at hlen
        exact le_of_eq hlen
    · exact hzero rule (List.mem_append_left [strRule] hrule)
  · rcases List.mem_cons.mp hrule with rfl | hrule
    · exact hzero _ (by simp)
    · exact score_after _ rule hrule

/-- What follows the first end of a comment. -/
def afterClose : Bytes → Option Bytes
  | [] => none
  | c :: s => if c = 42 ∧ s.head? = some 47 then some (s.drop 1) else afterClose s

theorem afterClose_of_notInfix {body : Bytes} (h : ¬ [42, 47] <:+: body ++ [42]) (s : Bytes) :
    afterClose (body ++ 42 :: 47 :: s) = some s := by
  induction body with
  | nil => rfl
  | cons c body ih =>
      rw [List.cons_append, afterClose, if_neg, ih fun hi => h (hi.trans (List.infix_cons (List.infix_rfl)))]
      rintro ⟨rfl, hhead⟩
      cases body with
      | nil => cases hhead
      | cons d body =>
          obtain rfl := Option.some.inj hhead
          exact h ⟨[], body ++ [42], rfl⟩

theorem afterClose_stars {c : UInt8} (hc : c ≠ 42) (hclose : c ≠ 47) (k : Nat) (s : Bytes) :
    afterClose (List.replicate k 42 ++ c :: s) = afterClose s := by
  induction k with
  | zero => exact if_neg fun h => hc h.1
  | succ k ih =>
      rw [List.replicate_succ, List.cons_append, afterClose, if_neg, ih]
      rintro ⟨_, hhead⟩
      cases k with
      | zero => exact hclose (Option.some.inj hhead)
      | succ k => cases hhead

theorem afterClose_end (k : Nat) (s : Bytes) :
    afterClose (List.replicate (k + 1) 42 ++ 47 :: s) = some s := by
  induction k with
  | zero => rfl
  | succ k ih =>
      rw [List.replicate_succ, List.cons_append, afterClose, if_neg, ih]
      rintro ⟨_, hhead⟩
      cases hhead

/-- A comment behind its opening. -/
def commentTail : RegularExpression UInt8 :=
  (noneOf [42] + oneOrMore (char 42) * noneOf [42, 47]).star * (oneOrMore (char 42) * literal "/")

theorem mem_slash {x : Bytes} : x ∈ (literal "/").matches' ↔ x = [47] := by
  rw [mem_literal (by decide)]
  exact ⟨eq_of_map_toLower (forall_mem_of_all (by decide)), by rintro rfl; decide⟩

/-- What is no end of a comment, after some stars. -/
theorem mem_commentTail {body : Bytes} (k : Nat)
    (h : ¬ [42, 47] <:+: List.replicate k 42 ++ (body ++ [42])) :
    List.replicate k 42 ++ (body ++ [42, 47]) ∈ commentTail.matches' := by
  induction body generalizing k with
  | nil =>
      refine Language.mem_mul.mpr ⟨[], Language.nil_mem_kstar _, _,
        Language.mem_mul.mpr ⟨List.replicate (k + 1) 42, mem_oneOrMore_char.mpr ⟨k, rfl⟩, [47],
          mem_slash.mpr rfl, rfl⟩, ?_⟩
      rw [List.replicate_succ', List.append_assoc]
      rfl
  | cons c body ih =>
      by_cases hc : c = 42
      · subst hc
        have hsplit : ∀ x : Bytes, List.replicate k 42 ++ (42 :: x) = List.replicate (k + 1) 42 ++ x := by
          intro x
          rw [List.replicate_succ', List.append_assoc]
          rfl
        rw [List.cons_append, hsplit] at h ⊢
        exact ih (k + 1) h
      · -- the stars and the byte behind them are a unit
        have hrest := ih 0 fun hi => h (by
          have hsuffix : body ++ [42] <:+ List.replicate k 42 ++ (c :: body ++ [42]) :=
            ⟨List.replicate k 42 ++ [c], by simp⟩
          exact hi.trans hsuffix.isInfix)
        have hunit : List.replicate k 42 ++ [c] ∈
            (noneOf [42] + oneOrMore (char 42) * noneOf [42, 47]).matches' := by
          cases k with
          | zero => exact Or.inl (mem_noneOf.mpr ⟨c, by simpa using hc, rfl⟩)
          | succ k =>
              have hslash : c ≠ 47 := by
                rintro rfl
                refine h ⟨List.replicate k 42, body ++ [42], ?_⟩
                rw [List.replicate_succ']
                simp
              exact Or.inr (Language.mem_mul.mpr ⟨_, mem_oneOrMore_char.mpr ⟨k, rfl⟩, [c],
                mem_noneOf.mpr ⟨c, by simp [hc, hslash], rfl⟩, rfl⟩)
        have happend := cons_mem_star_mul hunit hrest
        rw [List.append_assoc] at happend
        exact happend

/-- **A comment is over at its first end.** -/
theorem afterClose_of_mem {x : Bytes} (h : x ∈ commentTail.matches') (s : Bytes) :
    afterClose (x ++ s) = some s := by
  obtain ⟨a, ha, b, hb, rfl⟩ := Language.mem_mul.mp h
  obtain ⟨c, hc, d, hd, rfl⟩ := Language.mem_mul.mp hb
  obtain ⟨k, rfl⟩ := mem_oneOrMore_char.mp hc
  obtain rfl := mem_slash.mp hd
  rw [matches'_star, Language.mem_kstar] at ha
  obtain ⟨L, rfl, hL⟩ := ha
  induction L with
  | nil => simpa using afterClose_end k s
  | cons y L ih =>
      obtain ⟨hy, hL⟩ := List.forall_mem_cons.mp hL
      have hrest := ih hL (Language.mem_mul.mpr ⟨_, by
        rw [matches'_star, Language.mem_kstar]
        exact ⟨L, rfl, hL⟩, _, hb, rfl⟩)
      have hsplit : (y :: L).flatten ++ (List.replicate (k + 1) 42 ++ [47]) ++ s =
          y ++ (L.flatten ++ (List.replicate (k + 1) 42 ++ [47]) ++ s) := by simp
      rw [hsplit]
      rcases hy with hy | hy
      · obtain ⟨e, he, rfl⟩ := mem_noneOf.mp hy
        exact (if_neg fun h => he (by simp [h.1])).trans hrest
      · obtain ⟨z, hz, w, hw, rfl⟩ := Language.mem_mul.mp hy
        obtain ⟨n, rfl⟩ := mem_oneOrMore_char.mp hz
        obtain ⟨e, he, rfl⟩ := mem_noneOf.mp hw
        simp only [List.mem_cons, List.not_mem_nil, or_false, not_or] at he
        rw [List.append_assoc]
        exact (afterClose_stars he.1 he.2 (n + 1) _).trans hrest

/-- **A block comment is matched up to its end.** -/
theorem score_blockComment {body : Bytes} (h : ¬ [42, 47] <:+: body ++ [42]) (s : Bytes) :
    blockCommentRule.score (47 :: 42 :: body ++ 42 :: 47 :: s) = body.length + 4 := by
  have hword : 47 :: 42 :: body ++ [42, 47] ∈ blockCommentRule.pattern.matches' :=
    Language.mem_mul.mpr ⟨[47, 42], (mem_literal (by decide)).mpr (by decide), _,
      mem_commentTail 0 h, rfl⟩
  have htext : 47 :: 42 :: body ++ 42 :: 47 :: s = (47 :: 42 :: body ++ [42, 47]) ++ s := by simp
  have hlen : (47 :: 42 :: body ++ [42, 47] : Bytes).length = body.length + 4 := by simp
  refine le_antisymm ?_ ?_
  · -- a match says where the comment is over, and that is at the first end
    have hpos : 0 < blockCommentRule.score (47 :: 42 :: body ++ 42 :: 47 :: s) := by
      rw [htext]
      exact lt_of_lt_of_le (by simp) (length_le_matchLength hword)
    obtain ⟨a, ha, b, hb, hab⟩ := Language.mem_mul.mp (take_matchLength_mem hpos)
    obtain rfl := eq_of_map_toLower (forall_mem_of_all (by decide)) ((mem_literal (by decide)).mp ha)
    change _ = (47 :: 42 :: body ++ 42 :: 47 :: s).take
      (blockCommentRule.score (47 :: 42 :: body ++ 42 :: 47 :: s)) at hab
    have hle : blockCommentRule.score (47 :: 42 :: body ++ 42 :: 47 :: s) ≤ _ := matchLength_le _ _
    generalize blockCommentRule.score (47 :: 42 :: body ++ 42 :: 47 :: s) = n at hab hpos hle
    have hwhole := List.take_append_drop n (47 :: 42 :: body ++ 42 :: 47 :: s)
    rw [← hab] at hwhole
    have hrest : b ++ (47 :: 42 :: body ++ 42 :: 47 :: s).drop n = body ++ 42 :: 47 :: s := by
      simpa [Bytes.ofString] using hwhole
    have hclose := afterClose_of_mem hb ((47 :: 42 :: body ++ 42 :: 47 :: s).drop n)
    rw [hrest, afterClose_of_notInfix h] at hclose
    have hdrop := congrArg List.length (Option.some.inj hclose)
    rw [List.length_drop] at hdrop
    simp at hdrop hle
    omega
  · rw [htext, ← hlen]
    exact length_le_matchLength hword

/-- **A line comment is matched up to the end of the line.** -/
theorem score_lineComment {body : Bytes} (h : newline ∉ body) {s : Bytes}
    (hs : ∀ c ∈ s.head?, c = newline) :
    lineCommentRule.score (45 :: 45 :: body ++ s) = body.length + 2 := by
  have hword : 45 :: 45 :: body ∈ lineCommentRule.pattern.matches' := by
    refine Language.mem_mul.mpr ⟨[45, 45], (mem_literal (by decide)).mpr (by decide), body,
      mem_oneOf_star.mpr fun c hc => ?_, rfl⟩
    rw [List.mem_filter, mem_span (by decide)]
    have hne : c ≠ newline := fun he => h (he ▸ hc)
    exact ⟨⟨Nat.zero_le _, Nat.le_of_lt_succ c.toNat_lt⟩, by simpa using hne⟩
  have hline : ∀ x ∈ lineCommentRule.pattern.matches', newline ∉ x := by
    intro x hx
    obtain ⟨a, ha, b, hb, rfl⟩ := Language.mem_mul.mp hx
    obtain rfl := eq_of_map_toLower (forall_mem_of_all (by decide)) ((mem_literal (by decide)).mp ha)
    rw [List.mem_append, not_or]
    refine ⟨by decide, fun hmem => ?_⟩
    simpa using (List.mem_filter.mp (mem_oneOf_star.mp hb newline hmem)).2
  refine le_antisymm ?_ (length_le_matchLength hword)
  cases s with
  | nil => exact (matchLength_le _ _).trans_eq (by rw [List.append_nil]; rfl)
  | cons c s =>
      rw [hs c rfl]
      exact matchLength_le_of_notMem hline

/-- A comment's rule wins in front of it. -/
theorem best_comment {b : UInt8} {s : Bytes} {rule : Rule} {before after : List Rule}
    (hb : b = 45 ∨ b = 47) (hsplit : skipRules = before ++ rule :: after)
    (hothers : ∀ r ∈ before ++ after, r.pattern.startsWith b = false)
    (hscore : 1 < rule.score (b :: s)) : best (Rule.score (b :: s)) lexerRules = some rule := by
  have hzero : ∀ r ∈ before ++ after, r.score (b :: s) = 0 := fun r hr =>
    matchLength_eq_zero (hothers r hr)
  refine best_eq_some ⟨before, after ++ (wordRules ++ [strRule, quoteRule, otherRule]), ?_,
    fun r hr => ?_, fun r hr => ?_⟩ (by omega)
  · rw [lexerRules_eq, hsplit]
    simp
  · rw [hzero r (List.mem_append_left _ hr)]
    omega
  · rcases List.mem_append.mp hr with hr | hr
    · rw [hzero r (List.mem_append_right _ hr)]
      exact Nat.zero_le _
    · exact (others_score hb s r hr).trans (le_of_lt hscore)

theorem best_lineComment {s : Bytes} (hscore : 1 < lineCommentRule.score (45 :: s)) :
    best (Rule.score (45 :: s)) lexerRules = some lineCommentRule :=
  best_comment (.inl rfl)
    (show skipRules = [spaceRule, newlineRule] ++ lineCommentRule :: [blockCommentRule] from rfl)
    (by decide) hscore

/-- In front of a blank, the blanks are taken. -/
theorem best_space {c : UInt8} (hc : c ∈ ([32, 9, 13] : Bytes)) (s : Bytes) :
    best (Rule.score (c :: s)) lexerRules = some spaceRule ∧ 0 < spaceRule.score (c :: s) := by
  have hothers : ∀ c ∈ ([32, 9, 13] : Bytes), (lexerRules.drop 1).dropLast.all
      (fun rule => !rule.pattern.startsWith c) = true := forall_mem_of_all (by decide)
  have hpos : 0 < spaceRule.score (c :: s) :=
    length_le_matchLength (w := [c]) (Language.mem_mul.mpr ⟨[c], mem_oneOf.mpr ⟨c, hc, rfl⟩, [],
      Language.nil_mem_kstar _, rfl⟩)
  refine ⟨best_eq_some ⟨[], (lexerRules.drop 1).dropLast ++ [otherRule], rfl,
    fun _ h => absurd h List.not_mem_nil, fun r hr => ?_⟩ hpos, hpos⟩
  rcases List.mem_append.mp hr with hr | hr
  · exact (matchLength_eq_zero (by simpa using List.all_eq_true.mp (hothers c hc) r hr)).trans_le
      (Nat.zero_le _)
  · rw [List.mem_singleton.mp hr]
    exact (score_after _ otherRule (by simp)).trans hpos

/-- In front of a newline, the newline is taken. -/
theorem best_newline (s : Bytes) :
    best (Rule.score (newline :: s)) lexerRules = some newlineRule ∧
      newlineRule.score (newline :: s) = 1 := by
  have hothers : (spaceRule :: (lexerRules.drop 2).dropLast).all
      (fun rule => !rule.pattern.startsWith newline) = true := by decide
  have hzero : ∀ r ∈ spaceRule :: (lexerRules.drop 2).dropLast, r.score (newline :: s) = 0 :=
    fun r hr => matchLength_eq_zero (by simpa using List.all_eq_true.mp hothers r hr)
  have hscore : newlineRule.score (newline :: s) = 1 := by
    refine le_antisymm (matchLength_le_of_length (fun x hx => ?_) _)
      (length_le_matchLength (w := [newline]) rfl)
    rw [show x = [newline] from hx]
    exact le_rfl
  refine ⟨best_eq_some ⟨[spaceRule], (lexerRules.drop 2).dropLast ++ [otherRule], rfl,
    fun r hr => ?_, fun r hr => ?_⟩ (by rw [hscore]; exact Nat.one_pos), hscore⟩
  · rw [List.mem_singleton.mp hr, hzero spaceRule List.mem_cons_self, hscore]
    exact Nat.one_pos
  · rw [hscore]
    rcases List.mem_append.mp hr with hr | hr
    · rw [hzero r (List.mem_cons_of_mem _ hr)]
      exact Nat.zero_le _
    · rw [List.mem_singleton.mp hr]
      exact score_after _ otherRule (by simp)

/-- A gap behind some of its blanks. -/
theorem Gap.drop {g : Bytes} (h : Gap g) {k : Nat} (hk : ∀ c ∈ g.take k, c ∈ ([32, 9, 13] : Bytes)) :
    Gap (g.drop k) := by
  induction k generalizing g with
  | zero => exact h
  | succ k ih =>
      cases h with
      | nil => exact .nil
      | white _ hg =>
          rw [List.take_succ_cons] at hk
          exact ih hg (List.forall_mem_cons.mp hk).2
      | line => exact absurd (hk 45 List.mem_cons_self) (by decide)
      | block => exact absurd (hk 47 List.mem_cons_self) (by decide)

/-- What begins a token, or the end: no blank is next. -/
def Starts (s : Bytes) : Prop := ∀ c ∈ s.head?, c ∉ white

/-- **A gap is skipped**, with fuel left for what is behind. -/
theorem yylexLoop_gap {g s : Bytes} {fuel : Nat} (hg : Gap g) (hs : Starts s)
    (hfuel : (g ++ s).length ≤ fuel) (tok pos : Position) : ∃ fuel' tok' pos', s.length ≤ fuel' ∧
      yylexLoop lexerRules fuel (g ++ s) tok pos = yylexLoop lexerRules fuel' s tok' pos' := by
  induction fuel generalizing g tok pos with
  | zero =>
      have hnil := List.append_eq_nil_iff.mp (List.eq_nil_of_length_eq_zero (Nat.le_zero.mp hfuel))
      obtain ⟨rfl, rfl⟩ := hnil
      exact ⟨0, tok, pos, le_rfl, rfl⟩
  | succ fuel ih =>
      -- after some of the gap is skipped
      have hskip : ∀ {rule : Rule} {n : Nat}, best (Rule.score (g ++ s)) lexerRules = some rule →
          rule.score (g ++ s) = n → 0 < n → n ≤ g.length → Gap (g.drop n) →
          (∀ text p, ∃ p', rule.action text p = .skip p') → ∃ fuel' tok' pos', s.length ≤ fuel' ∧
            yylexLoop lexerRules (fuel + 1) (g ++ s) tok pos =
              yylexLoop lexerRules fuel' s tok' pos' := by
        intro rule n hbest hn hpos hle hgap haction
        obtain ⟨p', hp'⟩ := haction ((g ++ s).take n) (pos.advance n)
        have hne : g ++ s ≠ [] := fun h => by
          rw [(List.append_eq_nil_iff.mp h).1] at hle
          simp at hle
          omega
        have hdrop : (g ++ s).drop n = g.drop n ++ s := by
          rw [List.drop_append, Nat.sub_eq_zero_of_le hle, List.drop_zero]
        obtain ⟨fuel', tok', pos', hfuel', hrun⟩ := ih hgap (by
          rw [← hdrop, List.length_drop]
          omega) pos p'
        exact ⟨fuel', tok', pos', hfuel', by rw [yylexLoop_skip hne hbest hn hp', hdrop, hrun]⟩
      cases hg with
      | nil => exact ⟨fuel + 1, tok, pos, hfuel, rfl⟩
      | @white c g hc hg =>
          by_cases hnl : c = newline
          · subst hnl
            obtain ⟨hbest, hscore⟩ := best_newline (g ++ s)
            exact hskip hbest hscore Nat.one_pos (by simp) hg fun _ _ => ⟨_, rfl⟩
          · have hblank : c ∈ ([32, 9, 13] : Bytes) := by
              simp only [white, List.mem_cons, List.not_mem_nil, or_false] at hc ⊢
              tauto
            obtain ⟨hbest, hpos⟩ := best_space hblank (g ++ s)
            have hblanks : ∀ d ∈ (c :: (g ++ s)).take (spaceRule.score (c :: (g ++ s))),
                d ∈ ([32, 9, 13] : Bytes) := by
              have honly : (spaceRule.pattern.only fun d => [32, 9, 13].contains d) = true := by decide
              intro d hd
              simpa using letters_of_mem honly (take_matchLength_mem hpos) d hd
            generalize hn : spaceRule.score (c :: (g ++ s)) = n at hblanks hpos
            -- the blanks end with the gap
            have hle : n ≤ (c :: g).length := by
              refine not_lt.mp fun hlt => ?_
              have htake : (c :: (g ++ s)).take n = c :: g ++ s.take (n - (c :: g).length) := by
                rw [← List.cons_append, List.take_append, List.take_of_length_le (le_of_lt hlt)]
              have hlen : n ≤ (c :: (g ++ s)).length := hn ▸ matchLength_le _ _
              cases s with
              | nil =>
                  simp at hlen hlt
                  omega
              | cons d s =>
                  obtain ⟨k, hk⟩ : ∃ k, n - (c :: g).length = k + 1 :=
                    ⟨n - (c :: g).length - 1, by omega⟩
                  rw [htake, hk, List.take_succ_cons] at hblanks
                  have hd := hblanks d (by simp)
                  have hsub : ∀ c ∈ ([32, 9, 13] : Bytes), c ∈ white :=
                    forall_mem_of_all (by decide)
                  exact hs d rfl (hsub d hd)
            refine hskip hbest hn hpos hle (Gap.drop (.white hc hg) fun d hd => hblanks d ?_)
              fun _ _ => ⟨_, rfl⟩
            rw [← List.cons_append, List.take_append, Nat.sub_eq_zero_of_le hle, List.take_zero,
              List.append_nil]
            exact hd
      | @line body g hbody hg =>
          have htext : 45 :: 45 :: body ++ newline :: g ++ s =
              45 :: 45 :: body ++ newline :: (g ++ s) := by simp
          have hscore := score_lineComment hbody (s := newline :: (g ++ s)) (by rintro c ⟨⟩; rfl)
          rw [← htext] at hscore
          have hdrop : (45 :: 45 :: body ++ newline :: g).drop (body.length + 2) = newline :: g := by
            rw [show body.length + 2 = (45 :: 45 :: body : Bytes).length from rfl]
            exact List.drop_left' rfl
          refine hskip (best_lineComment (lt_of_lt_of_eq (by omega) hscore.symm)) hscore
            (Nat.succ_pos _) (by simp) ?_ fun _ _ => ⟨_, rfl⟩
          rw [hdrop]
          exact .white (by decide) hg
      | @block body g hbody hg =>
          have htext : 47 :: 42 :: body ++ 42 :: 47 :: g ++ s =
              47 :: 42 :: body ++ 42 :: 47 :: (g ++ s) := by simp
          have hscore := score_blockComment hbody (g ++ s)
          rw [← htext] at hscore
          have hdrop : (47 :: 42 :: body ++ 42 :: 47 :: g).drop (body.length + 4) = g := by
            rw [show 47 :: 42 :: body ++ 42 :: 47 :: g = (47 :: 42 :: body ++ [42, 47]) ++ g by simp]
            exact List.drop_left' (by simp)
          refine hskip (best_comment (.inr rfl)
            (show skipRules = [spaceRule, newlineRule, lineCommentRule] ++ blockCommentRule :: [] from
              rfl) (by decide) ?_) hscore (Nat.succ_pos _) (by simp) ?_ fun _ _ => ⟨_, rfl⟩
          · exact lt_of_lt_of_eq (by omega) hscore.symm
          · rw [hdrop]
            exact hg

/-! ## A whole text -/

theorem Spells.starts {w : Bytes} {t : Token} (h : Spells w t) (s : Bytes) : Starts (w ++ s) := by
  have hopens : Opens (w ++ []) → Starts (w ++ s) := by
    rintro ⟨b, x, hx, hb, _⟩ c hc
    rw [List.append_nil] at hx
    rw [hx] at hc
    rwa [← Option.some.inj hc]
  cases h with
  | fixed hentry hw => exact hopens (opens_fixed hentry hw apart_nil).1
  | num hne hdigits =>
      obtain ⟨b, w, rfl⟩ := List.exists_cons_of_ne_nil hne
      exact hopens (opens_word _ (List.mem_append_right _ (hdigits b List.mem_cons_self)))
  | ident hident =>
      obtain ⟨b, w, rfl, hb, _⟩ := ident_iff.mp hident
      exact hopens (opens_word _ (List.mem_append_left _ hb))
  | str ps =>
      intro c hc
      rw [literalText, List.cons_append, List.cons_append] at hc
      rw [← Option.some.inj hc]
      decide

/-- **A text of spelled tokens is scanned to them**, whatever the layout. -/
theorem lexLoop_layout {s : Bytes} {ts : List Token} (h : Layout s ts) :
    ∀ fuel, s.length < fuel → ∀ pos : Position, ∃ symbols, lexLoop fuel s pos = .ok symbols ∧
      symbols.map Symbol.token = ts ++ [.endOfInput] := by
  induction h with
  | @done g hg =>
      intro fuel hfuel pos
      obtain ⟨fuel, rfl⟩ : ∃ k, fuel = k + 1 := ⟨fuel - 1, by omega⟩
      obtain ⟨fuel', tok', pos', _, hrun⟩ := yylexLoop_gap (s := []) hg (by rintro c ⟨⟩) le_rfl
        pos pos
      rw [List.append_nil] at hrun
      have hend : yylexLoop lexerRules fuel' [] tok' pos' =
          .ok (⟨.endOfInput, ⟨tok', pos'⟩⟩, [], pos') := by cases fuel' <;> rfl
      exact ⟨[⟨.endOfInput, ⟨tok', pos'⟩⟩], by rw [lexLoop, yylex, hrun, hend]; rfl, rfl⟩
  | @comment g body hg hbody =>
      intro fuel hfuel pos
      obtain ⟨fuel, rfl⟩ : ∃ k, fuel = k + 1 := ⟨fuel - 1, by omega⟩
      obtain ⟨fuel', tok', pos', hfuel', hrun⟩ := yylexLoop_gap hg
        (by rintro c ⟨⟩; decide : Starts (45 :: 45 :: body)) le_rfl pos pos
      obtain ⟨fuel', rfl⟩ : ∃ k, fuel' = k + 1 := ⟨fuel' - 1, by simp at hfuel'; omega⟩
      have hscore := score_lineComment hbody (s := []) (by rintro c ⟨⟩)
      rw [List.append_nil] at hscore
      have hskip : yylexLoop lexerRules (fuel' + 1) (45 :: 45 :: body) tok' pos' = _ :=
        yylexLoop_skip (List.cons_ne_nil 45 (45 :: body))
          (best_lineComment (lt_of_lt_of_eq (by omega) hscore.symm)) hscore rfl
      rw [List.drop_of_length_le (by simp)] at hskip
      have hend : ∀ p, yylexLoop lexerRules fuel' [] pos' p = .ok (⟨.endOfInput, ⟨pos', p⟩⟩, [], p) := by
        intro p
        cases fuel' <;> rfl
      rw [hend] at hskip
      exact ⟨_, by rw [lexLoop, yylex, hrun, hskip]; rfl, rfl⟩
  | @token g w s t ts hg hw hs _ ih =>
      intro fuel hfuel pos
      obtain ⟨fuel, rfl⟩ : ∃ k, fuel = k + 1 := ⟨fuel - 1, by omega⟩
      obtain ⟨fuel', tok', pos', hfuel', hrun⟩ := yylexLoop_gap hg (hw.starts s) le_rfl
        pos pos
      have hpos : 0 < w.length := List.length_pos_iff.mpr hw.first.1
      rw [List.length_append] at hfuel'
      obtain ⟨fuel', rfl⟩ : ∃ k, fuel' = k + 1 := ⟨fuel' - 1, by omega⟩
      rw [List.append_assoc, List.length_append, List.length_append] at hfuel
      obtain ⟨symbols, hmore, htokens⟩ := ih fuel (by omega) (pos'.advance w.length)
      refine ⟨⟨t, ⟨pos', pos'.advance w.length⟩⟩ :: symbols, ?_, by rw [List.map_cons, htokens]; rfl⟩
      rw [lexLoop, yylex, List.append_assoc, hrun, yylexLoop_spelled hw hs, ok_bind]
      dsimp only
      rw [if_neg hw.ne_endOfInput, hmore]
      rfl

/-! ## What the scanner takes apart -/

theorem Gap.append {g g' : Bytes} (h : Gap g) (h' : Gap g') : Gap (g ++ g') := by
  induction h with
  | nil => exact h'
  | white hc _ ih => exact .white hc ih
  | line hbody _ ih =>
      rw [List.append_assoc, List.cons_append]
      exact .line hbody ih
  | block hbody _ ih =>
      rw [List.append_assoc, List.cons_append, List.cons_append]
      exact .block hbody ih

theorem gap_of_white {g : Bytes} (h : ∀ c ∈ g, c ∈ white) : Gap g := by
  induction g with
  | nil => exact .nil
  | cons c g ih =>
      obtain ⟨hc, hg⟩ := List.forall_mem_cons.mp h
      exact .white hc (ih hg)

theorem Layout.behind_gap {g s : Bytes} {ts : List Token} (hg : Gap g) (h : Layout s ts) :
    Layout (g ++ s) ts := by
  cases h with
  | done hs => exact .done (hg.append hs)
  | comment hs hbody =>
      rw [← List.append_assoc]
      exact .comment (hg.append hs) hbody
  | token hs hw hlong h =>
      rw [← List.append_assoc, ← List.append_assoc]
      exact .token (hg.append hs) hw hlong h

/-- A line comment in front of the end of its line. -/
theorem Layout.behind_line {body s : Bytes} {ts : List Token} (hbody : newline ∉ body)
    (hs : ∀ c ∈ s.head?, c = newline) (h : Layout s ts) : Layout (45 :: 45 :: body ++ s) ts := by
  have hgap : ∀ {g : Bytes}, g ≠ [] → Gap g → (∀ c ∈ g.head?, c = newline) →
      Gap (45 :: 45 :: body ++ g) := by
    intro g hne hg hhead
    obtain ⟨c, g, rfl⟩ := List.exists_cons_of_ne_nil hne
    obtain rfl := hhead c rfl
    cases hg with
    | white _ hg => exact .line hbody hg
  cases h with
  | done hg =>
      cases s with
      | nil =>
          rw [List.append_nil]
          exact .comment .nil hbody
      | cons c g => exact .done (hgap (List.cons_ne_nil c g) hg hs)
  | @comment g body' hg hbody' =>
      cases g with
      | nil => cases hs 45 rfl
      | cons c g =>
          rw [← List.append_assoc]
          exact .comment (hgap (List.cons_ne_nil c g) hg hs) hbody'
  | @token g w s t ts hg hw hlong h =>
      cases g with
      | nil =>
          obtain ⟨c, w, rfl⟩ := List.exists_cons_of_ne_nil hw.first.1
          obtain rfl := hs c rfl
          exact absurd (by decide) (hw.starts s newline rfl)
      | cons c g =>
          rw [← List.append_assoc, ← List.append_assoc]
          exact .token (hgap (List.cons_ne_nil c g) hg hs) hw hlong h

/-- The first end of a comment is no later than any. -/
theorem afterClose_le {u v r : Bytes} (h : afterClose (u ++ 42 :: 47 :: v) = some r) :
    v.length ≤ r.length := by
  induction u with
  | nil =>
      obtain rfl := Option.some.inj h
      exact le_rfl
  | cons c u ih =>
      rw [List.cons_append, afterClose] at h
      split at h
      · obtain rfl := Option.some.inj h
        cases u with
        | nil => simp
        | cons d u =>
            simp
            omega
      · exact ih h

theorem gap_of_blockComment {x : Bytes} (h : x ∈ blockCommentRule.pattern.matches') : Gap x := by
  obtain ⟨a, ha, b, hb, rfl⟩ := Language.mem_mul.mp h
  obtain rfl := eq_of_map_toLower (forall_mem_of_all (by decide)) ((mem_literal (by decide)).mp ha)
  have hclose := afterClose_of_mem hb []
  obtain ⟨u, _, y, hy, rfl⟩ := Language.mem_mul.mp hb
  obtain ⟨c, hc, d, hd, rfl⟩ := Language.mem_mul.mp hy
  obtain ⟨k, rfl⟩ := mem_oneOrMore_char.mp hc
  obtain rfl := mem_slash.mp hd
  have htext : u ++ (List.replicate (k + 1) 42 ++ [47]) = u ++ List.replicate k 42 ++ [42, 47] := by
    rw [List.replicate_succ']
    simp
  rw [htext] at hclose ⊢
  refine .block (s := []) (fun hi => ?_) .nil
  -- an earlier end would be the first
  obtain ⟨v, w, hvw⟩ := hi
  have hlen := @afterClose_le v (w ++ [47]) [] (by
    rw [← hclose, List.append_nil]
    congr 1
    have hlong : u ++ List.replicate k 42 ++ [42, 47] = (u ++ List.replicate k 42 ++ [42]) ++ [47] := by
      simp
    rw [hlong, ← hvw]
    simp)
  simp at hlen

/-- What a rule skips is a gap, or a comment on the rest of a line. -/
theorem skipped_gap {s : Bytes} {rule : Rule} {p p' : Position}
    (hbest : best (Rule.score s) lexerRules = some rule)
    (haction : rule.action (s.take (rule.score s)) p = .skip p') : Gap (s.take (rule.score s)) ∨
      ∃ body, s.take (rule.score s) = 45 :: 45 :: body ∧ newline ∉ body ∧
        ∀ c ∈ (s.drop (rule.score s)).head?, c = newline := by
  obtain ⟨hmax, hpos⟩ := best_firstMax hbest
  have hword : s.take (rule.score s) ∈ rule.pattern.matches' := take_matchLength_mem hpos
  have hrule := hmax.mem
  simp only [lexerRules, List.mem_append, List.mem_cons, List.not_mem_nil, or_false] at hrule
  rcases hrule with ((rfl | rfl | rfl | rfl) | hrule) | rfl | rfl | rfl | rfl | rfl
  · have honly : (spaceRule.pattern.only fun d => white.contains d) = true := by decide
    exact Or.inl (gap_of_white fun c hc => by simpa using letters_of_mem honly hword c hc)
  · rw [show s.take (newlineRule.score s) = [newline] from hword]
    exact Or.inl (.white (by decide) .nil)
  · obtain ⟨a, ha, body, hbody, hsplit⟩ := Language.mem_mul.mp hword
    obtain rfl := eq_of_map_toLower (forall_mem_of_all (by decide)) ((mem_literal (by decide)).mp ha)
    have hline : newline ∉ body := fun hmem => by
      simpa using (List.mem_filter.mp (mem_oneOf_star.mp hbody newline hmem)).2
    refine Or.inr ⟨body, hsplit.symm, hline, fun c hc => ?_⟩
    -- otherwise the comment would go on
    by_contra hne
    obtain ⟨rest, hrest⟩ : ∃ rest, s.drop (lineCommentRule.score s) = c :: rest := by
      cases hd : s.drop (lineCommentRule.score s) with
      | nil =>
          rw [hd] at hc
          cases hc
      | cons d rest =>
          rw [hd] at hc
          exact ⟨rest, by rw [Option.some.inj hc]⟩
    have hs : s = (45 :: 45 :: (body ++ [c])) ++ rest := by
      rw [← List.take_append_drop (lineCommentRule.score s) s, ← hsplit, hrest]
      simp [Bytes.ofString]
    have hlonger : (45 :: 45 :: (body ++ [c])).length ≤
        lineCommentRule.score ((45 :: 45 :: (body ++ [c])) ++ rest) :=
      length_le_matchLength (Language.mem_mul.mpr ⟨[45, 45], (mem_literal (by decide)).mpr (by decide),
        body ++ [c], ?_, rfl⟩)
    · rw [← hs] at hlonger
      have hlen := congrArg List.length hsplit
      have hle : lineCommentRule.score s ≤ s.length := matchLength_le _ _
      rw [List.length_take, Nat.min_eq_left hle] at hlen
      simp [Bytes.ofString] at hlen hlonger
      omega
    · refine mem_oneOf_star.mpr fun d hd => ?_
      rcases List.mem_append.mp hd with hd | hd
      · exact mem_oneOf_star.mp hbody d hd
      · rw [List.mem_singleton.mp hd, List.mem_filter, mem_span (by decide)]
        exact ⟨⟨Nat.zero_le _, Nat.le_of_lt_succ c.toNat_lt⟩, by simpa using hne⟩
  · exact Or.inl (gap_of_blockComment hword)
  · obtain ⟨entry, _, rfl⟩ := List.mem_map.mp hrule
    cases haction
  · change (if _ then Act.token _ else Act.reject _) = _ at haction
    split at haction <;> cases haction
  · cases haction
  · cases haction
  · cases haction
  · cases haction

/-- **What the scanner takes off the text**: a gap, and the next token or the end. -/
theorem yylexLoop_cut {fuel : Nat} {s rest : Bytes} {tok pos pos' : Position} {symbol : Symbol}
    (hfuel : s.length ≤ fuel)
    (h : yylexLoop lexerRules fuel s tok pos = .ok (symbol, rest, pos')) :
    (symbol.token = .endOfInput ∧ Layout s []) ∨ (symbol.token ≠ .endOfInput ∧
      rest.length < s.length ∧ ∀ ts, Layout rest ts → Layout s (symbol.token :: ts)) := by
  induction fuel generalizing s tok pos with
  | zero =>
      obtain rfl := List.eq_nil_of_length_eq_zero (Nat.le_zero.mp hfuel)
      obtain ⟨rfl, _⟩ := Prod.mk.inj (Except.ok.inj h)
      exact Or.inl ⟨rfl, .done .nil⟩
  | succ fuel ih =>
      rw [yylexLoop] at h
      split at h
      · rename_i hs
        obtain ⟨rfl, _⟩ := Prod.mk.inj (Except.ok.inj h)
        rw [hs]
        exact Or.inl ⟨rfl, .done .nil⟩
      · rename_i hs
        cases hbest : best (Rule.score s) lexerRules with
        | none =>
            -- some rule matches any byte
            exfalso
            obtain ⟨c, s, rfl⟩ := List.exists_cons_of_ne_nil hs
            have hzero := best_eq_none hbest
            by_cases hc : c = newline
            · have hle : [c].length ≤ newlineRule.score ([c] ++ s) :=
                length_le_matchLength (by rw [hc]; rfl)
              rw [List.singleton_append, hzero newlineRule (by simp [lexerRules])] at hle
              cases hle
            · have hle : [c].length ≤ otherRule.score ([c] ++ s) :=
                length_le_matchLength (mem_noneOf.mpr ⟨c, by simpa using hc, rfl⟩)
              rw [List.singleton_append, hzero otherRule (by simp [lexerRules])] at hle
              cases hle
        | some rule =>
            obtain ⟨hmax, hpos⟩ := best_firstMax hbest
            have hle : rule.score s ≤ s.length := matchLength_le _ _
            have htext := List.take_append_drop (rule.score s) s
            have hlen := congrArg List.length htext
            rw [List.length_append, List.length_take, Nat.min_eq_left hle] at hlen
            rw [hbest] at h
            dsimp only at h
            cases haction : rule.action (s.take (rule.score s)) (pos.advance (rule.score s)) with
            | skip pos'' =>
                rw [haction] at h
                -- what is skipped stays in front
                have hfront : ∀ ts, Layout (s.drop (rule.score s)) ts → Layout s ts := by
                  intro ts hts
                  rw [← htext]
                  rcases skipped_gap hbest haction with hgap | ⟨body, hbody, hline, hhead⟩
                  · exact hts.behind_gap hgap
                  · rw [hbody]
                    exact hts.behind_line hline hhead
                rcases ih (by omega) h with ⟨hend, hrest⟩ | ⟨hne, hshort, hrest⟩
                · exact Or.inl ⟨hend, hfront [] hrest⟩
                · exact Or.inr ⟨hne, by omega, fun ts hts => hfront _ (hrest ts hts)⟩
            | token token =>
                rw [haction] at h
                dsimp only at h
                rw [Except.ok.injEq, Prod.mk.injEq, Prod.mk.injEq] at h
                obtain ⟨rfl, rfl, _⟩ := h
                have hspell := spells_of_best hbest haction
                refine Or.inr ⟨hspell.ne_endOfInput, by omega, fun ts hts => ?_⟩
                have hlayout := Layout.token .nil hspell (fun r hr => ?_) hts
                · rwa [List.nil_append, htext] at hlayout
                · rw [htext, List.length_take, Nat.min_eq_left hle]
                  exact hmax.le hr
            | reject msg =>
                rw [haction] at h
                cases h

theorem layout_of_lexLoop {fuel : Nat} {s : Bytes} {pos : Position} {symbols : List Symbol}
    (hfuel : s.length < fuel) (h : lexLoop fuel s pos = .ok symbols) :
    ∃ ts, symbols.map Symbol.token = ts ++ [.endOfInput] ∧ Layout s ts := by
  induction fuel generalizing s pos symbols with
  | zero => exact absurd hfuel (Nat.not_lt_zero _)
  | succ fuel ih =>
      rw [lexLoop, bind_eq_ok] at h
      obtain ⟨⟨symbol, rest, pos'⟩, hsymbol, h⟩ := h
      dsimp only at h
      rcases yylexLoop_cut le_rfl hsymbol with ⟨hend, hlayout⟩ | ⟨hne, hshort, hlayout⟩
      · rw [if_pos hend] at h
        obtain rfl := Except.ok.inj h
        exact ⟨[], by rw [List.map_singleton, hend]; rfl, hlayout⟩
      · rw [if_neg hne, bind_eq_ok] at h
        obtain ⟨more, hmore, h⟩ := h
        obtain rfl := Except.ok.inj h
        obtain ⟨ts, hmap, hts⟩ := ih (by omega) hmore
        exact ⟨symbol.token :: ts, by rw [List.map_cons, hmap]; rfl, hlayout ts hts⟩

/-- **The scanner yields exactly the layouts of a text.** Whatever is skipped is white space or a
comment, a token's text is as long as any rule has it, and no other text lexes. -/
theorem lex_eq_ok_iff {sql : Bytes} {ts : List Token} :
    (∃ symbols, lex sql = .ok symbols ∧ symbols.map Symbol.token = ts ++ [.endOfInput]) ↔
      Layout sql ts := by
  constructor
  · rintro ⟨symbols, h, hmap⟩
    obtain ⟨ts', hmap', hlayout⟩ := layout_of_lexLoop (Nat.lt_succ_self _) h
    rwa [← List.append_cancel_right (hmap'.symm.trans hmap)]
  · exact fun h => lexLoop_layout h _ (Nat.lt_succ_self _) {}

end SqlDb
