import SqlDb.Catalog.TableText
import SqlDb.Ql.Quote

/-!
# How tokens are spelled

A keyword is spelled in letters of either case, a number in digits, and a name in any way
that does not spell a keyword. In front of white space or the end the scanner takes such a
text for its token, whatever else begins like it; and it makes no token that is not spelled
so.
-/

namespace SqlDb

open RegularExpression Outcome

/-- `std::tolower` on ASCII. -/
def toLower (c : UInt8) : UInt8 := if 65 ≤ c ∧ c ≤ 90 then c + 32 else c

/-- The text that a token is made of. -/
inductive Spells : Bytes → Token → Prop where
  | fixed {w : Bytes} {entry : String × Token} : entry ∈ fixedTokens →
      w.map toLower = Bytes.ofString entry.1 → Spells w entry.2
  | num {w : Bytes} : w ≠ [] → (∀ c ∈ w, c ∈ digits) → digitsValue w < 2 ^ 63 →
      Spells w (.num (.ofNat (digitsValue w)))
  | ident {w : Bytes} : Ident w → (∀ entry ∈ fixedTokens, w.map toLower ≠ Bytes.ofString entry.1) →
      Spells w (.ident w)
  | str (ps : List Piece) : Spells (literalText ps) (.str (ps.map Piece.value))

/-- What ends a token and is skipped: blanks, tabs, carriage returns and newlines. -/
def white : Bytes := [32, 9, 13, newline]

/-- The text ends, or a white byte is next. -/
def Apart (rest : Bytes) : Prop := ∀ c ∈ rest.head?, c ∈ white

/-! ## Keywords -/

theorem toLower_eq {c d : UInt8} (hc : toLower c = c) :
    toLower d = c ↔ d = c ∨ (97 ≤ c ∧ c ≤ 122) ∧ d = c - 32 := by
  unfold toLower at hc ⊢
  grind

theorem mem_caseless {c : UInt8} (hc : toLower c = c) {x : Bytes} :
    x ∈ (caseless c).matches' ↔ ∃ d, x = [d] ∧ toLower d = c := by
  unfold caseless
  simp only [toLower_eq hc]
  split
  · rename_i hletter
    rw [mem_oneOf]
    constructor
    · rintro ⟨d, hd, rfl⟩
      exact ⟨d, rfl, by simpa [hletter] using hd⟩
    · rintro ⟨d, rfl, hd⟩
      exact ⟨d, by simpa [hletter] using hd, rfl⟩
  · rename_i hletter
    constructor
    · intro h
      exact ⟨c, h, Or.inl rfl⟩
    · rintro ⟨d, rfl, rfl | hd⟩
      · rfl
      · exact absurd hd.1 hletter

/-- **A quoted pattern** matches its text in letters of either case. -/
theorem mem_literal {s : String} (hs : (Bytes.ofString s).map toLower = Bytes.ofString s) {x : Bytes} :
    x ∈ (literal s).matches' ↔ x.map toLower = Bytes.ofString s := by
  unfold literal
  generalize Bytes.ofString s = w at hs
  induction w generalizing x with
  | nil =>
      rw [List.map_nil, List.prod_nil, List.map_eq_nil_iff]
      exact Iff.rfl
  | cons c w ih =>
      obtain ⟨hc, hw⟩ := List.cons.inj hs
      rw [List.map_cons, List.prod_cons, matches'_mul, Language.mem_mul]
      constructor
      · rintro ⟨a, ha, b, hb, rfl⟩
        obtain ⟨d, rfl, hd⟩ := (mem_caseless hc).mp ha
        rw [List.singleton_append, List.map_cons, hd, (ih hw).mp hb]
      · intro h
        obtain ⟨d, x, rfl, hd, hx⟩ := List.map_eq_cons_iff.mp h
        exact ⟨[d], (mem_caseless hc).mpr ⟨d, rfl, hd⟩, x, (ih hw).mpr hx, rfl⟩

theorem fixedTokens_lower : ∀ entry ∈ fixedTokens,
    (Bytes.ofString entry.1).map toLower = Bytes.ofString entry.1 := by decide

theorem mem_fixedRule {entry : String × Token} (h : entry ∈ fixedTokens) {w : Bytes} :
    w ∈ (fixedRule entry.1 entry.2).pattern.matches' ↔ w.map toLower = Bytes.ofString entry.1 :=
  mem_literal (fixedTokens_lower entry h)

/-! ## The rule that wins -/

def skipRules : List Rule := [spaceRule, newlineRule, lineCommentRule, blockCommentRule]

def wordRules : List Rule := fixedRules ++ [numRule, identRule]

theorem lexerRules_eq : lexerRules = skipRules ++ (wordRules ++ [strRule, quoteRule, otherRule]) := by
  simp [lexerRules, skipRules, wordRules]

/-- No word of these has a white byte in it, so that they end where the token does. -/
theorem wordRules_score {rule : Rule} (hrule : rule ∈ wordRules) {w rest : Bytes}
    (hrest : Apart rest) : rule.score (w ++ rest) ≤ w.length := by
  have honly : wordRules.all (fun rule => rule.pattern.only fun c => !white.contains c) = true := by
    decide
  cases rest with
  | nil => exact (matchLength_le _ _).trans_eq (by rw [List.append_nil])
  | cons c rest =>
      have hc : c ∈ white := hrest c rfl
      refine matchLength_le_of_notMem fun x hx hmem => ?_
      simpa [hc] using letters_of_mem (List.all_eq_true.mp honly rule hrule) hx c hmem

/-- The members of a list can be gone through. -/
theorem forall_mem_of_all {α : Type} {p : α → Prop} [DecidablePred p] {xs : List α}
    (h : xs.all (fun a => p a) = true) : ∀ a ∈ xs, p a :=
  fun a ha => of_decide_eq_true (List.all_eq_true.mp h a ha)

theorem toLower_of_lt {c : UInt8} (h : c < 65) : toLower c = c := by
  unfold toLower
  grind

theorem eq_of_map_toLower {w x : Bytes} (hw : ∀ c ∈ w, c < 65) (h : x.map toLower = w) : x = w := by
  induction w generalizing x with
  | nil => exact List.map_eq_nil_iff.mp h
  | cons c w ih =>
      obtain ⟨hc, hw⟩ := List.forall_mem_cons.mp hw
      obtain ⟨d, x, rfl, hd, hx⟩ := List.map_eq_cons_iff.mp h
      have hdc : d = c := by
        unfold toLower at hd
        grind
      rw [hdc, ih hw hx]

/-- A pattern that begins with a text without letters. -/
theorem mem_opening {s : String} {r : RegularExpression UInt8} {x : Bytes}
    (hs : ∀ c ∈ Bytes.ofString s, c < 65) (h : x ∈ (literal s * r).matches') :
    ∃ y, x = Bytes.ofString s ++ y := by
  obtain ⟨a, ha, b, _, rfl⟩ := Language.mem_mul.mp h
  have hlower : (Bytes.ofString s).map toLower = Bytes.ofString s :=
    (List.map_congr_left fun c hc => toLower_of_lt (hs c hc)).trans (List.map_id _)
  exact ⟨b, by rw [eq_of_map_toLower hs ((mem_literal hlower).mp ha)]⟩

/-- A text that begins with no white byte and no comment. -/
def Opens (s : Bytes) : Prop :=
  ∃ b s', s = b :: s' ∧ b ∉ white ∧ (b = 45 → s'.head? ≠ some 45) ∧ (b = 47 → s'.head? ≠ some 42)

theorem skipRules_score {rule : Rule} (hrule : rule ∈ skipRules) {s : Bytes} (h : Opens s) :
    rule.score s = 0 := by
  obtain ⟨b, s, rfl, hwhite, hdash, hslash⟩ := h
  -- a comment's words have a second letter
  have hsecond : ∀ {r : RegularExpression UInt8} {c d : UInt8},
      (∀ x ∈ r.matches', ∃ y, x = c :: d :: y) → (b = c → s.head? ≠ some d) →
      r.matchLength (b :: s) = 0 := by
    intro r c d hr hne
    refine Nat.eq_zero_of_not_pos fun hpos => ?_
    obtain ⟨y, hy⟩ := hr _ (take_matchLength_mem hpos)
    obtain ⟨n, hn⟩ := Nat.exists_eq_succ_of_ne_zero (Nat.pos_iff_ne_zero.mp hpos)
    rw [hn, List.take_succ_cons] at hy
    obtain ⟨hb, htake⟩ := List.cons.inj hy
    refine hne hb ?_
    cases s with
    | nil => simp at htake
    | cons e s =>
        cases n with
        | zero => cases htake
        | succ n =>
            rw [List.take_succ_cons] at htake
            exact congrArg some (List.cons.inj htake).1
  simp only [skipRules, List.mem_cons, List.not_mem_nil, or_false] at hrule
  rcases hrule with rfl | rfl | rfl | rfl
  · refine matchLength_eq_zero (Bool.eq_false_iff.mpr fun h => hwhite ?_)
    have hsub : ∀ c ∈ ([32, 9, 13] : Bytes), c ∈ white := forall_mem_of_all (by decide)
    exact hsub b (startsWith_oneOrMore.mp h)
  · refine matchLength_eq_zero (Bool.eq_false_iff.mpr fun h => hwhite ?_)
    obtain rfl : newline = b := by simpa [newlineRule, startsWith] using h
    decide
  · exact hsecond (fun x hx => mem_opening (forall_mem_of_all (by decide)) hx) hdash
  · exact hsecond (fun x hx => mem_opening (forall_mem_of_all (by decide)) hx) hslash

/-! ## One token -/

theorem not_white_of_word {b : UInt8} (h : b ∈ letters ++ digits) :
    b ∉ white ∧ b ≠ 45 ∧ b ≠ 47 ∧ b ≠ 39 := by
  have hclass : ∀ b ∈ letters ++ digits, b ∉ white ∧ b ≠ 45 ∧ b ≠ 47 ∧ b ≠ 39 :=
    forall_mem_of_all (by decide)
  exact hclass b h

/-- A word in letters and digits. -/
theorem opens_word {b : UInt8} (s : Bytes) (h : b ∈ letters ++ digits) : Opens (b :: s) := by
  obtain ⟨hwhite, hdash, hslash, _⟩ := not_white_of_word h
  exact ⟨b, s, rfl, hwhite, fun h => absurd h hdash, fun h => absurd h hslash⟩

theorem apart_nil : Apart [] := by
  rintro c ⟨⟩

theorem Apart.head?_ne {rest : Bytes} (h : Apart rest) {c : UInt8} (hc : c ∉ white) :
    rest.head? ≠ some c := fun he => hc (h c he)

/-- What a keyword or an operator begins with. -/
theorem opens_fixed {entry : String × Token} (hentry : entry ∈ fixedTokens) {w rest : Bytes}
    (hw : w.map toLower = Bytes.ofString entry.1) (hrest : Apart rest) :
    Opens (w ++ rest) ∧ w.head? ≠ some 39 := by
  have hfirst : ∀ entry ∈ fixedTokens,
      (Bytes.ofString entry.1).head?.all (fun c => c ∉ white ∧ c ≠ 39) = true := by decide
  have hopen : ∀ entry ∈ fixedTokens, Bytes.ofString entry.1 ≠ [] ∧
      ((Bytes.ofString entry.1).head? ∈ [some 45, some 47] →
        (Bytes.ofString entry.1).tail = []) := by
    decide
  have hsame : ∀ b : UInt8, b ∈ white ∨ b = 45 ∨ b = 47 ∨ b = 39 → toLower b = b := by
    intro b hb
    have hlow : ∀ b ∈ white ++ [45, 47, 39], b < 65 := forall_mem_of_all (by decide)
    exact toLower_of_lt (hlow b (by simpa using hb))
  obtain ⟨hne, hopen⟩ := hopen entry hentry
  have hfirst := hfirst entry hentry
  rw [← hw] at hne hopen hfirst
  obtain ⟨b, w, rfl⟩ := List.exists_cons_of_ne_nil fun h => hne (congrArg (List.map toLower) h)
  obtain ⟨hwhite, hquote⟩ := of_decide_eq_true hfirst
  -- what begins like a comment is that byte alone
  have hnil : b = 45 ∨ b = 47 → w = [] := by
    intro hb
    have hlower : toLower b = b := hsame b (.inr (hb.imp_right .inl))
    refine List.map_eq_nil_iff.mp (hopen ?_)
    rw [List.map_cons, List.head?_cons, hlower]
    simpa using hb
  refine ⟨⟨b, w ++ rest, rfl, fun h => hwhite ?_, fun h => ?_, fun h => ?_⟩, fun h => ?_⟩
  · rwa [hsame b (.inl h)]
  · rw [hnil (.inl h)]
    exact hrest.head?_ne (by decide)
  · rw [hnil (.inr h)]
    exact hrest.head?_ne (by decide)
  · obtain rfl := Option.some.inj h
    exact hquote (hsame 39 (by simp))

/-- The keywords and operators are all different. -/
theorem fixedTokens_nodup : (fixedTokens.map fun entry => Bytes.ofString entry.1).Nodup := by decide

/-- In front of the rules for words no rule matches a text that begins neither white space nor a
comment. -/
theorem first_of_wordRules {w : Bytes} {rule : Rule} {before after : List Rule} (hopens : Opens w)
    (hsplit : wordRules = before ++ rule :: after) (hbefore : ∀ r ∈ before, w ∉ r.pattern.matches') :
    lexerRules = (skipRules ++ before) ++ rule :: (after ++ [strRule, quoteRule, otherRule]) ∧
      ∀ r ∈ skipRules ++ before, w ∉ r.pattern.matches' := by
  refine ⟨by rw [lexerRules_eq, hsplit]; simp, fun r hr hmem => ?_⟩
  rcases List.mem_append.mp hr with hr | hr
  · have hscore : w.length ≤ r.score (w ++ []) := length_le_matchLength hmem
    rw [List.append_nil, skipRules_score hr hopens] at hscore
    obtain ⟨b, s, rfl, _⟩ := hopens
    cases hscore
  · exact hbefore r hr hmem

/-- **A spelling's rule is the first that matches it.** -/
theorem Spells.first {w : Bytes} {t : Token} (h : Spells w t) : w ≠ [] ∧ ∃ before rule after,
    lexerRules = before ++ rule :: after ∧ w ∈ rule.pattern.matches' ∧
      (∀ r ∈ before, w ∉ r.pattern.matches') ∧ ∀ pos, rule.action w pos = .token t := by
  cases h with
  | @fixed w entry hentry hw =>
      obtain ⟨hopens, _⟩ := opens_fixed hentry hw apart_nil
      rw [List.append_nil] at hopens
      obtain ⟨as, bs, hsplit⟩ := List.append_of_mem hentry
      have hrules : wordRules = as.map (fun e => fixedRule e.1 e.2) ++ fixedRule entry.1 entry.2 ::
          (bs.map (fun e => fixedRule e.1 e.2) ++ [numRule, identRule]) := by
        rw [wordRules, fixedRules, hsplit]
        simp
      obtain ⟨hlexer, hnone⟩ := first_of_wordRules hopens hrules fun rule hrule hmem => by
        obtain ⟨e, he, rfl⟩ := List.mem_map.mp hrule
        rw [mem_fixedRule (by rw [hsplit]; exact List.mem_append_left _ he), hw] at hmem
        have hnodup := fixedTokens_nodup
        rw [hsplit, List.map_append, List.map_cons] at hnodup
        exact (List.nodup_append.mp hnodup).2.2 _ (List.mem_map_of_mem he) _ List.mem_cons_self
          hmem.symm
      refine ⟨?_, _, _, _, hlexer, (mem_fixedRule hentry).mpr hw, hnone, fun pos => rfl⟩
      obtain ⟨b, s, rfl, _⟩ := hopens
      exact List.cons_ne_nil b s
  | num hne hdigits hlt =>
      obtain ⟨b, w, rfl⟩ := List.exists_cons_of_ne_nil hne
      have hb : b ∈ digits := hdigits b List.mem_cons_self
      have hstart : ∀ b ∈ digits, fixedRules.all (fun rule => !rule.pattern.startsWith b) = true :=
        forall_mem_of_all (by decide)
      obtain ⟨hlexer, hnone⟩ := first_of_wordRules (opens_word w (List.mem_append_right _ hb))
        (show wordRules = fixedRules ++ numRule :: [identRule] from rfl) fun rule hrule hmem => by
          have hnot := List.all_eq_true.mp (hstart b hb) rule hrule
          rw [startsWith_of_mem hmem] at hnot
          cases hnot
      exact ⟨hne, _, _, _, hlexer, Language.mem_mul.mpr ⟨[b], mem_oneOf.mpr ⟨b, hb, rfl⟩, w,
        mem_oneOf_star.mpr fun c hc => hdigits c (List.mem_cons_of_mem _ hc), rfl⟩, hnone,
        fun pos => if_pos hlt⟩
  | ident hident hkey =>
      obtain ⟨b, w, rfl, hb, _⟩ := ident_iff.mp hident
      have hstart : ∀ b ∈ letters, numRule.pattern.startsWith b = false :=
        forall_mem_of_all (by decide)
      obtain ⟨hlexer, hnone⟩ := first_of_wordRules (opens_word w (List.mem_append_left _ hb))
        (show wordRules = (fixedRules ++ [numRule]) ++ identRule :: [] by simp [wordRules])
        fun rule hrule hmem => by
          rcases List.mem_append.mp hrule with hrule | hrule
          · obtain ⟨entry, hentry, rfl⟩ := List.mem_map.mp hrule
            exact hkey entry hentry ((mem_fixedRule hentry).mp hmem)
          · rw [List.mem_singleton.mp hrule] at hmem
            have hnot := hstart b hb
            rw [startsWith_of_mem hmem] at hnot
            cases hnot
      exact ⟨List.cons_ne_nil b w, _, _, _, hlexer, hident, hnone, fun pos => rfl⟩
  | str ps =>
      refine ⟨by simp [literalText], skipRules ++ wordRules, strRule, [quoteRule, otherRule],
        by rw [lexerRules_eq]; simp, mem_strRule.mpr ⟨ps, rfl⟩, fun rule hrule hmem => ?_,
        fun pos => congrArg (fun s => Act.token (.str s)) (unquote_literalText ps)⟩
      have hscore : (literalText ps).length ≤ rule.score (literalText ps ++ []) :=
        length_le_matchLength hmem
      have hzero := score_before (ps.flatMap Piece.text ++ [39] ++ []) rule
        (by simpa [skipRules, wordRules] using hrule)
      change rule.score (literalText ps ++ []) = 0 at hzero
      rw [hzero] at hscore
      simp [literalText] at hscore

/-- No rule matches beyond `w`. -/
def Longest (w rest : Bytes) : Prop := ∀ rule ∈ lexerRules, rule.score (w ++ rest) ≤ w.length

/-- **The rule of a token's spelling wins**, on the whole of it. -/
theorem Spells.best {w rest : Bytes} {t : Token} (h : Spells w t) (hlong : Longest w rest) :
    ∃ rule, best (Rule.score (w ++ rest)) lexerRules = some rule ∧
      rule.score (w ++ rest) = w.length ∧ ∀ pos, rule.action w pos = .token t := by
  obtain ⟨hw, before, rule, after, hsplit, hmem, hnone, haction⟩ := h.first
  have hin : ∀ r ∈ before ++ rule :: after, r.score (w ++ rest) ≤ w.length := fun r hr =>
    hlong r (hsplit ▸ hr)
  have hscore : rule.score (w ++ rest) = w.length :=
    le_antisymm (hin rule (by simp)) (length_le_matchLength hmem)
  refine ⟨rule, best_eq_some ⟨before, after, hsplit, fun r hr => ?_, fun r hr => ?_⟩
    (hscore ▸ List.length_pos_iff.mpr hw), hscore, haction⟩
  · rw [hscore]
    exact lt_of_le_of_ne (hin r (List.mem_append_left _ hr)) (matchLength_ne_length hw (hnone r hr))
  · rw [hscore]
    exact hin r (by simp [hr])

/-- **A token's text ends in front of white space**, and at the end. -/
theorem Spells.longest {w rest : Bytes} {t : Token} (h : Spells w t) (hrest : Apart rest) :
    Longest w rest := by
  have hlen : 0 < w.length := List.length_pos_iff.mpr h.first.1
  have hother : ∀ rule ∈ [quoteRule, otherRule], rule.score (w ++ rest) ≤ w.length :=
    fun rule hrule => (score_after _ rule hrule).trans hlen
  -- a token that is no literal
  have hword : Opens (w ++ rest) → w.head? ≠ some 39 → Longest w rest := by
    intro hopens hquote rule hrule
    rw [lexerRules_eq] at hrule
    rcases List.mem_append.mp hrule with hrule | hrule
    · rw [skipRules_score hrule hopens]
      exact Nat.zero_le _
    · rcases List.mem_append.mp hrule with hrule | hrule
      · exact wordRules_score hrule hrest
      · rcases List.mem_cons.mp hrule with rfl | hrule
        · obtain ⟨b, w, rfl⟩ := List.exists_cons_of_ne_nil h.first.1
          have hne : b ≠ 39 := fun h => hquote (congrArg some h)
          refine (matchLength_eq_zero ?_).trans_le (Nat.zero_le _)
          simp [strRule, startsWith, matchEpsilon, hne.symm]
        · exact hother rule hrule
  cases h with
  | fixed hentry hw =>
      obtain ⟨hopens, hquote⟩ := opens_fixed hentry hw hrest
      exact hword hopens hquote
  | num hne hdigits =>
      obtain ⟨b, w, rfl⟩ := List.exists_cons_of_ne_nil hne
      have hb := List.mem_append_right letters (hdigits b List.mem_cons_self)
      exact hword (opens_word _ hb) fun he => (not_white_of_word hb).2.2.2 (Option.some.inj he)
  | ident hident =>
      obtain ⟨b, w, rfl, hb, _⟩ := ident_iff.mp hident
      have hb := List.mem_append_left digits hb
      exact hword (opens_word _ hb) fun he => (not_white_of_word hb).2.2.2 (Option.some.inj he)
  | str ps =>
      intro rule hrule
      rw [lexerRules_eq, ← List.append_assoc] at hrule
      rcases List.mem_append.mp hrule with hrule | hrule
      · have hzero := score_before (ps.flatMap Piece.text ++ [39] ++ rest) rule
          (by simpa [skipRules, wordRules] using hrule)
        change rule.score (literalText ps ++ rest) = 0 at hzero
        rw [hzero]
        exact Nat.zero_le _
      · rcases List.mem_cons.mp hrule with rfl | hrule
        · exact le_of_eq (score_strRule ps (hrest.head?_ne (by decide)))
        · exact hother rule hrule

theorem yylexLoop_spelled {w rest : Bytes} {t : Token} (h : Spells w t) (hlong : Longest w rest)
    (fuel : Nat) (tok pos : Position) : yylexLoop lexerRules (fuel + 1) (w ++ rest) tok pos =
      .ok (⟨t, ⟨pos, pos.advance w.length⟩⟩, rest, pos.advance w.length) := by
  obtain ⟨rule, hbest, hscore, haction⟩ := h.best hlong
  have hne : w ++ rest ≠ [] := fun he => h.first.1 (List.append_eq_nil_iff.mp he).1
  have htake : rule.action ((w ++ rest).take (rule.score (w ++ rest)))
      (pos.advance (rule.score (w ++ rest))) = .token t := by
    rw [hscore, List.take_left' rfl]
    exact haction _
  rw [yylexLoop_token hne hbest htake, hscore, List.drop_left' rfl]

theorem Spells.ne_endOfInput {w : Bytes} {t : Token} (h : Spells w t) : t ≠ .endOfInput := by
  have hfixed : ∀ entry ∈ fixedTokens, entry.2 ≠ .endOfInput := by decide
  cases h with
  | fixed hentry => exact hfixed _ hentry
  | num => exact Token.noConfusion
  | ident => exact Token.noConfusion
  | str => exact Token.noConfusion

/-! ## What the scanner yields is spelled -/

/-- Where the rule for names wins, no keyword is spelled. -/
theorem no_keyword {s : Bytes} (h : best (Rule.score s) lexerRules = some identRule) :
    ∀ entry ∈ fixedTokens, (s.take (identRule.score s)).map toLower ≠ Bytes.ofString entry.1 := by
  obtain ⟨⟨before, after, hsplit, hbefore, _⟩, hpos⟩ := best_firstMax h
  intro entry hentry hkey
  have hle : identRule.score s ≤ (fixedRule entry.1 entry.2).score s :=
    le_matchLength (matchLength_le _ _) ((mem_fixedRule hentry).mpr hkey)
  -- the rules of the keywords are in front of the one for names
  have hfront : lexerRules = (skipRules ++ fixedRules ++ [numRule]) ++
      identRule :: [strRule, quoteRule, otherRule] := by simp [lexerRules, skipRules]
  have hother : (skipRules ++ fixedRules ++ [numRule]).all
      (fun rule => !rule.pattern.rmatch [95]) = true := by decide
  have hmem : fixedRule entry.1 entry.2 ∈ before := by
    have hin : fixedRule entry.1 entry.2 ∈ skipRules ++ fixedRules ++ [numRule] :=
      List.mem_append_left _ (List.mem_append_right _ (List.mem_map_of_mem hentry))
    rcases List.append_eq_append_iff.mp (hfront.symm.trans hsplit) with ⟨as, hb, _⟩ | ⟨bs, ha, hb⟩
    · rw [hb]
      exact List.mem_append_left _ hin
    · cases bs with
      | nil =>
          rw [List.append_nil] at ha
          rwa [← ha]
      | cons r bs =>
          obtain ⟨rfl, _⟩ := List.cons.inj hb
          have hno := List.all_eq_true.mp hother identRule (by rw [ha]; simp)
          rw [show identRule.pattern.rmatch [95] = true by decide] at hno
          cases hno
  exact absurd (hbefore _ hmem) (not_lt.mpr hle)

/-- **The text of a token that was made spells it.** -/
theorem spells_of_best {s : Bytes} {rule : Rule} {p : Position} {t : Token}
    (hbest : best (Rule.score s) lexerRules = some rule)
    (haction : rule.action (s.take (rule.score s)) p = .token t) :
    Spells (s.take (rule.score s)) t := by
  obtain ⟨hmax, hpos⟩ := best_firstMax hbest
  have hword : s.take (rule.score s) ∈ rule.pattern.matches' := take_matchLength_mem hpos
  have hrule := hmax.mem
  simp only [lexerRules, List.mem_append, List.mem_cons, List.not_mem_nil, or_false] at hrule
  rcases hrule with ((rfl | rfl | rfl | rfl) | hrule) | rfl | rfl | rfl | rfl | rfl
  · cases haction
  · cases haction
  · cases haction
  · cases haction
  · obtain ⟨entry, hentry, rfl⟩ := List.mem_map.mp hrule
    obtain rfl := Act.token.inj haction
    exact .fixed hentry ((mem_fixedRule hentry).mp hword)
  · obtain ⟨_, ⟨b, hb, rfl⟩, x, hx, hsplit⟩ : ∃ a, (∃ b ∈ digits, a = [b]) ∧ ∃ x,
        (∀ c ∈ x, c ∈ digits) ∧ a ++ x = s.take (numRule.score s) := by
      obtain ⟨a, ha, x, hx, hsplit⟩ := Language.mem_mul.mp hword
      exact ⟨a, mem_oneOf.mp ha, x, mem_oneOf_star.mp hx, hsplit⟩
    rw [← hsplit] at haction ⊢
    change (if digitsValue ([b] ++ x) < 2 ^ 63 then _ else _) = _ at haction
    split at haction
    · rename_i hlt
      obtain rfl := Act.token.inj haction
      exact .num (List.cons_ne_nil b x) (List.forall_mem_cons.mpr ⟨hb, hx⟩) hlt
    · cases haction
  · obtain rfl := Act.token.inj haction
    exact .ident hword (no_keyword hbest)
  · obtain ⟨ps, hps⟩ := mem_strRule.mp hword
    rw [hps] at haction ⊢
    obtain rfl := Act.token.inj haction
    rw [unquote_literalText]
    exact .str ps
  · cases haction
  · cases haction

end SqlDb
