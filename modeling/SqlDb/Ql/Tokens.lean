import SqlDb.Base.Outcome
import SqlDb.Ql.Lexer

/-!
# What the scanner yields

Every token but the last is made by a rule from text the rule matches, and that text is not
empty; so there are no more tokens than bytes, and an identifier is a word of the pattern
for identifiers.
-/

namespace SqlDb

open RegularExpression Outcome

/-! ## Patterns -/

theorem mem_span {lo hi : Nat} (hhi : hi < 256) {c : UInt8} :
    c ∈ span lo hi ↔ lo ≤ c.toNat ∧ c.toNat ≤ hi := by
  rw [span, List.mem_map]
  constructor
  · intro h
    obtain ⟨n, hn, rfl⟩ := h
    obtain ⟨i, hi', rfl⟩ := List.mem_iff_getElem.mp hn
    rw [List.length_drop, List.length_range] at hi'
    rw [List.getElem_drop, List.getElem_range,
      UInt8.toNat_ofNat_of_lt' (show lo + i < 256 by omega)]
    omega
  · intro h
    refine ⟨c.toNat, List.mem_iff_getElem.mpr ⟨c.toNat - lo, ?_, ?_⟩, UInt8.ofNat_toNat⟩
    · rw [List.length_drop, List.length_range]
      omega
    · rw [List.getElem_drop, List.getElem_range]
      omega

theorem mem_letters {c : UInt8} : c ∈ letters ↔ (65 ≤ c.toNat ∧ c.toNat ≤ 90) ∨
    (97 ≤ c.toNat ∧ c.toNat ≤ 122) ∨ c = 95 := by
  rw [letters, List.mem_append, List.mem_append, mem_span (by decide), mem_span (by decide),
    List.mem_singleton, or_assoc]

theorem mem_digits {c : UInt8} : c ∈ digits ↔ 48 ≤ c.toNat ∧ c.toNat ≤ 57 := by
  rw [digits, mem_span (by decide)]

theorem mem_noneOf {cs x : Bytes} : x ∈ (noneOf cs).matches' ↔ ∃ c, c ∉ cs ∧ x = [c] := by
  rw [noneOf, mem_oneOf]
  refine exists_congr fun c => and_congr_left' ?_
  rw [List.mem_filter, mem_span (by decide), Bool.not_eq_true', List.contains_eq_mem,
    decide_eq_false_iff_not]
  exact and_iff_right ⟨Nat.zero_le _, Nat.le_of_lt_succ c.toNat_lt⟩

/-- An identifier of the scanner. -/
def Ident (name : Bytes) : Prop := name ∈ identRule.pattern.matches'

theorem ident_iff {name : Bytes} : Ident name ↔
    ∃ c rest, name = c :: rest ∧ c ∈ letters ∧ ∀ d ∈ rest, d ∈ letters ++ digits := by
  simp only [Ident, identRule, matches'_mul, Language.mem_mul, mem_oneOf, mem_oneOf_star]
  constructor
  · rintro ⟨_, ⟨c, hc, rfl⟩, rest, hrest, rfl⟩
    exact ⟨c, rest, rfl, hc, hrest⟩
  · rintro ⟨c, rest, rfl, hc, hrest⟩
    exact ⟨[c], ⟨c, hc, rfl⟩, rest, hrest, rfl⟩

/-- A word in small letters. -/
theorem ident_of_lower {name : Bytes} (hne : name ≠ [])
    (h : (name.all fun c => 97 ≤ c.toNat ∧ c.toNat ≤ 122) = true) : Ident name := by
  have hlower : ∀ c ∈ name, 97 ≤ c.toNat ∧ c.toNat ≤ 122 := fun c hc =>
    of_decide_eq_true (List.all_eq_true.mp h c hc)
  obtain ⟨c, rest, rfl⟩ := List.exists_cons_of_ne_nil hne
  obtain ⟨hc, hrest⟩ := List.forall_mem_cons.mp hlower
  exact ident_iff.mpr ⟨c, rest, rfl, mem_letters.mpr (.inr (.inl hc)), fun d hd =>
    List.mem_append_left _ (mem_letters.mpr (.inr (.inl (hrest d hd))))⟩

theorem Ident.ne_nil {name : Bytes} (h : Ident name) : name ≠ [] := by
  obtain ⟨c, rest, rfl, _, _⟩ := ident_iff.mp h
  exact List.cons_ne_nil c rest

/-- **There is no white space in an identifier.** -/
theorem Ident.isSpace {name : Bytes} (h : Ident name) : ∀ c ∈ name, isSpace c = false := by
  have hclass : ∀ c ∈ letters ++ digits, SqlDb.isSpace c = false := by
    intro c hc
    have h95 : (95 : UInt8).toNat = 95 := rfl
    rw [List.mem_append, mem_letters, mem_digits, ← UInt8.toNat_inj] at hc
    exact isSpace_of_ge (by omega)
  obtain ⟨c, rest, rfl, hc, hrest⟩ := ident_iff.mp h
  exact List.forall_mem_cons.mpr ⟨hclass c (List.mem_append_left _ hc),
    fun d hd => hclass d (hrest d hd)⟩

/-! ## One token -/

section

variable {rules : List Rule} {rule : Rule} {fuel : Nat} {s : Bytes} {tok pos : Position}

/-- The rule that wins makes a token. -/
theorem yylexLoop_token {token : Token} (hne : s ≠ [])
    (hbest : best (Rule.score s) rules = some rule)
    (haction : rule.action (s.take (rule.score s)) (pos.advance (rule.score s)) = .token token) :
    yylexLoop rules (fuel + 1) s tok pos = .ok (⟨token, ⟨pos, pos.advance (rule.score s)⟩⟩,
      s.drop (rule.score s), pos.advance (rule.score s)) := by
  rw [yylexLoop, if_neg hne, hbest]
  dsimp only
  rw [haction]

/-- A rule made the token from text it matches. -/
def Made (rules : List Rule) (token : Token) (text : Bytes) : Prop :=
  text ≠ [] ∧ ∃ rule ∈ rules, text ∈ rule.pattern.matches' ∧
    ∃ pos, rule.action text pos = .token token

/-- **What the scanner returns**: the end of the input, or the next token it makes, after what
it skips. -/
theorem yylexLoop_spec {symbol : Symbol} {rest : Bytes} {pos' : Position} (hfuel : s.length ≤ fuel)
    (h : yylexLoop rules fuel s tok pos = .ok (symbol, rest, pos')) :
    (symbol.token = .endOfInput ∧ rest = []) ∨
      ∃ skipped text, s = skipped ++ text ++ rest ∧ Made rules symbol.token text := by
  induction fuel generalizing s tok pos with
  | zero =>
      obtain rfl := List.eq_nil_of_length_eq_zero (Nat.le_zero.mp hfuel)
      rw [yylexLoop, Except.ok.injEq, Prod.mk.injEq, Prod.mk.injEq] at h
      obtain ⟨rfl, rfl, _⟩ := h
      exact Or.inl ⟨rfl, rfl⟩
  | succ fuel ih =>
      rw [yylexLoop] at h
      by_cases hs : s = []
      · rw [if_pos hs, Except.ok.injEq, Prod.mk.injEq, Prod.mk.injEq] at h
        obtain ⟨rfl, rfl, _⟩ := h
        exact Or.inl ⟨rfl, rfl⟩
      have hpos : 0 < s.length := List.length_pos_iff.mpr hs
      -- after some of the input is skipped
      have hskip : ∀ {n : Nat} {tok pos : Position}, 0 < n →
          yylexLoop rules fuel (s.drop n) tok pos = .ok (symbol, rest, pos') →
          (symbol.token = .endOfInput ∧ rest = []) ∨
            ∃ skipped text, s = skipped ++ text ++ rest ∧ Made rules symbol.token text := by
        intro n tok pos hn hrun
        rcases ih (by rw [List.length_drop]; omega) hrun with hend | ⟨skipped, text, hs', hmade⟩
        · exact Or.inl hend
        · refine Or.inr ⟨s.take n ++ skipped, text, ?_, hmade⟩
          rw [List.append_assoc, List.append_assoc, ← List.append_assoc skipped, ← hs',
            List.take_append_drop]
      rw [if_neg hs] at h
      cases hbest : best (Rule.score s) rules with
      | none =>
          rw [hbest] at h
          exact hskip (by decide) h
      | some rule =>
          obtain ⟨hmax, hscore⟩ := best_firstMax hbest
          rw [hbest] at h
          dsimp only at h
          cases haction : rule.action (s.take (rule.score s)) (pos.advance (rule.score s)) with
          | skip pos'' =>
              rw [haction] at h
              exact hskip hscore h
          | token token =>
              rw [haction] at h
              dsimp only at h
              rw [Except.ok.injEq, Prod.mk.injEq, Prod.mk.injEq] at h
              obtain ⟨rfl, rfl, _⟩ := h
              refine Or.inr ⟨[], s.take (rule.score s), by rw [List.nil_append, List.take_append_drop],
                ?_, rule, hmax.mem, take_matchLength_mem hscore, _, haction⟩
              rw [ne_eq, List.take_eq_nil_iff, not_or]
              exact ⟨Nat.ne_of_gt hscore, hs⟩
          | reject msg =>
              rw [haction] at h
              cases h

end

/-! ## What the rules make -/

/-- **The tokens of the rules.** -/
theorem lexerRules_token {rule : Rule} {text : Bytes} {pos : Position} {token : Token}
    (hrule : rule ∈ lexerRules) (h : rule.action text pos = .token token) :
    (∃ entry ∈ fixedTokens, token = entry.2) ∨ (∃ v, token = .num v) ∨
      (rule = identRule ∧ token = .ident text) ∨ token = .str (unquote text) := by
  simp only [lexerRules, List.mem_append, List.mem_cons, List.not_mem_nil, or_false] at hrule
  rcases hrule with ((rfl | rfl | rfl | rfl) | hrule) | rfl | rfl | rfl | rfl | rfl
  · cases h
  · cases h
  · cases h
  · cases h
  · obtain ⟨entry, hentry, rfl⟩ := List.mem_map.mp hrule
    exact Or.inl ⟨entry, hentry, (Act.token.inj h).symm⟩
  · rw [numRule] at h
    dsimp only at h
    split at h
    · exact Or.inr (Or.inl ⟨_, (Act.token.inj h).symm⟩)
    · cases h
  · exact Or.inr (Or.inr (Or.inl ⟨rfl, (Act.token.inj h).symm⟩))
  · exact Or.inr (Or.inr (Or.inr (Act.token.inj h).symm))
  · cases h
  · cases h

theorem Made.ne_endOfInput {token : Token} {text : Bytes} (h : Made lexerRules token text) :
    token ≠ .endOfInput := by
  obtain ⟨_, rule, hrule, _, pos, haction⟩ := h
  have hfixed : ∀ entry ∈ fixedTokens, entry.2 ≠ .endOfInput := by decide
  rintro rfl
  rcases lexerRules_token hrule haction with ⟨entry, hentry, he⟩ | ⟨v, he⟩ | ⟨_, he⟩ | he
  · exact hfixed entry hentry he.symm
  · cases he
  · cases he
  · cases he

/-- **An identifier** is a word of its pattern. -/
theorem Made.ident {name text : Bytes} (h : Made lexerRules (.ident name) text) :
    Ident name := by
  obtain ⟨_, rule, hrule, hmatch, pos, haction⟩ := h
  have hfixed : ∀ entry ∈ fixedTokens, entry.2 ≠ .ident name := by simp [fixedTokens]
  rcases lexerRules_token hrule haction with ⟨entry, hentry, he⟩ | ⟨v, he⟩ | ⟨rfl, he⟩ | he
  · exact absurd he.symm (hfixed entry hentry)
  · cases he
  · rw [Token.ident.inj he]
    exact hmatch
  · cases he

/-! ## A whole statement -/

/-- **What a statement's text yields**: tokens that rules made, no more of them than bytes, and
then its end. -/
theorem lexLoop_spec {fuel : Nat} {s : Bytes} {pos : Position} {symbols : List Symbol}
    (hfuel : s.length < fuel) (h : lexLoop fuel s pos = .ok symbols) :
    ∃ tokens, symbols.map Symbol.token = tokens ++ [.endOfInput] ∧ tokens.length ≤ s.length ∧
      ∀ token ∈ tokens, ∃ text, Made lexerRules token text := by
  induction fuel generalizing s pos symbols with
  | zero => exact absurd hfuel (Nat.not_lt_zero _)
  | succ fuel ih =>
      rw [lexLoop, bind_eq_ok] at h
      obtain ⟨⟨symbol, rest, pos'⟩, hsymbol, h⟩ := h
      rcases yylexLoop_spec le_rfl hsymbol with ⟨hend, _⟩ | ⟨skipped, text, hs, hmade⟩
      · dsimp only at h
        rw [if_pos hend] at h
        obtain rfl := Except.ok.inj h
        exact ⟨[], by rw [List.map_singleton, hend, List.nil_append], Nat.zero_le _,
          fun _ ht => absurd ht List.not_mem_nil⟩
      · dsimp only at h
        rw [if_neg hmade.ne_endOfInput, bind_eq_ok] at h
        obtain ⟨more, hmore, h⟩ := h
        obtain rfl := Except.ok.inj h
        have htext : 0 < text.length := List.length_pos_iff.mpr hmade.1
        have hlen : s.length = skipped.length + text.length + rest.length := by
          rw [hs, List.length_append, List.length_append]
        obtain ⟨tokens, hmap, hle, htokens⟩ := ih (by omega) hmore
        refine ⟨symbol.token :: tokens, by rw [List.map_cons, hmap, List.cons_append], ?_,
          List.forall_mem_cons.mpr ⟨⟨text, hmade⟩, htokens⟩⟩
        rw [List.length_cons]
        omega

/-- **A statement's text** is a row of tokens no longer than the text, and then its end. -/
theorem lex_spec {sql : Bytes} {symbols : List Symbol} (h : lex sql = .ok symbols) :
    ∃ tokens, symbols.map Symbol.token = tokens ++ [.endOfInput] ∧ tokens.length ≤ sql.length ∧
      ∀ token ∈ tokens, ∃ text, Made lexerRules token text :=
  lexLoop_spec (Nat.lt_succ_self _) h

end SqlDb
