import SqlDb.Ql.Tokens

/-!
# String literals

The body of a literal is a row of pieces: a byte that stands for itself, a backslash with
the byte it escapes, or two quotes. The scanner's pattern matches the rows of pieces between
two quotes, `unquote` decodes them piece by piece, and `quote` writes one piece for each
byte. A row of pieces ends in one way only: at a quote that no other quote follows.
-/

namespace SqlDb

open RegularExpression

/-! ## The code -/

def quoteByte (c : UInt8) : Bytes :=
  if c = 39 then [92, 39]
  else if c = 92 then [92, 92]
  else if c = newline then [92, 110]
  else if c = 9 then [92, 116]
  else if c = 13 then [92, 114]
  else [c]

/-- A string literal the way the scanner accepts it back. -/
def quote (s : Bytes) : Bytes := 39 :: s.flatMap quoteByte ++ [39]

/-! ## Pieces -/

inductive Piece where
  | plain (c : UInt8) (h : c ≠ 39 ∧ c ≠ 92 ∧ c ≠ newline)
  | escaped (c : UInt8) (h : c ≠ newline)
  | quotes

namespace Piece

def text : Piece → Bytes
  | plain c _ => [c]
  | escaped c _ => [92, c]
  | quotes => [39, 39]

def value : Piece → UInt8
  | plain c _ => c
  | escaped c _ => unescape c
  | quotes => 39

end Piece

/-- The text of a literal. -/
def literalText (ps : List Piece) : Bytes := 39 :: ps.flatMap Piece.text ++ [39]

theorem notMem_plain {c : UInt8} : c ∉ [39, 92, newline] ↔ c ≠ 39 ∧ c ≠ 92 ∧ c ≠ newline := by
  simp

theorem mem_strBody {x : Bytes} : x ∈ strBody.matches' ↔ ∃ p : Piece, x = p.text := by
  simp only [strBody, matches'_add, matches'_mul, matches'_char, Language.mem_add,
    Language.mem_mul, mem_noneOf, mem_word]
  constructor
  · intro h
    rcases h with (⟨c, hc, rfl⟩ | ⟨a, rfl, b, ⟨c, hc, rfl⟩, rfl⟩) | rfl
    · exact ⟨.plain c (notMem_plain.mp hc), rfl⟩
    · exact ⟨.escaped c (by simpa using hc), rfl⟩
    · exact ⟨.quotes, rfl⟩
  · rintro ⟨p, rfl⟩
    cases p with
    | plain c h => exact Or.inl (Or.inl ⟨c, notMem_plain.mpr h, rfl⟩)
    | escaped c h => exact Or.inl (Or.inr ⟨[92], rfl, [c], ⟨c, by simpa using h, rfl⟩, rfl⟩)
    | quotes => exact Or.inr rfl

theorem mem_strBody_star {x : Bytes} :
    x ∈ strBody.star.matches' ↔ ∃ ps : List Piece, x = ps.flatMap Piece.text := by
  rw [matches'_star, Language.mem_kstar]
  constructor
  · intro h
    obtain ⟨L, rfl, hL⟩ := h
    induction L with
    | nil => exact ⟨[], rfl⟩
    | cons y L ih =>
        obtain ⟨hy, hL'⟩ := List.forall_mem_cons.mp hL
        obtain ⟨p, hp⟩ := mem_strBody.mp hy
        obtain ⟨ps, hps⟩ := ih hL'
        exact ⟨p :: ps, by rw [List.flatten_cons, hps, hp, List.flatMap_cons]⟩
  · rintro ⟨ps, rfl⟩
    refine ⟨ps.map Piece.text, by rw [List.flatMap_def], fun y hy => ?_⟩
    obtain ⟨p, _, rfl⟩ := List.mem_map.mp hy
    exact mem_strBody.mpr ⟨p, rfl⟩

/-- **The pattern of a string literal** matches rows of pieces between quotes. -/
theorem mem_strRule {text : Bytes} :
    text ∈ strRule.pattern.matches' ↔ ∃ ps : List Piece, text = literalText ps := by
  simp only [strRule, matches'_mul, matches'_char, Language.mem_mul, mem_strBody_star]
  constructor
  · intro h
    obtain ⟨a, rfl, b, ⟨c, ⟨ps, rfl⟩, d, rfl, rfl⟩, rfl⟩ := h
    exact ⟨ps, rfl⟩
  · rintro ⟨ps, rfl⟩
    exact ⟨[39], rfl, ps.flatMap Piece.text ++ [39], ⟨_, ⟨ps, rfl⟩, [39], rfl, rfl⟩, rfl⟩

/-! ## Decoding -/

/-- One piece is decoded, whatever comes before the closing quote. -/
theorem unquoteLoop_piece (p : Piece) {rest : Bytes} (hrest : rest ≠ []) :
    unquoteLoop (p.text ++ rest) = p.value :: unquoteLoop rest := by
  cases rest with
  | nil => exact absurd rfl hrest
  | cons d rest =>
      cases p with
      | plain c h =>
          show unquoteLoop (c :: d :: rest) = c :: unquoteLoop (d :: rest)
          rw [unquoteLoop, if_neg fun h' => h.1 h'.1, if_pos h.2.1]
      | escaped c h =>
          show unquoteLoop (92 :: c :: d :: rest) = unescape c :: unquoteLoop (d :: rest)
          rw [unquoteLoop, if_neg fun h' => absurd h'.1 (by decide), if_neg fun h' => h' rfl]
      | quotes =>
          show unquoteLoop (39 :: 39 :: d :: rest) = 39 :: unquoteLoop (d :: rest)
          rw [unquoteLoop, if_pos ⟨rfl, rfl⟩]

/-- **A literal is decoded piece by piece.** -/
theorem unquote_literalText (ps : List Piece) : unquote (literalText ps) = ps.map Piece.value := by
  rw [unquote, literalText, List.cons_append, List.drop_succ_cons, List.drop_zero]
  induction ps with
  | nil => rfl
  | cons p ps ih =>
      rw [List.flatMap_cons, List.append_assoc, unquoteLoop_piece p (by simp), ih, List.map_cons]

theorem exists_piece (c : UInt8) : ∃ p : Piece, p.text = quoteByte c ∧ p.value = c := by
  unfold quoteByte
  split
  · rename_i h
    exact ⟨.escaped 39 (by decide), rfl, h.symm⟩
  · rename_i hquote
    split
    · rename_i h
      exact ⟨.escaped 92 (by decide), rfl, h.symm⟩
    · rename_i hslash
      split
      · rename_i h
        exact ⟨.escaped 110 (by decide), rfl, h.symm⟩
      · rename_i hnl
        split
        · rename_i h
          exact ⟨.escaped 116 (by decide), rfl, h.symm⟩
        · split
          · rename_i h
            exact ⟨.escaped 114 (by decide), rfl, h.symm⟩
          · exact ⟨.plain c ⟨hquote, hslash, hnl⟩, rfl, rfl⟩

/-- `quote` writes a literal that says `s`. -/
theorem exists_literalText (s : Bytes) :
    ∃ ps : List Piece, quote s = literalText ps ∧ ps.map Piece.value = s := by
  have hbody : ∃ ps : List Piece, s.flatMap quoteByte = ps.flatMap Piece.text ∧
      ps.map Piece.value = s := by
    induction s with
    | nil => exact ⟨[], rfl, rfl⟩
    | cons c s ih =>
        obtain ⟨p, htext, hvalue⟩ := exists_piece c
        obtain ⟨ps, hps, hvalues⟩ := ih
        exact ⟨p :: ps, by rw [List.flatMap_cons, List.flatMap_cons, htext, hps],
          by rw [List.map_cons, hvalue, hvalues]⟩
  obtain ⟨ps, htext, hvalue⟩ := hbody
  exact ⟨ps, by rw [quote, htext, literalText], hvalue⟩

/-! ## Scanning -/

/-- No piece begins another. -/
theorem Piece.rest_eq {p q : Piece} {x y : Bytes} (h : p.text ++ x = q.text ++ y) : x = y := by
  cases p <;> cases q <;> grind [Piece.text]

/-- A quote in front of a piece's end is one of two. -/
theorem Piece.rest_of_quote {p : Piece} {x y : Bytes} (h : p.text ++ x = 39 :: y) :
    y = 39 :: x := by
  cases p <;> grind [Piece.text]

/-- Where a row of pieces is read to end: at the input's end, or before another quote. -/
theorem rest_of_pieces {ps qs : List Piece} {r : Bytes}
    (h : ps.flatMap Piece.text ++ 39 :: r = qs.flatMap Piece.text ++ [39]) :
    r = [] ∨ r.head? = some 39 := by
  induction ps generalizing qs with
  | nil =>
      rw [List.flatMap_nil, List.nil_append] at h
      cases qs with
      | nil => exact Or.inl (List.cons.inj h).2
      | cons q qs =>
          rw [List.flatMap_cons, List.append_assoc] at h
          rw [Piece.rest_of_quote h.symm]
          exact Or.inr rfl
  | cons p ps ih =>
      rw [List.flatMap_cons, List.append_assoc] at h
      cases qs with
      | nil => cases Piece.rest_of_quote h
      | cons q qs =>
          rw [List.flatMap_cons, List.append_assoc] at h
          exact ih (Piece.rest_eq h)

/-- **A literal is matched up to its closing quote**, unless another quote follows it. -/
theorem score_strRule (ps : List Piece) {rest : Bytes} (hrest : rest.head? ≠ some 39) :
    strRule.score (literalText ps ++ rest) = (literalText ps).length := by
  refine le_antisymm (not_lt.mp fun hlt => ?_) ?_
  · have hle : strRule.score (literalText ps ++ rest) ≤ (literalText ps ++ rest).length :=
      matchLength_le _ _
    obtain ⟨qs, hqs⟩ := mem_strRule.mp
      (take_matchLength_mem (Nat.zero_lt_of_lt hlt : 0 < strRule.pattern.matchLength _))
    change (literalText ps ++ rest).take (strRule.score (literalText ps ++ rest)) = _ at hqs
    -- a longer match takes some of the rest
    generalize strRule.score (literalText ps ++ rest) = n at hlt hle hqs
    rw [List.length_append] at hle
    rw [List.take_append, List.take_of_length_le (le_of_lt hlt)] at hqs
    obtain ⟨k, hk⟩ : ∃ k, n - (literalText ps).length = k + 1 :=
      ⟨n - (literalText ps).length - 1, by omega⟩
    cases rest with
    | nil => exact absurd hle (by simpa using hlt)
    | cons c rest =>
        rw [hk, List.take_succ_cons, literalText, literalText, List.append_assoc,
          List.singleton_append, List.cons_append, List.cons_append] at hqs
        rcases rest_of_pieces (List.cons.inj hqs).2 with h | h
        · cases h
        · exact hrest h
  · refine le_matchLength (by rw [List.length_append]; exact Nat.le_add_right _ _) ?_
    rw [List.take_left' rfl]
    exact mem_strRule.mpr ⟨ps, rfl⟩

/-- No rule in front of the literal's begins with a quote. -/
theorem score_before (rest : Bytes) : ∀ rule ∈ [spaceRule, newlineRule, lineCommentRule,
    blockCommentRule] ++ fixedRules ++ [numRule, identRule], rule.score (39 :: rest) = 0 := by
  have hstart : ([spaceRule, newlineRule, lineCommentRule, blockCommentRule] ++ fixedRules ++
      [numRule, identRule]).all (fun rule => !rule.pattern.startsWith 39) = true := by decide
  intro rule hrule
  exact matchLength_eq_zero (by simpa using List.all_eq_true.mp hstart rule hrule)

/-- The rules behind it take one byte at most. -/
theorem score_after (s : Bytes) : ∀ rule ∈ [quoteRule, otherRule], rule.score s ≤ 1 := by
  have hone : ∀ {r : RegularExpression UInt8}, (∀ x ∈ r.matches', x.length = 1) →
      r.matchLength s ≤ 1 := by
    intro r hr
    rcases Nat.eq_zero_or_pos (r.matchLength s) with h | h
    · omega
    · have hlen := hr _ (take_matchLength_mem h)
      rw [List.length_take] at hlen
      have := matchLength_le r s
      omega
  refine List.forall_mem_cons.mpr ⟨hone ?_, List.forall_mem_singleton.mpr (hone ?_)⟩
  · rintro x rfl
    rfl
  · intro x hx
    obtain ⟨c, _, rfl⟩ := mem_noneOf.mp hx
    rfl

/-- **The literal's rule wins.** -/
theorem best_strRule (ps : List Piece) {rest : Bytes} (hrest : rest.head? ≠ some 39) :
    best (Rule.score (literalText ps ++ rest)) lexerRules = some strRule := by
  have hscore := score_strRule ps hrest
  have hlen : 2 ≤ (literalText ps).length := by simp [literalText]
  refine best_eq_some ⟨[spaceRule, newlineRule, lineCommentRule, blockCommentRule] ++ fixedRules ++
    [numRule, identRule], [quoteRule, otherRule], by simp [lexerRules], fun rule hrule => ?_,
    fun rule hrule => ?_⟩ (by omega)
  · have hbefore := score_before (ps.flatMap Piece.text ++ [39] ++ rest) rule hrule
    change rule.score (literalText ps ++ rest) = 0 at hbefore
    omega
  · have hafter := score_after (literalText ps ++ rest) rule hrule
    omega

/-- **A literal is one token**, whatever follows it but another quote. -/
theorem yylex_literalText (ps : List Piece) {rest : Bytes} (hrest : rest.head? ≠ some 39)
    (pos : Position) : yylex (literalText ps ++ rest) pos =
      .ok (⟨.str (ps.map Piece.value), ⟨pos, pos.advance (literalText ps).length⟩⟩, rest,
        pos.advance (literalText ps).length) := by
  obtain ⟨fuel, hfuel⟩ : ∃ fuel, (literalText ps ++ rest).length = fuel + 1 :=
    ⟨(ps.flatMap Piece.text ++ [39] ++ rest).length, by simp [literalText]⟩
  have hne : literalText ps ++ rest ≠ [] := fun h => by rw [h] at hfuel; cases hfuel
  have haction : strRule.action (literalText ps) (pos.advance (literalText ps).length) =
      .token (.str (ps.map Piece.value)) :=
    congrArg (fun s => Act.token (.str s)) (unquote_literalText ps)
  have hscore := score_strRule ps hrest
  rw [yylex, hfuel, yylexLoop_token hne (best_strRule ps hrest)
    (by rwa [hscore, List.take_left' rfl]), hscore, List.drop_left' rfl]

/-- **What is quoted is read back.** The whole of the text is one literal to the scanner, the
only token in it, and it says what was quoted. -/
theorem quote_round_trip (s : Bytes) :
    strRule.pattern.rmatch (quote s) = true ∧
      best (Rule.score (quote s)) lexerRules = some strRule ∧
      strRule.score (quote s) = (quote s).length ∧
      unquote (quote s) = s ∧
      ∃ here stop : Position, lex (quote s) =
        .ok [⟨.str s, ⟨here, stop⟩⟩, ⟨.endOfInput, ⟨stop, stop⟩⟩] := by
  obtain ⟨ps, htext, hvalue⟩ := exists_literalText s
  have hend : ([] : Bytes).head? ≠ some 39 := fun h => by cases h
  have hbest := best_strRule ps hend
  have hscore := score_strRule ps hend
  have hlex := yylex_literalText ps hend {}
  rw [List.append_nil] at hbest hscore hlex
  rw [htext]
  refine ⟨(rmatch_iff_matches' _ _).mpr (mem_strRule.mpr ⟨ps, rfl⟩), hbest, hscore, ?_,
    {}, Position.advance {} (literalText ps).length, ?_⟩
  · rw [unquote_literalText, hvalue]
  · rw [lex, lexLoop, hlex, hvalue]
    obtain ⟨n, hn⟩ : ∃ n, (literalText ps).length = n + 1 := ⟨_, by simp [literalText]; rfl⟩
    rw [hn]
    rfl

end SqlDb
