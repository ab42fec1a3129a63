import SqlDb.Catalog.Check
import Mathlib.Data.List.TakeWhile
import Mathlib.Data.Nat.Digits.Lemmas

/-!
# Definitions that read back

The text of a definition has nothing around its names. A name with a newline in it ends
early when it is read back, and a column name with white space in it, or with nothing in
it, does not come back as one word; whatever follows is then read as something else. With
`Tidy` names every token is read where it was written, and the definition comes back as
it was.

A token is read from any white space before it up to white space, so `Reads` lemmas chain
along the text.
-/

namespace SqlDb

/-! ## Names that can be told from what is around them -/

/-- Read by `>>` in one piece. -/
def Word (word : Bytes) : Prop := word ≠ [] ∧ ∀ c ∈ word, isSpace c = false

instance (word : Bytes) : Decidable (Word word) :=
  @instDecidableAnd _ _ _ (List.decidableBAll (fun c => isSpace c = false) word)

/-- One line, and words on the lines below it. -/
def TableDef.Tidy (tdef : TableDef) : Prop :=
  newline ∉ tdef.name ∧ ∀ col ∈ tdef.cols, Word col

instance (tdef : TableDef) : Decidable tdef.Tidy := by unfold TableDef.Tidy; infer_instance

/-! ## What is read is tidy -/

theorem readLine_tidy {s rest line : Bytes} (h : readLine s = some (line, rest)) : newline ∉ line := by
  unfold readLine at h
  split at h
  · cases h
  · obtain ⟨rfl, _⟩ := Prod.mk.inj (Option.some.inj h)
    intro hmem
    simpa using List.mem_takeWhile_imp hmem

theorem readWord_word {s rest word : Bytes} (h : readWord s = some (word, rest)) : Word word := by
  unfold readWord at h
  dsimp only at h
  split at h
  · cases h
  · rename_i hne
    obtain ⟨rfl, _⟩ := Prod.mk.inj (Option.some.inj h)
    refine ⟨hne, fun c hc => ?_⟩
    simpa using List.mem_takeWhile_imp hc

theorem readMany_forall {α : Type} {read : Reader α} {P : α → Prop}
    (hread : ∀ {s x rest}, read s = some (x, rest) → P x) {n : Nat} {s rest : Bytes} {xs : List α}
    (h : readMany read n s = some (xs, rest)) : ∀ x ∈ xs, P x := by
  induction n generalizing s xs with
  | zero =>
      obtain ⟨rfl, _⟩ := Prod.mk.inj (Option.some.inj h)
      exact fun _ hx => absurd hx List.not_mem_nil
  | succ n ih =>
      simp only [readMany, Option.bind_eq_bind, Option.bind_eq_some_iff] at h
      obtain ⟨⟨x, s1⟩, hx, ⟨ys, s2⟩, hys, h⟩ := h
      obtain ⟨rfl, rfl⟩ := Prod.mk.inj (Option.some.inj h)
      exact List.forall_mem_cons.mpr ⟨hread hx, ih hys⟩

/-- **A definition that is read has tidy names.** -/
theorem decodeTableDef_tidy {data : Bytes} {tdef : TableDef}
    (h : decodeTableDef data = some tdef) : tdef.Tidy := by
  simp only [decodeTableDef, Option.bind_eq_bind, Option.bind_eq_some_iff] at h
  obtain ⟨⟨name, s1⟩, hname, ⟨pkeys, s2⟩, _, ⟨keyPrefix, s3⟩, _, ⟨ncols, s4⟩, _, ⟨cols, s5⟩, hcols,
    ⟨nindexes, s6⟩, _, ⟨indexes, s7⟩, _, ⟨nprefixes, s8⟩, _, ⟨indexPrefixes, s9⟩, _, h⟩ := h
  obtain rfl := Option.some.inj h
  refine ⟨readLine_tidy hname, fun col hcol => ?_⟩
  obtain ⟨c, hc, rfl⟩ := List.mem_map.mp hcol
  refine readMany_forall (P := fun c => Word c.1) (fun {s x rest} hx => ?_) hcols c hc
  simp only [readCol, Option.bind_eq_bind, Option.bind_eq_some_iff] at hx
  obtain ⟨⟨word, s1⟩, hword, ⟨raw, s2⟩, _, hx⟩ := hx
  obtain ⟨rfl, _⟩ := Prod.mk.inj (Option.some.inj hx)
  exact readWord_word hword

/-! ## Tokens -/

/-- White space. -/
def Spaces (s : Bytes) : Prop := ∀ c ∈ s, isSpace c = true

theorem spaces_nil : Spaces [] := fun _ h => absurd h List.not_mem_nil

theorem spaces_singleton {c : UInt8} (h : isSpace c = true) : Spaces [c] := by
  intro b hb
  rw [List.mem_singleton.mp hb]
  exact h

/-- The token is read off, from white space to white space. -/
def Reads {α : Type} (read : Reader α) (token : Bytes) (x : α) : Prop :=
  ∀ ⦃ws : Bytes⦄ ⦃c : UInt8⦄ ⦃rest : Bytes⦄, Spaces ws → isSpace c = true →
    read (ws ++ token ++ c :: rest) = some (x, c :: rest)

/-- Whole lines are read off, up to white space. -/
def ReadsLines {α : Type} (read : Reader α) (text : Bytes) (x : α) : Prop :=
  ∀ ⦃ws : Bytes⦄ (rest : Bytes), Spaces ws →
    ∃ ws', Spaces ws' ∧ read (ws ++ text ++ rest) = some (x, ws' ++ rest)

/-- What the white space before a token leaves. -/
theorem dropWhile_token {ws token s : Bytes} (hws : Spaces ws) (hne : token ≠ [])
    (htoken : ∀ c ∈ token, isSpace c = false) : (ws ++ token ++ s).dropWhile isSpace = token ++ s := by
  rw [List.append_assoc, List.dropWhile_append_of_pos hws]
  cases token with
  | nil => exact absurd rfl hne
  | cons c token => exact List.dropWhile_cons_of_neg (by simp [htoken c (by simp)])

theorem reads_word {word : Bytes} (h : Word word) : Reads readWord word word := by
  intro ws c rest hws hc
  have hall : ∀ b ∈ word, (!isSpace b) = true := fun b hb => by rw [h.2 b hb]; rfl
  unfold readWord
  dsimp only
  rw [dropWhile_token hws h.1 h.2, List.takeWhile_append_of_pos hall,
    List.dropWhile_append_of_pos hall, List.takeWhile_cons_of_neg (by simp [hc]),
    List.dropWhile_cons_of_neg (by simp [hc]), List.append_nil, if_neg h.1]

/-! ### Numbers -/

theorem toNat_digit : ∀ d < 10, (digit d).toNat - 48 = d := by decide

theorem isDigit_digit : ∀ d < 10, isDigit (digit d) = true := by decide

theorem isSpace_of_isDigit {c : UInt8} (h : isDigit c = true) : isSpace c = false := by
  rw [isDigit, decide_eq_true_eq, UInt8.le_iff_toNat_le] at h
  exact isSpace_of_ge h.1

theorem mem_decimal {n : Nat} {c : UInt8} (h : c ∈ decimal n) : ∃ d < 10, c = digit d := by
  unfold decimal at h
  split at h
  · exact ⟨0, by decide, List.mem_singleton.mp h⟩
  · obtain ⟨d, hd, rfl⟩ := List.mem_map.mp (List.mem_reverse.mp h)
    exact ⟨d, Nat.digits_lt_base (by decide) hd, rfl⟩

theorem isDigit_decimal (n : Nat) : ∀ c ∈ decimal n, isDigit c = true := by
  intro c hc
  obtain ⟨d, hd, rfl⟩ := mem_decimal hc
  exact isDigit_digit d hd

theorem decimal_ne_nil (n : Nat) : decimal n ≠ [] := by
  unfold decimal
  split
  · exact List.cons_ne_nil _ _
  · rename_i hn
    rw [ne_eq, List.reverse_eq_nil_iff, List.map_eq_nil_iff]
    exact Nat.digits_ne_nil_iff_ne_zero.mpr hn

theorem digitsValue_append (s t : Bytes) :
    digitsValue (s ++ t) = t.foldl (fun u c => u * 10 + (c.toNat - 48)) (digitsValue s) :=
  List.foldl_append

/-- **A number is read as it was written.** -/
theorem digitsValue_decimal (n : Nat) : digitsValue (decimal n) = n := by
  have hdigits : ∀ ds : List Nat, (∀ d ∈ ds, d < 10) →
      digitsValue (ds.map digit).reverse = Nat.ofDigits 10 ds := by
    intro ds
    induction ds with
    | nil => exact fun _ => rfl
    | cons d ds ih =>
        intro h
        obtain ⟨hd, hds⟩ := List.forall_mem_cons.mp h
        rw [List.map_cons, List.reverse_cons, digitsValue_append, ih hds, List.foldl_cons,
          List.foldl_nil, toNat_digit d hd, Nat.ofDigits_cons]
        ring
  unfold decimal
  split
  · rename_i hn
    rw [hn]
    decide
  · rw [hdigits _ fun d hd => Nat.digits_lt_base (by decide) hd, Nat.ofDigits_digits]

/-- The digits of a number stand alone before white space. -/
theorem span_decimal (n : Nat) {c : UInt8} (rest : Bytes) (hc : isSpace c = true) :
    (decimal n ++ c :: rest).takeWhile isDigit = decimal n ∧
      (decimal n ++ c :: rest).dropWhile isDigit = c :: rest := by
  have hstop : ¬ isDigit c = true := fun h => by
    rw [isSpace_of_isDigit h] at hc
    cases hc
  rw [List.takeWhile_append_of_pos (isDigit_decimal n), List.takeWhile_cons_of_neg hstop,
    List.dropWhile_append_of_pos (isDigit_decimal n), List.dropWhile_cons_of_neg hstop,
    List.append_nil]
  exact ⟨rfl, rfl⟩

theorem head?_decimal (n : Nat) (s : Bytes) : (decimal n ++ s).head? ≠ some 45 ∧
    (decimal n ++ s).head? ≠ some 43 := by
  have hdigit : ∀ d < 10, digit d ≠ 45 ∧ digit d ≠ 43 := by decide
  cases hn : decimal n with
  | nil => exact absurd hn (decimal_ne_nil n)
  | cons c s' =>
      obtain ⟨d, hd, rfl⟩ := mem_decimal (n := n) (c := c) (by rw [hn]; simp)
      rw [List.cons_append, List.head?_cons]
      exact ⟨fun h => (hdigit d hd).1 (Option.some.inj h), fun h => (hdigit d hd).2 (Option.some.inj h)⟩

theorem reads_digits (n : Nat) : Reads readDigits (decimal n) (false, n) := by
  intro ws c rest hws hc
  have hskip : (ws ++ decimal n ++ c :: rest).dropWhile isSpace = decimal n ++ c :: rest :=
    dropWhile_token hws (decimal_ne_nil n) fun b hb => isSpace_of_isDigit (isDigit_decimal n b hb)
  obtain ⟨h45, h43⟩ := head?_decimal n (c :: rest)
  obtain ⟨htake, hdrop⟩ := span_decimal n rest hc
  have hsign : ¬ ((decimal n ++ c :: rest).head? = some 45 ∨
      (decimal n ++ c :: rest).head? = some 43) := not_or.mpr ⟨h45, h43⟩
  unfold readDigits
  dsimp only
  rw [hskip, if_neg hsign, htake, if_neg (decimal_ne_nil n), hdrop,
    digitsValue_decimal, decide_eq_false h45]

theorem reads_unsigned {bits n : Nat} (h : n < 2 ^ bits) :
    Reads (readUnsigned bits) (decimal n) n := by
  intro ws c rest hws hc
  rw [readUnsigned, reads_digits n hws hc]
  show (if n < 2 ^ bits then _ else _) = _
  rw [if_pos h]
  rfl

theorem reads_int {n : Int} (hpos : 0 ≤ n) (h : n ≤ 2147483647) :
    Reads readInt (decimalInt n) n := by
  intro ws c rest hws hc
  lift n to Nat using hpos
  have hneg : ¬ (n : Int) < 0 := by omega
  have hrange : -2147483648 ≤ (n : Int) ∧ (n : Int) ≤ 2147483647 := ⟨by omega, h⟩
  rw [decimalInt, if_neg hneg, readInt, Int.toNat_natCast, reads_digits n hws hc]
  exact if_pos hrange

/-! ## Lists of tokens -/

/-- White space follows, before words as well as after them. -/
theorem words_space (words : List Bytes) {c : UInt8} (rest : Bytes) (hc : isSpace c = true) :
    ∃ b s, wordsText words ++ c :: rest = b :: s ∧ isSpace b = true := by
  cases words with
  | nil => exact ⟨c, rest, rfl, hc⟩
  | cons word words => exact ⟨space, _, rfl, by decide⟩

/-- Words in a row leave the white space that follows them. -/
theorem readMany_words {α : Type} {read : Reader α} {text : α → Bytes} {xs : List α}
    (h : ∀ x ∈ xs, Reads read (text x) x) {c : UInt8} {rest : Bytes} (hc : isSpace c = true) :
    readMany read xs.length (wordsText (xs.map text) ++ c :: rest) = some (xs, c :: rest) := by
  induction xs with
  | nil => rfl
  | cons x xs ih =>
      obtain ⟨hx, hxs⟩ := List.forall_mem_cons.mp h
      obtain ⟨b, s, hs, hb⟩ := words_space (xs.map text) rest hc
      have hread : read ([space] ++ text x ++ b :: s) = some (x, b :: s) :=
        hx (spaces_singleton (by decide)) hb
      have htext : wordsText ((x :: xs).map text) ++ c :: rest = [space] ++ text x ++ b :: s := by
        rw [List.map_cons, wordsText, List.flatMap_cons, ← wordsText, List.append_assoc, hs]
        rfl
      rw [htext, List.length_cons, readMany, hread]
      show (readMany read xs.length (b :: s) >>= _) = _
      rw [← hs, ih hxs]
      rfl

/-- Lines in a row, `val x` being what the line `text x` says. -/
theorem readMany_lines {α ι : Type} {read : Reader α} {text : ι → Bytes} {val : ι → α}
    {xs : List ι} (h : ∀ x ∈ xs, Reads read (text x) (val x)) :
    ReadsLines (readMany read xs.length) (linesText (xs.map text)) (xs.map val) := by
  induction xs with
  | nil =>
      intro ws rest hws
      exact ⟨ws, hws, by rw [List.map_nil, linesText, List.flatMap_nil, List.append_nil]; rfl⟩
  | cons x xs ih =>
      intro ws rest hws
      obtain ⟨hx, hxs⟩ := List.forall_mem_cons.mp h
      obtain ⟨ws', hws', hread⟩ := ih hxs rest (spaces_singleton (by decide : isSpace newline = true))
      refine ⟨ws', hws', ?_⟩
      have htext : ws ++ linesText ((x :: xs).map text) ++ rest =
          ws ++ text x ++ newline :: (linesText (xs.map text) ++ rest) := by
        simp [linesText]
      rw [htext, List.length_cons, readMany, hx hws (by decide)]
      show (readMany read xs.length ([newline] ++ linesText (xs.map text) ++ rest) >>= _) = _
      rw [hread]
      rfl

theorem reads_col {col : Bytes × ValueType} (h : Word col.1) :
    Reads readCol (colText col) (col.1, col.2.raw) := by
  intro ws c rest hws hc
  have hraw : col.2.raw < 2 ^ 32 := by cases col.2 <;> decide
  have htext : ws ++ colText col ++ c :: rest =
      ws ++ col.1 ++ space :: (decimal col.2.raw ++ c :: rest) := by
    simp [colText]
  rw [htext, readCol, reads_word h hws (by decide)]
  show (readUnsigned 32 ([space] ++ decimal col.2.raw ++ c :: rest) >>= _) = _
  rw [reads_unsigned hraw (spaces_singleton (by decide)) hc]
  rfl

/-- A list of words after its length. -/
theorem readMany_counted {α : Type} {read : Reader α} (text : α → Bytes) {xs : List α}
    (h : ∀ x ∈ xs, Reads read (text x) x) (hlen : xs.length < 2 ^ 64) {ws : Bytes} {c : UInt8}
    (rest : Bytes) (hws : Spaces ws) (hc : isSpace c = true) : ∃ s,
    readUnsigned 64 (ws ++ (decimal xs.length ++ wordsText (xs.map text)) ++ c :: rest) =
      some (xs.length, s) ∧ readMany read xs.length s = some (xs, c :: rest) := by
  refine ⟨wordsText (xs.map text) ++ c :: rest, ?_, readMany_words h hc⟩
  obtain ⟨b, s, hs, hb⟩ := words_space (xs.map text) rest hc
  have htext : ws ++ (decimal xs.length ++ wordsText (xs.map text)) ++ c :: rest =
      ws ++ decimal xs.length ++ b :: s := by
    rw [← hs]
    simp
  rw [htext, hs]
  exact reads_unsigned hlen hws hb

theorem reads_index {index : List Bytes} (h : ∀ col ∈ index, Word col)
    (hlen : index.length < 2 ^ 64) : Reads readIndex (indexText index) index := by
  intro ws c rest hws hc
  obtain ⟨s, hn, hindex⟩ := readMany_counted id (fun col hcol => reads_word (h col hcol)) hlen rest
    hws hc
  rw [List.map_id] at hn
  rw [readIndex, indexText, hn]
  exact hindex

/-! ## Whole definitions -/

/-- The numbers of a definition fit the types they are read into. -/
structure TableDef.Fits (tdef : TableDef) : Prop where
  pkeys : tdef.pkeys ≤ 2147483647
  keyPrefix : tdef.keyPrefix < 2 ^ 32
  cols : tdef.cols.length < 2 ^ 64
  indexes : tdef.indexes.length < 2 ^ 64
  index : ∀ index ∈ tdef.indexes, index.length < 2 ^ 64
  nprefixes : tdef.indexPrefixes.length < 2 ^ 64
  indexPrefixes : ∀ p ∈ tdef.indexPrefixes, p < 2 ^ 32

theorem readLine_append {line : Bytes} (h : newline ∉ line) (rest : Bytes) :
    readLine (line ++ newline :: rest) = some (line, rest) := by
  have hall : ∀ c ∈ line, decide (c ≠ newline) = true := fun c hc =>
    decide_eq_true fun he => h (he ▸ hc)
  rw [readLine, if_neg (by simp), List.takeWhile_append_of_pos hall,
    List.dropWhile_append_of_pos hall, List.takeWhile_cons_of_neg (by simp),
    List.dropWhile_cons_of_neg (by simp), List.append_nil]
  rfl

theorem encodeTableDef_eq (tdef : TableDef) : encodeTableDef tdef =
    tdef.name ++ newline :: (decimalInt tdef.pkeys ++ newline :: (decimal tdef.keyPrefix ++
      newline :: (decimal tdef.cols.length ++ newline ::
        (linesText ((tdef.cols.zip tdef.types).map colText) ++ (decimal tdef.indexes.length ++
          newline :: (linesText (tdef.indexes.map indexText) ++
            ((decimal tdef.indexPrefixes.length ++ wordsText (tdef.indexPrefixes.map decimal)) ++
              newline :: []))))))) := by
  simp [encodeTableDef, linesText]

/-- **A definition with tidy names reads back as it was written.** -/
theorem decodeTableDef_encode {tdef : TableDef} (hchecked : tdef.Checked) (hfits : tdef.Fits)
    (htidy : tdef.Tidy) : decodeTableDef (encodeTableDef tdef) = some tdef := by
  have hpos : 0 ≤ tdef.pkeys := le_of_lt hchecked.pkeys
  have hzip : (tdef.cols.zip tdef.types).length = tdef.cols.length := by
    rw [List.length_zip, ← hchecked.types, Nat.min_self]
  have hnl : Spaces [newline] := spaces_singleton (by decide)
  rw [encodeTableDef_eq]
  -- what is left after each token
  generalize hr7 : (decimal tdef.indexPrefixes.length ++
    wordsText (tdef.indexPrefixes.map decimal)) ++ newline :: [] = r7
  generalize hr6 : linesText (tdef.indexes.map indexText) ++ r7 = r6
  generalize hr5 : decimal tdef.indexes.length ++ newline :: r6 = r5
  generalize hr4 : linesText ((tdef.cols.zip tdef.types).map colText) ++ r5 = r4
  generalize hr3 : decimal tdef.cols.length ++ newline :: r4 = r3
  generalize hr2 : decimal tdef.keyPrefix ++ newline :: r3 = r2
  have h1 : readInt (decimalInt tdef.pkeys ++ newline :: r2) = some (tdef.pkeys, newline :: r2) :=
    reads_int hpos hfits.pkeys spaces_nil (by decide)
  have h2 : readUnsigned 32 (newline :: r2) = some (tdef.keyPrefix, newline :: r3) := by
    rw [← hr2]
    exact reads_unsigned hfits.keyPrefix hnl (by decide)
  have h3 : readUnsigned 64 (newline :: r3) = some (tdef.cols.length, newline :: r4) := by
    rw [← hr3]
    exact reads_unsigned hfits.cols hnl (by decide)
  obtain ⟨ws1, hws1, h4⟩ : ∃ ws1, Spaces ws1 ∧ readMany readCol tdef.cols.length r4 =
      some ((tdef.cols.zip tdef.types).map fun col => (col.1, col.2.raw), ws1 ++ r5) := by
    rw [← hr4, ← hzip]
    exact readMany_lines (fun col hcol => reads_col (htidy.2 col.1 (List.of_mem_zip hcol).1)) r5
      spaces_nil
  have h5 : readUnsigned 64 (ws1 ++ r5) = some (tdef.indexes.length, newline :: r6) := by
    rw [← hr5, ← List.append_assoc]
    exact reads_unsigned hfits.indexes hws1 (by decide)
  obtain ⟨ws2, hws2, h6⟩ : ∃ ws2, Spaces ws2 ∧ readMany readIndex tdef.indexes.length
      (newline :: r6) = some (tdef.indexes.map id, ws2 ++ r7) := by
    rw [← hr6]
    exact readMany_lines (fun index hindex => reads_index (fun col hcol =>
      htidy.2 col ((hchecked.index index hindex).known col hcol)) (hfits.index index hindex)) r7 hnl
  obtain ⟨s, h7, h8⟩ : ∃ s, readUnsigned 64 (ws2 ++ r7) = some (tdef.indexPrefixes.length, s) ∧
      readMany (readUnsigned 32) tdef.indexPrefixes.length s =
        some (tdef.indexPrefixes, newline :: []) := by
    rw [← hr7, ← List.append_assoc]
    exact readMany_counted decimal (fun p hp => reads_unsigned (hfits.indexPrefixes p hp))
      hfits.nprefixes [] hws2 (by decide)
  have hcols : ((tdef.cols.zip tdef.types).map fun col => (col.1, col.2.raw)).map Prod.fst =
      tdef.cols := by
    rw [List.map_map]
    exact List.map_fst_zip (le_of_eq hchecked.types)
  have htypes : ((tdef.cols.zip tdef.types).map fun col => (col.1, col.2.raw)).map
      (fun col => ValueType.ofRaw col.2) = tdef.types := by
    have hraw : ((fun col => ValueType.ofRaw col.2) ∘ fun col : Bytes × ValueType =>
        (col.1, col.2.raw)) = Prod.snd := funext fun col => ValueType.ofRaw_raw col.2
    rw [List.map_map, hraw]
    exact List.map_snd_zip (le_of_eq hchecked.types.symm)
  simp only [decodeTableDef, readLine_append htidy.1, h1, h2, h3, h4, h5, h6, h7, h8, hcols, htypes,
    Option.bind_eq_bind, Option.bind_some, List.drop_one, List.tail_cons, List.map_id]
  rfl

theorem length_linesText (lines : List Bytes) : lines.length ≤ (linesText lines).length := by
  induction lines with
  | nil => exact Nat.zero_le _
  | cons line lines ih =>
      rw [linesText, List.flatMap_cons, ← linesText, List.length_append, List.length_append,
        List.length_cons, List.length_singleton]
      omega

/-- A text that is short enough to store holds no number that is too large. -/
theorem TableDef.Checked.fits {tdef : TableDef} (h : tdef.Checked)
    (hlen : (encodeTableDef tdef).length < 2 ^ 31)
    (hparallel : tdef.indexPrefixes.length = tdef.indexes.length)
    (hsmall : ∀ p ∈ tdef.keyPrefix :: tdef.indexPrefixes, p < 2 ^ 32) : tdef.Fits := by
  have hcols := length_linesText ((tdef.cols.zip tdef.types).map colText)
  have hindexes := length_linesText (tdef.indexes.map indexText)
  have hmin := Nat.min_self tdef.types.length
  have htypes := h.types
  have hwidth := h.width
  rw [List.length_map, List.length_zip, htypes, hmin] at hcols
  rw [List.length_map] at hindexes
  simp only [encodeTableDef, List.length_append] at hlen
  obtain ⟨hkey, hrest⟩ := List.forall_mem_cons.mp hsmall
  unfold npkeys at hwidth
  refine ⟨by omega, hkey, by omega, by omega, fun index hindex => ?_, by omega, hrest⟩
  have := (h.index index hindex).partial'
  omega

/-- **A stored definition reads back exactly when its names are tidy.** -/
theorem reads_back_iff {tdef : TableDef} (hchecked : tdef.Checked) (hfits : tdef.Fits) :
    decodeTableDef (encodeTableDef tdef) = some tdef ↔ tdef.Tidy :=
  ⟨decodeTableDef_tidy, decodeTableDef_encode hchecked hfits⟩

end SqlDb
