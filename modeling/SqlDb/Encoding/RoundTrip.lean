import SqlDb.Encoding.TupleOrder

/-!
# Decoding is the inverse of encoding

Each decoder is complete, so that what was encoded at a position decodes to it, and
sound, so that whatever it accepts is the encoding of what it returns. Together the
decoders accept the encodings and nothing else, and each string in one way only.

A decoder that fails throws. None of them reads past the end of its input.
-/

namespace SqlDb

open Outcome

/-- An exception, and no other way to fail. -/
def Thrown (f : Fault) : Prop := ∃ what, f = .throws what

/-! ## Integers -/

theorem unflip (v : Int64) :
    (UInt64.ofNat (v.toUInt64 + signBit).toNat - signBit).toInt64 = v := by
  rw [UInt64.ofNat_toNat]
  simp

theorem flip {u : Nat} (h : u < 2 ^ 64) :
    ((UInt64.ofNat u - signBit).toInt64.toUInt64 + signBit).toNat = u := by
  simp
  omega

/-- The digits from a position on, if they are there. -/
theorem decodeDigits_eq {data : Bytes} {n pos u : Nat} {digits rest : Bytes}
    (h : data.drop pos = digits ++ rest) (hn : digits.length = n) :
    decodeDigits data n pos u = .ok (Bytes.toNatBe u digits) := by
  induction n generalizing pos u digits with
  | zero =>
      rw [List.length_eq_zero_iff.mp hn]
      rfl
  | succ n ih =>
      cases digits with
      | nil => cases hn
      | cons b digits =>
          have hat : data[pos]? = some b := by
            have := congrArg List.head? h
            rwa [List.head?_drop] at this
          have hdrop : data.drop (pos + 1) = digits ++ rest := by
            have := congrArg List.tail h
            rwa [List.tail_drop] at this
          rw [decodeDigits, byteAt, hat, ok_bind, ih hdrop (Nat.succ.inj hn)]
          rfl

theorem decodeInt64_complete {data : Bytes} {pos : Nat} {v : Int64} {rest : Bytes}
    (h : data.drop pos = encodeInt64 v ++ rest) : decodeInt64 data pos = .ok (v, pos + 8) := by
  have hlen := congrArg List.length h
  rw [List.length_drop, List.length_append, encodeInt64, Bytes.length_be] at hlen
  rw [decodeInt64, require_pos (by omega), ok_bind, decodeDigits_eq h (Bytes.length_be 8 _), ok_bind,
    encodeInt64, Bytes.toNatBe_be, Nat.zero_mul, Nat.zero_add,
    Nat.mod_eq_of_lt (by exact UInt64.toNat_lt _), unflip]
  rfl

/-- What a decoder returned at `pos` is what was encoded there. -/
def Decoded {α : Type} (encode : α → Bytes) (data : Bytes) (pos : Nat) (r : α × Nat) : Prop :=
  r.2 ≤ data.length ∧ data.drop pos = encode r.1 ++ data.drop r.2

theorem decodeInt64_sound (data : Bytes) (pos : Nat) :
    Ends Thrown (Decoded encodeInt64 data pos) (decodeInt64 data pos) := by
  unfold decodeInt64
  by_cases hlen : pos + 8 ≤ data.length
  · have hsplit : data.drop pos = (data.drop pos).take 8 ++ data.drop (pos + 8) := by
      rw [← List.drop_drop, List.take_append_drop]
    have htake : ((data.drop pos).take 8).length = 8 := by
      rw [List.length_take, List.length_drop]
      omega
    obtain ⟨_, hlt⟩ := Bytes.toNatBe_acc 0 ((data.drop pos).take 8)
    have hback := Bytes.be_toNatBe ((data.drop pos).take 8) 0
    rw [htake] at hlt hback
    rw [require_pos hlen, ok_bind, decodeDigits_eq hsplit htake, ok_bind]
    refine ⟨hlen, ?_⟩
    show data.drop pos = Bytes.be 8 _ ++ data.drop (pos + 8)
    rw [flip (by omega), hback]
    exact hsplit
  · rw [require_neg hlen, error_bind]
    exact ⟨_, rfl⟩

/-! ## Strings -/

theorem unescapeLoop_plain {c : UInt8} (hc : c ≠ 1) (s : Bytes) : unescapeLoop (c :: s) = do
    let out ← unescapeLoop s
    return c :: out := by
  rw [unescapeLoop.eq_def]
  exact if_pos hc

/-- An escape that is cut off. -/
theorem unescapeLoop_lone {c : UInt8} (hc : ¬ c ≠ 1) : unescapeLoop [c] = .error badEscape := by
  rw [not_not.mp hc]
  rfl

theorem unescapeLoop_pair {c : UInt8} (hc : ¬ c ≠ 1) (d : UInt8) (s : Bytes) :
    unescapeLoop (c :: d :: s) = if d ≠ 1 ∧ d ≠ 2 then .error badEscape
      else do
        let out ← unescapeLoop s
        return (d - 1) :: out := by
  rw [not_not.mp hc]
  rfl

theorem unescapeLoop_escaped (s : Bytes) : unescapeLoop (s.flatMap escapeByte) = .ok s := by
  induction s with
  | nil => rfl
  | cons c s ih =>
      rw [List.flatMap_cons, escapeByte]
      by_cases hc : c ≤ 1
      · have hpair : c + 1 = 1 ∨ c + 1 = 2 := by
          have hc' : c = 0 ∨ c = 1 := by
            simp only [UInt8.le_iff_toNat_le, UInt8.toNat_one, ← UInt8.toNat_inj,
              UInt8.toNat_zero] at *
            omega
          rcases hc' with rfl | rfl
          · exact Or.inl rfl
          · exact Or.inr rfl
        rw [if_pos hc]
        show unescapeLoop (1 :: (c + 1) :: s.flatMap escapeByte) = _
        rw [unescapeLoop_pair (by simp), if_neg (by tauto), ih, ok_bind]
        simp
        rfl
      · rw [if_neg hc]
        show unescapeLoop (c :: s.flatMap escapeByte) = _
        have hne : c ≠ 1 := fun he => hc (le_of_eq he)
        rw [unescapeLoop_plain hne, ih, ok_bind]
        rfl

theorem startsHigh_escaped (s : Bytes) : startsHigh (s.flatMap escapeByte) = startsHigh s := by
  cases s with
  | nil => rfl
  | cons c s =>
      rw [List.flatMap_cons, escapeByte]
      by_cases hc : c ≤ 1
      · rw [if_pos hc]
        have hlow : ¬ (0xfe : UInt8) ≤ c := fun h => absurd (le_trans h hc) (by decide)
        show decide ((0xfe : UInt8) ≤ 1) = decide (0xfe ≤ c)
        rw [decide_eq_false hlow]
        decide
      · rw [if_neg hc]
        rfl

theorem unescape_escape (s : Bytes) : unescapeString (escapeString s) = .ok s := by
  unfold unescapeString escapeString
  by_cases hs : startsHigh s = true
  · rw [if_pos hs, if_pos (by rfl), require_pos ⟨rfl, by
      rw [List.singleton_append, List.tail_cons, startsHigh_escaped, hs]⟩, ok_bind]
    exact unescapeLoop_escaped s
  · rw [if_neg hs, List.nil_append, startsHigh_escaped, if_neg hs]
    exact unescapeLoop_escaped s

/-- Escaped strings hold no terminator. -/
theorem zero_notMem_escape (s : Bytes) : (0 : UInt8) ∉ escapeString s := by
  unfold escapeString
  intro hmem
  rcases List.mem_append.mp hmem with h | h
  · split at h
    · exact absurd (List.mem_singleton.mp h) (by decide)
    · exact absurd h List.not_mem_nil
  · obtain ⟨c, _, hc⟩ := List.mem_flatMap.mp h
    unfold escapeByte at hc
    split at hc
    · rename_i hle
      rcases List.mem_cons.mp hc with h1 | h1
      · exact absurd h1 (by decide)
      · have h2 := congrArg UInt8.toNat (List.mem_singleton.mp h1)
        simp only [UInt8.le_iff_toNat_le, UInt8.toNat_one, UInt8.toNat_add, UInt8.toNat_zero] at *
        omega
    · rename_i hle
      rw [← List.mem_singleton.mp hc] at hle
      exact hle (by decide)

/-- **A string that unescapes is the escape of what comes out**, if it holds no terminator. -/
theorem unescapeLoop_sound (s : Bytes) (h0 : (0 : UInt8) ∉ s) :
    Ends Thrown (fun out => out.flatMap escapeByte = s) (unescapeLoop s) := by
  induction s using unescapeLoop.induct with
  | case1 => exact rfl
  | case2 c s hc ih =>
      rw [unescapeLoop_plain hc]
      refine Ends.bind (ih fun h => h0 (List.mem_cons_of_mem _ h)) ?_
      intro out hout
      -- neither 0 nor 1, so it stood for itself
      have hbig : ¬ c ≤ 1 := by
        have hne : c ≠ 0 := fun h => h0 (by rw [h]; exact List.mem_cons_self)
        simp only [UInt8.le_iff_toNat_le, UInt8.toNat_one, ne_eq, ← UInt8.toNat_inj,
          UInt8.toNat_zero] at *
        omega
      show (c :: out).flatMap escapeByte = c :: s
      rw [List.flatMap_cons, escapeByte, if_neg hbig, hout]
      rfl
  | case3 c hc =>
      rw [unescapeLoop_lone hc]
      exact ⟨_, rfl⟩
  | case4 c hc d s hd =>
      rw [unescapeLoop_pair hc, if_pos hd]
      exact ⟨_, rfl⟩
  | case5 c hc d s hd ih =>
      rw [unescapeLoop_pair hc, if_neg hd]
      refine Ends.bind (ih fun h => h0 (by simp [h])) ?_
      intro out hout
      show ((d - 1) :: out).flatMap escapeByte = c :: d :: s
      have hc' : c = 1 := not_not.mp hc
      -- an escape is 1 and then 1 or 2, for 0 and 1
      have hd' : d = 1 ∨ d = 2 := by tauto
      rw [List.flatMap_cons, hout, hc']
      rcases hd' with rfl | rfl
      · rfl
      · rfl

theorem unescape_sound (s : Bytes) (h0 : (0 : UInt8) ∉ s) :
    Ends Thrown (fun out => escapeString out = s) (unescapeString s) := by
  unfold unescapeString
  by_cases hs : startsHigh s = true
  · rw [if_pos hs]
    by_cases hgood : s.head? = some 0xfe ∧ startsHigh s.tail = true
    · rw [require_pos hgood, ok_bind]
      have h0' : (0 : UInt8) ∉ s.tail := fun h => h0 (List.mem_of_mem_tail h)
      refine (unescapeLoop_sound s.tail h0').imp ?_
      intro out hout
      have hhigh : startsHigh out = true := by rw [← startsHigh_escaped, hout, hgood.2]
      rw [escapeString, if_pos hhigh, hout]
      cases s with
      | nil => cases hgood.1
      | cons c s =>
          rw [Option.some.inj hgood.1]
          rfl
    · rw [require_neg hgood]
      exact ⟨_, rfl⟩
  · rw [if_neg hs]
    refine (unescapeLoop_sound s h0).imp ?_
    intro out hout
    have hlow : ¬ startsHigh out = true := by rw [← startsHigh_escaped, hout]; exact hs
    rw [escapeString, if_neg hlow, hout]
    rfl

/-! ## Finding the terminator -/

theorem findFrom_eq {data s rest : Bytes} {pos : Nat} (h : data.drop pos = s ++ 0 :: rest)
    (h0 : (0 : UInt8) ∉ s) : findFrom data 0 pos = some (pos + s.length) ∧
      substr data pos (pos + s.length - pos) = s := by
  refine ⟨?_, ?_⟩
  · unfold findFrom
    have hnone : s.findIdx? (fun b => decide (b = 0)) = none := by
      rw [List.findIdx?_eq_none_iff]
      intro b hb
      exact decide_eq_false fun he => h0 (he ▸ hb)
    rw [h, List.findIdx?_append, hnone]
    simp [List.findIdx?_cons]
  · rw [substr, h, Nat.add_sub_cancel_left, List.take_left']
    rfl

theorem findFrom_cases (data : Bytes) (pos : Nat) : findFrom data 0 pos = none ∨
    ∃ s rest, data.drop pos = s ++ 0 :: rest ∧ (0 : UInt8) ∉ s := by
  by_cases hmem : (0 : UInt8) ∈ data.drop pos
  · obtain ⟨s, rest, hsplit, hs⟩ := List.eq_append_cons_of_mem hmem
    exact Or.inr ⟨s, rest, hsplit, hs⟩
  · left
    rw [findFrom, List.findIdx?_eq_none_iff.mpr]
    · rfl
    · intro b hb
      exact decide_eq_false fun he => hmem (he ▸ hb)

theorem decodeBytes_complete {data : Bytes} {pos : Nat} {str rest : Bytes}
    (h : data.drop pos = encodeBytes str ++ rest) :
    decodeBytes data pos = .ok (str, pos + (encodeBytes str).length) := by
  have hsplit : data.drop pos = escapeString str ++ 0 :: rest := by
    rw [h, encodeBytes, List.append_assoc]
    rfl
  obtain ⟨hfind, hsub⟩ := findFrom_eq hsplit (zero_notMem_escape str)
  unfold decodeBytes
  rw [hfind]
  dsimp only
  rw [hsub, unescape_escape, ok_bind, encodeBytes, List.length_append]
  rfl

theorem decodeBytes_sound (data : Bytes) (pos : Nat) :
    Ends Thrown (Decoded encodeBytes data pos) (decodeBytes data pos) := by
  unfold decodeBytes
  rcases findFrom_cases data pos with hnone | ⟨s, rest, hsplit, h0⟩
  · rw [hnone]
    exact ⟨_, rfl⟩
  · obtain ⟨hfind, hsub⟩ := findFrom_eq hsplit h0
    rw [hfind]
    dsimp only
    rw [hsub]
    refine Ends.bind (unescape_sound s h0) ?_
    intro out hout
    have hlen := congrArg List.length hsplit
    rw [List.length_drop, List.length_append, List.length_cons] at hlen
    refine ⟨?_, ?_⟩
    · show pos + s.length + 1 ≤ data.length
      omega
    · show data.drop pos = encodeBytes out ++ data.drop (pos + s.length + 1)
      have hrest : data.drop (pos + s.length + 1) = rest := by
        rw [Nat.add_assoc, ← List.drop_drop, hsplit, ← List.drop_drop, List.drop_left]
        rfl
      rw [hrest, encodeBytes, hout, hsplit, List.append_assoc]
      rfl

/-! ## Tuples -/

theorem decodeValue_complete {data : Bytes} {pos : Nat} {v : Value} {rest : Bytes}
    (hv : v.type ≠ .error) (h : data.drop pos = v.encoded ++ rest) :
    decodeValue data v.type pos = .ok (v, pos + v.encoded.length) := by
  cases v with
  | error => exact absurd rfl hv
  | int64 v =>
      have hlen : (encodeInt64 v).length = 8 := Bytes.length_be 8 _
      rw [Value.encoded, hlen]
      show decodeValue data .int64 pos = _
      rw [decodeValue, decodeInt64_complete h]
      rfl
  | bytes str =>
      show decodeValue data .bytes pos = _
      rw [decodeValue, decodeBytes_complete h]
      rfl

theorem decodeValue_sound (data : Bytes) (type : ValueType) (pos : Nat) :
    Ends Thrown (fun r => r.1.type = type ∧ type ≠ .error ∧ Decoded Value.encoded data pos r)
      (decodeValue data type pos) := by
  cases type with
  | error => exact ⟨_, rfl⟩
  | int64 => exact Ends.bind (decodeInt64_sound data pos) fun r hr => ⟨rfl, nofun, hr⟩
  | bytes => exact Ends.bind (decodeBytes_sound data pos) fun r hr => ⟨rfl, nofun, hr⟩

theorem decodeSlots_complete {data : Bytes} {pos : Nat} {values : List Value} {rest : Bytes}
    (hplain : Plain (values.map Value.type)) (h : data.drop pos = encoded values ++ rest) :
    decodeSlots data (values.map Value.type) pos = .ok (values, pos + (encoded values).length) := by
  induction values generalizing pos with
  | nil => rfl
  | cons v values ih =>
      obtain ⟨hv, hvalues⟩ := plain_cons.mp hplain
      rw [encoded_cons, List.append_assoc] at h
      have hrest : data.drop (pos + v.encoded.length) = encoded values ++ rest := by
        rw [← List.drop_drop, h, List.drop_left]
      rw [List.map_cons, decodeSlots, decodeValue_complete hv h, ok_bind]
      dsimp only
      rw [ih hvalues hrest, ok_bind, encoded_cons, List.length_append, Nat.add_assoc]
      rfl

theorem decodeSlots_sound (data : Bytes) (types : List ValueType) {pos : Nat}
    (hpos : pos ≤ data.length) :
    Ends Thrown (fun r => r.1.map Value.type = types ∧ Plain types ∧ Decoded encoded data pos r)
      (decodeSlots data types pos) := by
  induction types generalizing pos with
  | nil => exact ⟨rfl, fun _ h => absurd h List.not_mem_nil, hpos, rfl⟩
  | cons type types ih =>
      rw [decodeSlots]
      refine Ends.bind (decodeValue_sound data type pos) ?_
      intro r hr
      obtain ⟨htype, hne, hle, hv⟩ := hr
      refine Ends.bind (ih hle) ?_
      intro r' hr'
      obtain ⟨htypes, hplain, hle', hvalues⟩ := hr'
      refine ⟨by rw [List.map_cons, htype, htypes], plain_cons.mpr ⟨hne, hplain⟩, hle', ?_⟩
      show data.drop pos = encoded (r.1 :: r'.1) ++ data.drop r'.2
      rw [hv, hvalues, encoded_cons, List.append_assoc]

/-- What was encoded decodes to itself. -/
theorem decodeValues_complete {values : List Value} (hplain : Plain (values.map Value.type)) :
    decodeValues (encoded values) (values.map Value.type) = .ok values := by
  have hdrop : (encoded values).drop 0 = encoded values ++ [] := by simp
  rw [decodeValues, decodeSlots_complete hplain hdrop, ok_bind]
  dsimp only
  rw [Nat.zero_add, require_pos rfl]
  rfl

/-- What is accepted is an encoding. -/
theorem decodeValues_sound (data : Bytes) (types : List ValueType) :
    Ends Thrown (fun values => values.map Value.type = types ∧ Plain types ∧ encoded values = data)
      (decodeValues data types) := by
  unfold decodeValues
  refine Ends.bind (decodeSlots_sound data types (Nat.zero_le _)) ?_
  intro r hr
  obtain ⟨htypes, hplain, _, hdata⟩ := hr
  by_cases hend : r.2 = data.length
  · dsimp only
    rw [require_pos hend]
    rw [hend, List.drop_length, List.append_nil] at hdata
    exact ⟨htypes, hplain, hdata.symm⟩
  · dsimp only
    rw [require_neg hend]
    exact ⟨_, rfl⟩

/-- **The codec round trips in both directions.** Every tuple of types drawn from `INT_64` and
`BYTES` is what its encoding decodes to; and whatever string is decoded into slots of these types,
either the decoder throws, having read nothing past the end, or what it returns has those types and
is encoded as that very string. -/
theorem codec_round_trip {types : List ValueType} (hplain : Plain types) :
    (∀ values : List Value, values.map Value.type = types →
      ∃ data, encodeValues values = .ok data ∧ decodeValues data types = .ok values) ∧
    ∀ data, Ends Thrown (fun values => values.map Value.type = types ∧
      encodeValues values = .ok data)
      (decodeValues data types) := by
  refine ⟨fun values htypes => ?_, fun data => (decodeValues_sound data types).imp ?_⟩
  · rw [← htypes] at hplain ⊢
    exact ⟨_, encodeValues_eq hplain, decodeValues_complete hplain⟩
  · intro values hvalues
    obtain ⟨htypes, _, hdata⟩ := hvalues
    refine ⟨htypes, ?_⟩
    rw [encodeValues_eq (by rw [htypes]; exact hplain), hdata]

/-- For a string column and an integer column. -/
theorem codec_round_trip_string_int :
    (∀ values : List Value, values.map Value.type = [.bytes, .int64] →
      ∃ data, encodeValues values = .ok data ∧
        decodeValues data [.bytes, .int64] = .ok values) ∧
    ∀ data, Ends Thrown (fun values => values.map Value.type = [.bytes, .int64] ∧
        encodeValues values = .ok data) (decodeValues data [.bytes, .int64]) :=
  codec_round_trip (by simp [Plain])

end SqlDb
