import SqlDb.Encoding.OrderPreserving

/-!
# Encoded tuples compare as the tuples do

Each value's encoding parts from that of every other value of its type: integers where
their digits first differ, strings where one ends and the other goes on, at the latest,
since no escaped byte is the terminator. So whatever follows a value in a tuple does not
change how it compares, and the first column that differs decides.
-/

namespace SqlDb

open Outcome Lex

/-! ## Integers -/

/-- Flipping the sign bit moves the least integer to 0. -/
theorem toNat_flipped (v : Int64) : ((v.toUInt64 + signBit).toNat : Int) = v.toInt + 2 ^ 63 := by
  have hlt : v.toUInt64.toNat < 2 ^ 64 := v.toUInt64.toNat_lt
  have hint : v.toInt = if 2 * v.toUInt64.toNat < 2 ^ 64 then (v.toUInt64.toNat : Int)
      else (v.toUInt64.toNat : Int) - 2 ^ 64 := BitVec.toInt_eq_toNat_cond v.toBitVec
  have hsign : signBit.toNat = 2 ^ 63 := by decide
  rw [UInt64.toNat_add, hsign, hint]
  split <;> omega

theorem encodeInt64_parts {v w : Int64} (h : v.toInt < w.toInt) :
    PartsBelow (encodeInt64 v) (encodeInt64 w) := by
  have hv := toNat_flipped v
  have hw := toNat_flipped w
  have hlt : (w.toUInt64 + signBit).toNat < 2 ^ 64 := UInt64.toNat_lt _
  refine Bytes.be_partsBelow ?_
  rw [show 256 ^ 8 = 2 ^ 64 by norm_num, Nat.mod_eq_of_lt (by omega), Nat.mod_eq_of_lt hlt]
  omega

/-! ## Strings -/

theorem bytes_trichotomy (s t : Bytes) : s < t ∨ s = t ∨ t < s := lt_trichotomy s t

/-- A byte of a string, in order: 0 and 1 become pairs, below every other byte. -/
theorem escapeByte_parts {c d : UInt8} (h : c < d) : PartsBelow (escapeByte c) (escapeByte d) := by
  unfold escapeByte
  by_cases hc : c ≤ 1
  · rw [if_pos hc]
    by_cases hd : d ≤ 1
    · rw [if_pos hd]
      have hcd : c + 1 < d + 1 := by
        simp only [UInt8.lt_iff_toNat_lt, UInt8.le_iff_toNat_le, UInt8.toNat_add,
          UInt8.toNat_one] at *
        omega
      exact (partsBelow_cons [] [] hcd).append_left [1]
    · rw [if_neg hd]
      exact partsBelow_cons _ _ (not_le.mp hd)
  · rw [if_neg hc, if_neg (not_le.mpr (lt_trans (not_le.mp hc) h))]
    exact partsBelow_cons _ _ h

/-- No escaped byte starts with the terminator. -/
theorem escapeByte_head (c : UInt8) : ∃ x s, escapeByte c = x :: s ∧ 0 < x ∧
    (c < 0xfe → x < 0xfe) := by
  unfold escapeByte
  by_cases hc : c ≤ 1
  · rw [if_pos hc]
    exact ⟨1, [c + 1], rfl, by decide, fun _ => by decide⟩
  · rw [if_neg hc]
    exact ⟨c, [], rfl, lt_trans (by decide) (not_le.mp hc), id⟩

/-- The escaped bytes and the terminator. -/
theorem escaped_parts {s t : Bytes} (h : s < t) :
    PartsBelow (s.flatMap escapeByte ++ [0]) (t.flatMap escapeByte ++ [0]) := by
  induction s generalizing t with
  | nil =>
      -- the terminator is below whatever the longer string goes on with
      cases t with
      | nil => exact absurd h (List.lt_irrefl [])
      | cons d t =>
          obtain ⟨x, r, he, hx, _⟩ := escapeByte_head d
          rw [List.flatMap_cons, he]
          exact partsBelow_cons _ _ hx
  | cons c s ih =>
      cases t with
      | nil => exact absurd h (List.not_lt_nil _)
      | cons d t =>
          rw [List.flatMap_cons, List.flatMap_cons, List.append_assoc, List.append_assoc]
          rcases List.cons_lt_cons_iff.mp h with hcd | ⟨rfl, hst⟩
          · exact (escapeByte_parts hcd).append _ _
          · exact (ih hst).append_left _

theorem startsHigh_false {s : Bytes} (h : startsHigh s = false) :
    ∃ x r, s.flatMap escapeByte ++ [0] = x :: r ∧ x < 0xfe := by
  cases s with
  | nil => exact ⟨0, [], rfl, by decide⟩
  | cons c s =>
      obtain ⟨x, r, he, _, hlow⟩ := escapeByte_head c
      refine ⟨x, r ++ s.flatMap escapeByte ++ [0], by rw [List.flatMap_cons, he]; simp, hlow ?_⟩
      simpa [startsHigh] using h

/-- The larger of two strings starts high if the smaller does. -/
theorem startsHigh_mono {s t : Bytes} (h : s < t) (hs : startsHigh s = true) :
    startsHigh t = true := by
  cases s with
  | nil => cases hs
  | cons c s =>
      cases t with
      | nil => exact absurd h (List.not_lt_nil _)
      | cons d t =>
          have hc : 0xfe ≤ c := of_decide_eq_true hs
          refine decide_eq_true ?_
          rcases List.cons_lt_cons_iff.mp h with hcd | ⟨rfl, _⟩
          · exact le_of_lt (lt_of_le_of_lt hc hcd)
          · exact hc

theorem encodeBytes_parts {s t : Bytes} (h : s < t) : PartsBelow (encodeBytes s)
    (encodeBytes t) := by
  have hparts := escaped_parts h
  unfold encodeBytes escapeString
  rw [List.append_assoc, List.append_assoc]
  by_cases hs : startsHigh s = true
  · rw [if_pos hs, if_pos (startsHigh_mono h hs)]
    exact hparts.append_left _
  · rw [if_neg hs]
    by_cases ht : startsHigh t = true
    · -- the prefix is above whatever a string that does not need it starts with
      rw [if_pos ht]
      obtain ⟨x, r, he, hx⟩ := startsHigh_false (Bool.eq_false_of_not_eq_true hs)
      rw [List.nil_append, he]
      exact partsBelow_cons _ _ hx
    · rw [if_neg ht]
      exact hparts

/-- **`0xff` is reserved.** -/
theorem encodeBytes_head (s : Bytes) : (encodeBytes s).head? ≠ some 0xff := by
  unfold encodeBytes escapeString
  by_cases hs : startsHigh s = true
  · rw [if_pos hs]
    simp
  · rw [if_neg hs]
    obtain ⟨x, r, he, hx⟩ := startsHigh_false (Bool.eq_false_of_not_eq_true hs)
    rw [List.nil_append, he, List.head?_cons]
    intro heq
    rw [Option.some.inj heq] at hx
    exact absurd hx (by decide)

/-! ## Tuples -/

/-- What a value that is no `ERROR` is encoded as. -/
def Value.encoded : Value → Bytes
  | .int64 v => encodeInt64 v
  | .bytes s => encodeBytes s
  | .error => []

/-- What a tuple is encoded as. -/
def encoded (values : List Value) : Bytes := values.flatMap Value.encoded

/-- The types that are drawn from `INT_64` and `BYTES`. -/
def Plain (types : List ValueType) : Prop := ∀ type ∈ types, type ≠ .error

theorem plain_cons {type : ValueType} {types : List ValueType} :
    Plain (type :: types) ↔ type ≠ .error ∧ Plain types := List.forall_mem_cons

theorem encodeValue_eq {v : Value} (h : v.type ≠ .error) : encodeValue v = .ok v.encoded := by
  cases v with
  | error => exact absurd rfl h
  | int64 _ => rfl
  | bytes _ => rfl

/-- **Only an `ERROR` value cannot be encoded.** -/
theorem encodeValues_eq {values : List Value} (h : Plain (values.map Value.type)) :
    encodeValues values = .ok (encoded values) := by
  induction values with
  | nil => rfl
  | cons v values ih =>
      obtain ⟨hv, hrest⟩ := plain_cons.mp h
      rw [encodeValues, encodeValue_eq hv, ok_bind, ih hrest, ok_bind]
      rfl

theorem encoded_cons (v : Value) (values : List Value) :
    encoded (v :: values) = v.encoded ++ encoded values := List.flatMap_cons

theorem encoded_append (values values' : List Value) :
    encoded (values ++ values') = encoded values ++ encoded values' := List.flatMap_append

/-- Values of one type. -/
theorem Value.parts {v w : Value} (htype : v.type = w.type) (hv : v.type ≠ .error) :
    Parts (v.compare w) v.encoded w.encoded := by
  cases v with
  | error => exact absurd rfl hv
  | int64 v =>
      cases w with
      | int64 w =>
          show Parts (cmp v.toInt w.toInt) (encodeInt64 v) (encodeInt64 w)
          rcases lt_trichotomy v.toInt w.toInt with h | h | h
          · rw [h.cmp_eq_lt]
            exact encodeInt64_parts h
          · rw [h, cmp_self_eq_eq, Int64.toInt_inj.mp h]
            exact rfl
          · rw [h.cmp_eq_gt]
            exact encodeInt64_parts h
      | _ => cases htype
  | bytes s =>
      cases w with
      | bytes t => exact parts_of_lt bytes_trichotomy (fun _ _ h => encodeBytes_parts h) s t
      | _ => cases htype

/-- **Tuples of the same types compare as their encodings do**, which part unless they are equal. -/
theorem encoded_parts {a b : List Value} (htypes : a.map Value.type = b.map Value.type)
    (hplain : Plain (a.map Value.type)) : Parts (compareValues a b) (encoded a) (encoded b) := by
  induction a generalizing b with
  | nil =>
      cases b with
      | nil => exact rfl
      | cons => cases htypes
  | cons v a ih =>
      cases b with
      | nil => cases htypes
      | cons w b =>
          rw [List.map_cons, List.map_cons, List.cons.injEq] at htypes
          obtain ⟨hv, ha⟩ := plain_cons.mp hplain
          rw [encoded_cons, encoded_cons]
          exact (Value.parts htypes.1 hv).append (ih htypes.2 ha)

theorem Value.eq_of_compare {v w : Value} (htype : v.type = w.type) (h : v.compare w = .eq) :
    v = w := by
  cases v <;> cases w <;> try cases htype
  · rfl
  · exact congrArg Value.int64 (Int64.toInt_inj.mp ((cmp_eq_eq_iff _ _).mp h))
  · exact congrArg Value.bytes (eq_of_cmp bytes_trichotomy h)

theorem eq_of_compareValues {a b : List Value} (htypes : a.map Value.type = b.map Value.type)
    (h : compareValues a b = .eq) : a = b := by
  induction a generalizing b with
  | nil =>
      cases b with
      | nil => rfl
      | cons => cases htypes
  | cons v a ih =>
      cases b with
      | nil => cases htypes
      | cons w b =>
          rw [List.map_cons, List.map_cons, List.cons.injEq] at htypes
          obtain ⟨h1, h2⟩ := Ordering.then_eq_eq.mp h
          rw [Value.eq_of_compare htypes.1 h1, ih htypes.2 h2]

/-- **The encoding is an order isomorphism.** Tuples of the same types, drawn from `INT_64` and
`BYTES`, compare column by column as their encodings compare byte by byte; no encoding is a prefix
of another; and no encoded string starts with `0xff`. -/
theorem encoding_order {types : List ValueType} (hplain : Plain types) :
    (∀ a b : List Value, a.map Value.type = types → b.map Value.type = types →
      ∃ ea eb, encodeValues a = .ok ea ∧ encodeValues b = .ok eb ∧
        cmp ea eb = compareValues a b ∧ (ea <+: eb → a = b)) ∧
    ∀ s, (encodeBytes s).head? ≠ some 0xff := by
  refine ⟨fun a b ha hb => ?_, encodeBytes_head⟩
  have htypes : a.map Value.type = b.map Value.type := ha.trans hb.symm
  have hparts := encoded_parts htypes (by rw [ha]; exact hplain)
  refine ⟨_, _, encodeValues_eq (by rw [ha]; exact hplain), encodeValues_eq (by rw [hb]; exact hplain),
    hparts.cmp_eq, fun hp => ?_⟩
  have heq := hparts.eq_of_prefix hp
  refine eq_of_compareValues htypes ?_
  rw [← hparts.cmp_eq, heq]
  unfold cmp cmpUsing
  rw [if_neg (List.lt_irrefl _), if_neg (List.lt_irrefl _)]

/-- For a string column and an integer column. -/
theorem encoding_order_string_int :
    (∀ a b : List Value, a.map Value.type = [.bytes, .int64] →
      b.map Value.type = [.bytes, .int64] →
      ∃ ea eb, encodeValues a = .ok ea ∧ encodeValues b = .ok eb ∧
        cmp ea eb = compareValues a b ∧ (ea <+: eb → a = b)) ∧
    ∀ s, (encodeBytes s).head? ≠ some 0xff :=
  encoding_order (by simp [Plain])

end SqlDb
