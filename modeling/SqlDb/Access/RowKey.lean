import SqlDb.Access.RowCodec

/-!
# Keys compare as the rows do

A tuple's key in the space numbered `p`, and how it compares with a bound. Whatever the
relation, a key satisfies it relative to a bound exactly when the tuple's leading values
satisfy it relative to the bound's. And what lies between two bounds of one space is in
that space.
-/

namespace SqlDb

open Outcome Lex

/-! ## Spaces of keys -/

/-- The key of a tuple, in the space numbered `p`. -/
def keyOf (p : Nat) (values : List Value) : Bytes := Bytes.be keyPrefixSize p ++ encoded values

theorem inSpace_keyOf (p : Nat) (values : List Value) : InSpace p (keyOf p values) :=
  inSpace_append p _

theorem keyOf_inj {p q : Nat} {a b : List Value} (hp : p < 2 ^ 32) (hq : q < 2 ^ 32)
    (htypes : a.map Value.type = b.map Value.type) (hplain : Plain (a.map Value.type))
    (h : keyOf p a = keyOf q b) : p = q ∧ a = b := by
  obtain ⟨hpre, henc⟩ := List.append_inj h (by simp)
  refine ⟨be_inj hp hq hpre, eq_of_compareValues htypes ?_⟩
  rw [← (encoded_parts htypes hplain).cmp_eq, henc]
  unfold cmp cmpUsing
  rw [if_neg (List.lt_irrefl _), if_neg (List.lt_irrefl _)]

/-! ## The codec on well-typed rows -/

theorem encodeKey_eq (p : Nat) {values : List Value} (h : Plain (values.map Value.type)) :
    encodeKey p values = .ok (keyOf p values) := by
  rw [encodeKey, encodeValues_eq h]
  rfl

/-- An `ERROR` value makes the encoder throw. -/
theorem encodeValues_ends (values : List Value) : Ends Thrown
    (fun out => Plain (values.map Value.type) ∧ out = encoded values) (encodeValues values) := by
  induction values with
  | nil => exact ⟨fun _ h => absurd h List.not_mem_nil, rfl⟩
  | cons v values ih =>
      by_cases hv : v.type = .error
      · cases v with
        | error => exact ⟨_, rfl⟩
        | _ => cases hv
      · rw [encodeValues, encodeValue_eq hv, ok_bind]
        refine Ends.bind ih ?_
        intro out hout
        exact ⟨plain_cons.mpr ⟨hv, hout.1⟩, by rw [hout.2]; rfl⟩

theorem encodeKey_ends (p : Nat) (values : List Value) : Ends Thrown
    (fun out => Plain (values.map Value.type) ∧ out = keyOf p values) (encodeKey p values) := by
  refine Ends.bind (encodeValues_ends values) ?_
  intro out hout
  exact ⟨hout.1, by rw [hout.2]; rfl⟩

theorem decodeKey_keyOf (p : Nat) {values : List Value} (h : Plain (values.map Value.type)) :
    decodeKey (keyOf p values) (values.map Value.type) = .ok values := by
  have hlen : (Bytes.be keyPrefixSize p).length = keyPrefixSize := Bytes.length_be _ _
  rw [decodeKey, require_pos (by rw [keyOf, List.length_append, hlen]; omega), ok_bind, keyOf,
    List.drop_append_of_le_length (le_of_eq hlen.symm), List.drop_of_length_le (le_of_eq hlen),
    List.nil_append]
  exact decodeValues_complete h

theorem plain_take {types : List ValueType} (h : Plain types) (n : Nat) : Plain (types.take n) :=
  fun type htype => h type (List.mem_of_mem_take htype)

theorem plain_drop {types : List ValueType} (h : Plain types) (n : Nat) : Plain (types.drop n) :=
  fun type htype => h type (List.mem_of_mem_drop htype)

/-- **A row is decoded as it was stored.** -/
theorem decodeRow_keyOf {tdef : TableDef} (hplain : Plain tdef.types)
    (hlen : tdef.cols.length = tdef.types.length) (p : Nat) {row : List Value}
    (hrow : row.map Value.type = tdef.types) :
    decodeRow tdef (keyOf p (row.take tdef.npkeys)) (encoded (row.drop tdef.npkeys)) =
      .ok (.ofCols tdef.cols row) := by
  have hkey : typedSlots tdef 0 tdef.npkeys = (row.take tdef.npkeys).map Value.type := by
    rw [typedSlots, List.drop_zero, Nat.sub_zero, List.map_take, hrow]
  have hval : typedSlots tdef tdef.npkeys tdef.cols.length =
      (row.drop tdef.npkeys).map Value.type := by
    rw [typedSlots, List.map_drop, hrow, List.take_of_length_le (by rw [List.length_drop, hlen])]
  rw [decodeRow, hkey, hval, decodeKey_keyOf p, ok_bind, decodeValues_complete, ok_bind,
    List.take_append_drop]
  · rfl
  · rw [List.map_drop, hrow]
    exact plain_drop hplain _
  · rw [List.map_take, hrow]
    exact plain_take hplain _

/-! ## Bounds -/

/-- The largest encoding of columns of these types, or what is above every one. -/
def padding : List ValueType → Bytes
  | [] => []
  | .int64 :: types => List.replicate 8 0xff ++ padding types
  | .bytes :: _ => [0xff]
  | .error :: _ => []

theorem colIndex_eq (tdef : TableDef) (col : Bytes) :
    (colIndex tdef col).bind (fun i => tdef.types[i]?) = cellAt tdef.cols tdef.types col := rfl

theorem padColumns_eq {tdef : TableDef} (hlen : tdef.cols.length = tdef.types.length)
    {cols : List Bytes} (hcols : ∀ col ∈ cols, col ∈ tdef.cols)
    (hplain : Plain (tdef.typesOf cols)) :
    padColumns tdef cols = .ok (padding (tdef.typesOf cols)) := by
  induction cols with
  | nil => rfl
  | cons col cols ih =>
      obtain ⟨hcol, hcols⟩ := List.forall_mem_cons.mp hcols
      rw [TableDef.typesOf, List.map_cons] at hplain ⊢
      obtain ⟨htype, hplain⟩ := plain_cons.mp hplain
      have ih := ih hcols hplain
      obtain ⟨type, hcell⟩ := Option.isSome_iff_exists.mp
        ((cellAt_isSome (le_of_eq hlen)).mpr hcol)
      rw [hcell, Option.getD_some] at htype ⊢
      rw [← colIndex_eq] at hcell
      obtain ⟨i, hi, htypes⟩ := Option.bind_eq_some_iff.mp hcell
      rw [padColumns, hi]
      dsimp only
      rw [htypes]
      cases type with
      | error => exact absurd rfl htype
      | bytes => rfl
      | int64 =>
          dsimp only
          rw [ih]
          rfl

theorem append_le_append (p : Bytes) {a b : Bytes} (h : a ≤ b) : p ++ a ≤ p ++ b := by
  rcases h.eq_or_lt with rfl | hlt
  · exact le_refl _
  · exact le_of_lt (List.Lex.append_left (· < ·) hlt p)

theorem le_of_partsBelow {a b : Bytes} (h : PartsBelow a b) : a ≤ b := le_of_lt h.lt

/-- Eight bytes are at most `0xff` each. -/
theorem encodeInt64_le (v : Int64) :
    encodeInt64 v = List.replicate 8 0xff ∨ PartsBelow (encodeInt64 v) (List.replicate 8 0xff) := by
  have hmax : List.replicate 8 0xff = Bytes.be 8 (2 ^ 64 - 1) := by decide
  have hlt : (v.toUInt64 + signBit).toNat < 2 ^ 64 := UInt64.toNat_lt _
  rw [hmax]
  by_cases h : (v.toUInt64 + signBit).toNat = 2 ^ 64 - 1
  · left
    rw [encodeInt64, h]
  · right
    refine Bytes.be_partsBelow ?_
    rw [show 256 ^ 8 = 2 ^ 64 by norm_num, Nat.mod_eq_of_lt hlt]
    omega

/-- **The padding is above every tuple** of its types. -/
theorem encoded_le_padding (values : List Value) (h : Plain (values.map Value.type)) :
    encoded values ≤ padding (values.map Value.type) := by
  induction values with
  | nil => exact le_refl _
  | cons v values ih =>
      obtain ⟨hv, hrest⟩ := plain_cons.mp h
      rw [encoded_cons, List.map_cons]
      cases v with
      | error => exact absurd rfl hv
      | int64 v =>
          show encodeInt64 v ++ encoded values ≤ List.replicate 8 0xff ++ padding _
          -- eight bytes of 0xff, or less somewhere in them
          rcases encodeInt64_le v with he | hlt
          · rw [he]
            exact append_le_append _ (ih hrest)
          · exact le_of_partsBelow (hlt.append _ _)
      | bytes s =>
          show encodeBytes s ++ encoded values ≤ [0xff]
          have hhead := encodeBytes_head s
          cases he : encodeBytes s with
          | nil => exact absurd he (by simp [encodeBytes])
          | cons x rest =>
              rw [he, List.head?_cons] at hhead
              -- an encoded string never starts with 0xff, so the one byte is above all of it
              have hx : x < 0xff := by
                have hle : x.toNat < 256 := x.toNat_lt
                have hne : x ≠ 0xff := fun h => hhead (congrArg some h)
                refine UInt8.lt_iff_toNat_lt.mpr ?_
                have hne' : x.toNat ≠ 255 := fun h => hne (UInt8.toNat_inj.mp h)
                show x.toNat < 255
                omega
              exact le_of_partsBelow (partsBelow_cons _ _ hx)

/-- Does an outcome of a comparison satisfy the relation? -/
def CMP.holds (cmp : CMP) (o : Ordering) : Bool :=
  match cmp with
  | .ge => o ≠ .lt
  | .gt => o = .gt
  | .lt => o = .lt
  | .le => o ≠ .gt

section Bounds

variable {p : Nat} {values bound : List Value} {pad : Bytes}

/-- A bound's bytes, and how a key compares with them by the leading values. -/
theorem keyOf_parts (pad : Bytes)
    (htypes : (values.take bound.length).map Value.type = bound.map Value.type)
    (hplain : Plain (values.map Value.type)) :
    match compareValues (values.take bound.length) bound with
    | .lt => keyOf p values < keyOf p bound ++ pad
    | .eq => keyOf p values = keyOf p bound ++ encoded (values.drop bound.length)
    | .gt => keyOf p bound ++ pad < keyOf p values := by
  have hplain' : Plain ((values.take bound.length).map Value.type) := by
    rw [List.map_take]
    exact plain_take hplain _
  have hparts := encoded_parts htypes hplain'
  -- the key is the bound's part and the rest
  have hsplit : encoded values =
      encoded (values.take bound.length) ++ encoded (values.drop bound.length) := by
    rw [← encoded_append, List.take_append_drop]
  cases ho : compareValues (values.take bound.length) bound with
  | lt =>
      rw [ho] at hparts
      dsimp only
      rw [keyOf, keyOf, List.append_assoc, hsplit]
      exact ((PartsBelow.append hparts _ _).append_left _).lt
  | gt =>
      rw [ho] at hparts
      dsimp only
      rw [keyOf, keyOf, List.append_assoc, hsplit]
      exact ((PartsBelow.append hparts _ _).append_left _).lt
  | eq =>
      rw [ho] at hparts
      dsimp only
      rw [keyOf, keyOf, List.append_assoc, hsplit, show encoded _ = encoded bound from hparts]

theorem le_append (a b : Bytes) : a ≤ a ++ b := by
  have h := append_le_append a (Bytes.nil_le b)
  rwa [List.append_nil] at h

/-- **A key satisfies a relation to a bound** as its leading values do to the bound's. The bound of
a relation that goes past every key with its values is padded. -/
theorem cmpOk_keyOf (htypes : (values.take bound.length).map Value.type = bound.map Value.type)
    (hplain : Plain (values.map Value.type)) {cmp : CMP}
    (hpad : pad = if cmp ≠ .gt ∧ cmp ≠ .le then []
      else padding ((values.map Value.type).drop bound.length)) :
    cmpOk (keyOf p values) cmp (keyOf p bound ++ pad) =
      cmp.holds (compareValues (values.take bound.length) bound) := by
  have hparts := keyOf_parts (p := p) pad htypes hplain
  have hplain' : Plain ((values.drop bound.length).map Value.type) := by
    rw [List.map_drop]
    exact plain_drop hplain _
  cases ho : compareValues (values.take bound.length) bound with
  | lt =>
      rw [ho] at hparts
      cases cmp <;> simp [cmpOk, CMP.holds, hparts, hparts.le, hparts.not_gt, hparts.not_ge]
  | gt =>
      rw [ho] at hparts
      cases cmp <;> simp [cmpOk, CMP.holds, hparts, hparts.le, hparts.not_gt, hparts.not_ge]
  | eq =>
      rw [ho] at hparts
      dsimp only at hparts
      -- equal so far: with no padding the bound is below, with padding it is above
      rw [hparts, hpad]
      have hle := append_le_append (keyOf p bound) (encoded_le_padding _ hplain')
      have hge := le_append (keyOf p bound) (encoded (values.drop bound.length))
      rw [List.map_drop] at hle
      cases cmp with
      | ge => simpa [cmpOk, CMP.holds] using hge
      | lt => simpa [cmpOk, CMP.holds] using hge
      | gt => simpa [cmpOk, CMP.holds] using hle
      | le => simpa [cmpOk, CMP.holds] using hle

/-- Keys of different spaces are ordered as the numbers. -/
theorem lt_of_inSpace {p q : Nat} {s t : Bytes} (hq : q < 2 ^ 32) (h : p < q) :
    Bytes.be keyPrefixSize p ++ s < Bytes.be keyPrefixSize q ++ t := by
  refine ((Bytes.be_partsBelow ?_).append s t).lt
  rw [show 256 ^ keyPrefixSize = 2 ^ 32 from rfl, Nat.mod_eq_of_lt hq, Nat.mod_eq_of_lt (h.trans hq)]
  exact h

/-- A key of another space stands to a bound as its number does. -/
theorem cmpOk_other {q : Nat} {key : Bytes} (hp : p < 2 ^ 32) (hq : q < 2 ^ 32) (hne : q ≠ p)
    (hkey : InSpace q key) (pad : Bytes) (cmp : CMP) :
    cmpOk key cmp (keyOf p bound ++ pad) = cmp.holds (compare q p) := by
  obtain ⟨rest, rfl⟩ := hkey
  rw [keyOf, List.append_assoc]
  rcases lt_or_gt_of_ne hne with hlt | hgt
  · have h := lt_of_inSpace (s := rest) (t := encoded bound ++ pad) hp hlt
    rw [compare_lt_iff_lt.mpr hlt]
    cases cmp <;> simp [cmpOk, CMP.holds, h, h.le, h.not_gt, h.not_ge]
  · have h := lt_of_inSpace (s := encoded bound ++ pad) (t := rest) hq hgt
    rw [compare_gt_iff_gt.mpr hgt]
    cases cmp <;> simp [cmpOk, CMP.holds, h, h.le, h.not_gt, h.not_ge]

/-- **What lies between two keys of a space** is in the space. -/
theorem inSpace_of_between {p : Nat} {s t key : Bytes} (h1 : Bytes.be keyPrefixSize p ++ s ≤ key)
    (h2 : key ≤ Bytes.be keyPrefixSize p ++ t) : InSpace p key := by
  unfold InSpace
  generalize Bytes.be keyPrefixSize p = pre at h1 h2 ⊢
  induction pre generalizing key with
  | nil => exact List.nil_prefix
  | cons x pre ih =>
      cases key with
      | nil => exact absurd h1 (not_le.mpr (Bytes.nil_lt (by simp)))
      | cons y key =>
          rw [List.cons_append] at h1 h2
          rw [← not_lt] at h1 h2
          have hxy : x = y := by
            rcases lt_trichotomy x y with h | h | h
            · exact absurd (List.Lex.rel h) h2
            · exact h
            · exact absurd (List.Lex.rel h) h1
          rw [hxy, List.cons_prefix_cons]
          refine ⟨rfl, ih ?_ ?_⟩
          · exact not_lt.mp fun h => h1 (hxy ▸ List.Lex.cons h)
          · exact not_lt.mp fun h => h2 (hxy ▸ List.Lex.cons h)

end Bounds

/-! ## Bounds of a table -/

section Partial

variable {tdef : TableDef} {cols : List Bytes} {bound : List Value}

/-- A bound of the leading columns, as it is encoded. -/
theorem encodeKeyPartial_keyOf (hlen : tdef.cols.length = tdef.types.length)
    (hcols : ∀ col ∈ cols, col ∈ tdef.cols) (hplain : Plain (tdef.typesOf cols))
    (hbound : bound.map Value.type = (tdef.typesOf cols).take bound.length) (p : Nat) (cmp : CMP) :
    encodeKeyPartial p bound tdef cols cmp =
      .ok (keyOf p bound ++ if cmp ≠ .gt ∧ cmp ≠ .le then []
        else padding ((tdef.typesOf cols).drop bound.length)) := by
  have hvals : Plain (bound.map Value.type) := by
    rw [hbound]
    exact plain_take hplain _
  have hdrop : tdef.typesOf (cols.drop bound.length) = (tdef.typesOf cols).drop bound.length :=
    List.map_drop
  unfold encodeKeyPartial
  rw [encodeKey_eq p hvals, ok_bind]
  by_cases hcmp : cmp ≠ .gt ∧ cmp ≠ .le
  · rw [if_pos hcmp, if_pos hcmp, List.append_nil]
    rfl
  · rw [if_neg hcmp, if_neg hcmp, padColumns_eq hlen, hdrop]
    · rfl
    · exact fun col hcol => hcols col (List.mem_of_mem_drop hcol)
    · rw [hdrop]
      exact plain_drop hplain _

/-- **A bound compares like its columns.** A full row stands to the bound's key as its leading
columns do to the bound, and a row of another table as the number of that table. -/
theorem partial_bounds (hlen : tdef.cols.length = tdef.types.length) (hplain : Plain tdef.types)
    (hcols : ∀ col ∈ cols, col ∈ tdef.cols) {row : List Value}
    (hrow : row.map Value.type = tdef.typesOf cols)
    (hbound : bound.map Value.type = (tdef.typesOf cols).take bound.length) {p : Nat}
    (hp : p < 2 ^ 32) (cmp : CMP) :
    ∃ key ref, encodeKey p row = .ok key ∧ encodeKeyPartial p bound tdef cols cmp = .ok ref ∧
      cmpOk key cmp ref = cmp.holds (compareValues (row.take bound.length) bound) ∧
      ∀ q < 2 ^ 32, q ≠ p → ∀ values key', encodeKey q values = .ok key' →
        ∀ rel, cmpOk key' rel ref = rel.holds (compare q p) := by
  have hplain' := TableDef.plain_typesOf hplain hlen hcols
  have hvals : Plain (row.map Value.type) := by
    rw [hrow]
    exact hplain'
  refine ⟨_, _, encodeKey_eq p hvals, encodeKeyPartial_keyOf hlen hcols hplain' hbound p cmp, ?_, ?_⟩
  · refine cmpOk_keyOf ?_ hvals ?_
    · rw [List.map_take, hrow, hbound]
    · rw [hrow]
  · intro q hq hne values key' hkey rel
    have hspace : InSpace q key' := by
      have hends := encodeKey_ends q values
      rw [hkey] at hends
      exact hends.2 ▸ inSpace_keyOf q values
    exact cmpOk_other hp hq hne hspace _ rel

/-- People by their name and age. -/
def people : TableDef where
  name := .ofString "people"
  cols := [.ofString "name", .ofString "age"]
  types := [.bytes, .int64]
  pkeys := 2
  keyPrefix := 5

/-- The row `("a", 7)` is not after the bound `"a"`. -/
theorem partial_bounds_name : ∃ key ref,
    encodeKey 5 [.bytes [97], .int64 7] = .ok key ∧
    encodeKeyPartial 5 [.bytes [97]] people people.cols .le = .ok ref ∧
    cmpOk key .le ref =
      CMP.holds .le (compareValues ([Value.bytes [97], .int64 7].take 1) [.bytes [97]]) ∧
    ∀ q < 2 ^ 32, q ≠ 5 → ∀ values key', encodeKey q values = .ok key' →
      ∀ rel, cmpOk key' rel ref = rel.holds (compare q 5) :=
  partial_bounds rfl (by unfold Plain; decide) (fun _ h => h) (by decide) (by decide)
    (by decide) .le

end Partial

end SqlDb
