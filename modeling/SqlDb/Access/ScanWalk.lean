import SqlDb.Access.Scanner

/-!
# What a scanner walks over

A scanner is at a position of the bindings, and what is left of its walk is the rest of
them on its way, up to the first that fails its second relation. In a sorted list that is
every binding between the two bounds.
-/

namespace SqlDb

open Outcome OrdMap

/-! ## The rest of the way -/

/-- The bindings from position `i` on, in the direction of the walk. -/
def remaining (forward : Bool) (m : Contents) (i : Nat) : Contents :=
  if forward then m.drop (i - 1) else (m.take i).reverse

/-- The position is one that a walk in this direction can be at. -/
def OnWay (forward : Bool) (m : Contents) (i : Nat) : Prop :=
  if forward then 1 ≤ i else i ≤ m.length

theorem head_remaining {forward : Bool} {m : Contents} {i : Nat} (h : OnWay forward m i) :
    (remaining forward m i).head? = bindingAt m i := by
  cases forward with
  | true =>
      have hi : 1 ≤ i := h
      show (m.drop (i - 1)).head? = _
      rw [List.head?_drop, bindingAt, if_neg (by omega)]
  | false =>
      have hi : i ≤ m.length := h
      show (m.take i).reverse.head? = _
      rw [List.head?_reverse, List.getLast?_take, bindingAt]
      by_cases h0 : i = 0
      · rw [if_pos h0, if_pos h0]
      · rw [if_neg h0, if_neg h0, List.getElem?_eq_getElem (by omega), Option.some_or]

/-- The move of a walk in this direction. -/
def onward (forward : Bool) : Move := if forward then .next else .prev

theorem tail_remaining {forward : Bool} {m : Contents} {i : Nat} (h : OnWay forward m i)
    (hne : remaining forward m i ≠ []) : OnWay forward m ((onward forward).apply m.length i) ∧
      remaining forward m ((onward forward).apply m.length i) = (remaining forward m i).tail := by
  cases forward with
  | true =>
      have hi : 1 ≤ i := h
      have hlt : i - 1 < m.length := by
        by_contra hge
        exact hne (List.drop_eq_nil_of_le (by omega))
      have happly : (onward true).apply m.length i = i + 1 := by
        show min (i + 1) (m.length + 1) = i + 1
        omega
      rw [happly]
      refine ⟨Nat.le_add_left 1 i, ?_⟩
      show m.drop (i + 1 - 1) = (m.drop (i - 1)).tail
      rw [List.tail_drop, show i + 1 - 1 = i - 1 + 1 by omega]
  | false =>
      have hi : i ≤ m.length := h
      have h0 : i ≠ 0 := by
        rintro rfl
        exact hne rfl
      show i - 1 ≤ m.length ∧ (m.take (i - 1)).reverse = (m.take i).reverse.tail
      refine ⟨by omega, ?_⟩
      rw [List.tail_reverse, List.dropLast_eq_take, List.take_take, List.length_take,
      Nat.min_eq_left hi, Nat.min_eq_left (Nat.sub_le i 1)]

/-! ## Between two bounds -/

/-- A list in the direction of a walk. -/
def directed {α : Type} (forward : Bool) (l : List α) : List α := if forward then l else l.reverse

/-- A relation says which side of the bound a key is on. -/
theorem cmpOk_eq (key : Bytes) (cmp : CMP) (ref : Bytes) : cmpOk key cmp ref =
    match cmp with
    | .ge => !decide (key < ref)
    | .gt => !decide (key ≤ ref)
    | .lt => decide (key < ref)
    | .le => decide (key ≤ ref) := by
  rw [Bool.eq_iff_iff]
  cases cmp <;> simp [cmpOk]

theorem onWay_seek (m : Contents) (key : Bytes) (cmp : CMP) :
    OnWay cmp.positive m (seekPos m key cmp) := by
  cases cmp with
  | ge => exact Nat.le_add_left 1 _
  | gt => exact Nat.le_add_left 1 _
  | lt => exact List.countP_le_length
  | le => exact List.countP_le_length

/-- A seek is at the first binding that satisfies its relation. -/
theorem remaining_seek {m : Contents} (hs : Sorted m) (key : Bytes) (cmp : CMP) :
    remaining cmp.positive m (seekPos m key cmp) =
      directed cmp.positive (m.filter fun r => cmpOk r.1 cmp key) := by
  cases cmp with
  | ge =>
      show m.drop (countLt m key + 1 - 1) = m.filter _
      rw [Nat.add_sub_cancel, countLt, (hs.front_lt key).drop_countP]
      refine List.filter_congr fun r _ => ?_
      rw [Bool.eq_iff_iff]
      simp [cmpOk]
  | gt =>
      show m.drop (countLe m key + 1 - 1) = m.filter _
      rw [Nat.add_sub_cancel, countLe, (hs.front_le key).drop_countP]
      refine List.filter_congr fun r _ => ?_
      rw [Bool.eq_iff_iff]
      simp [cmpOk]
  | lt =>
      show (m.take (countLt m key)).reverse = (m.filter _).reverse
      rw [countLt, (hs.front_lt key).take_countP]
      refine congrArg _ (List.filter_congr fun r _ => ?_)
      rw [Bool.eq_iff_iff]
      simp [cmpOk]
  | le =>
      show (m.take (countLe m key)).reverse = (m.filter _).reverse
      rw [countLe, (hs.front_le key).take_countP]
      refine congrArg _ (List.filter_congr fun r _ => ?_)
      rw [Bool.eq_iff_iff]
      simp [cmpOk]

/-- The second relation holds of a front of what is walked over. -/
theorem front_directed {m : Contents} (hs : Sorted m) {forward : Bool} {cmp : CMP}
    (hdir : cmp.positive = !forward) (key : Bytes) :
    Front (fun r => cmpOk r.1 cmp key) (directed forward m) := by
  have heq : (fun r : Bytes × Bytes => cmpOk r.1 cmp key) = _ := funext fun r => cmpOk_eq r.1 cmp key
  rw [heq]
  cases forward with
  | true =>
      cases cmp with
      | lt => exact hs.imp fun hab hok => by simpa using lt_trans hab (by simpa using hok)
      | le =>
          exact hs.imp fun hab hok => by
            simpa using le_of_lt (lt_of_lt_of_le hab (by simpa using hok))
      | ge => cases hdir
      | gt => cases hdir
  | false =>
      show Front _ m.reverse
      unfold Front
      rw [List.pairwise_reverse]
      refine hs.imp fun {a b} hab hok => ?_
      cases cmp with
      | ge => simpa using le_of_lt (lt_of_le_of_lt (by simpa using hok) hab)
      | gt => simpa using lt_trans (by simpa using hok) hab
      | lt => cases hdir
      | le => cases hdir

/-- **A walk from one bound to the other** goes over what is between them. -/
theorem walk_between {m : Contents} (hs : Sorted m) {cmp1 cmp2 : CMP}
    (hdir : cmp2.positive = !cmp1.positive) (key1 key2 : Bytes) :
    (remaining cmp1.positive m (seekPos m key1 cmp1)).takeWhile (fun r => cmpOk r.1 cmp2 key2) =
      directed cmp1.positive (m.filter fun r => cmpOk r.1 cmp1 key1 && cmpOk r.1 cmp2 key2) := by
  rw [remaining_seek hs, (front_directed (hs.filter _) hdir key2).takeWhile]
  unfold directed
  split
  · rw [List.filter_filter]
    exact List.filter_congr fun r _ => Bool.and_comm _ _
  · rw [List.filter_reverse, List.filter_filter]
    exact congrArg _ (List.filter_congr fun r _ => Bool.and_comm _ _)

/-! ## The scanner's calls -/

section Calls

variable {σ : Type} [PageManager σ] {g : Nat → Except Fault BNode} {t : BTree σ} {m : Contents}
  {sc : Scanner} {i : Nat}

/-- The scanner is at a position of the bindings, on its way. -/
structure ScansAt (t : BTree σ) (m : Contents) (sc : Scanner) (i : Nat) : Prop where
  pos : AtPos (PageManager.get t.pages) m sc.iter i
  ne : ∀ r ∈ m, r.1 ≠ []
  way : OnWay sc.cmp1.positive m i

/-- What is left of the scanner's range. -/
def Scanner.left (sc : Scanner) (m : Contents) (i : Nat) : Contents :=
  (remaining sc.cmp1.positive m i).takeWhile fun r => cmpOk r.1 sc.cmp2 sc.keyEnd

namespace ScansAt

theorem head (h : ScansAt t m sc i) :
    (sc.left m i).head? = (bindingAt m i).filter fun r => cmpOk r.1 sc.cmp2 sc.keyEnd := by
  rw [Scanner.left, List.head?_takeWhile, head_remaining h.way]

/-- A scanner is valid while there is something left. -/
theorem valid (h : ScansAt t m sc i) : sc.valid = .ok (sc.left m i).head?.isSome := by
  have hentry := h.pos.entry h.ne
  rw [h.head]
  unfold BIter.entry at hentry
  unfold Scanner.valid
  by_cases hv : sc.iter.valid = true
  · rw [if_pos hv] at hentry ⊢
    obtain ⟨r, hr, he⟩ := bind_eq_ok.mp hentry
    rw [hr, ok_bind, ← Except.ok.inj he, Option.filter_some]
    show Except.ok (cmpOk r.1 sc.cmp2 sc.keyEnd) = _
    cases cmpOk r.1 sc.cmp2 sc.keyEnd <;> rfl
  · rw [if_neg hv] at hentry ⊢
    rw [← Except.ok.inj hentry]
    rfl

/-- The binding at a valid scanner. -/
theorem deref (h : ScansAt t m sc i) {r : Bytes × Bytes} {rest : Contents}
    (hleft : sc.left m i = r :: rest) : sc.assertValid = .ok () ∧ sc.iter.deref = .ok r := by
  have hvalid := h.valid
  have hhead := h.head
  rw [hleft, List.head?_cons] at hvalid hhead
  refine ⟨by rw [Scanner.assertValid, hvalid]; rfl, ?_⟩
  have hentry := h.pos.entry h.ne
  rw [(Option.filter_eq_some_iff.mp hhead.symm).1] at hentry
  unfold BIter.entry at hentry
  by_cases hv : sc.iter.valid = true
  · rw [if_pos hv] at hentry
    obtain ⟨r', hr, he⟩ := bind_eq_ok.mp hentry
    rw [hr, Option.some.inj (Except.ok.inj he)]
  · rw [if_neg hv] at hentry
    cases hentry

/-- **A step** takes what the scanner is at off what is left. -/
theorem next (h : ScansAt t m sc i) {r : Bytes × Bytes} {rest : Contents}
    (hleft : sc.left m i = r :: rest) : ∃ iter i', sc.next t = .ok { sc with iter := iter } ∧
      ScansAt t m { sc with iter := iter } i' ∧
      ({ sc with iter := iter } : Scanner).left m i' = rest := by
  have hne : remaining sc.cmp1.positive m i ≠ [] := by
    intro hnil
    rw [Scanner.left, hnil] at hleft
    cases hleft
  obtain ⟨hway, htail⟩ := tail_remaining h.way hne
  obtain ⟨iter, hmove, hpos⟩ := h.pos.move (shows_get t.pages) (onward sc.cmp1.positive)
  refine ⟨iter, _, ?_, ⟨hpos, h.ne, hway⟩, ?_⟩
  · rw [Scanner.next, (h.deref hleft).1, ok_bind]
    unfold onward BIter.move at hmove
    cases hp : sc.cmp1.positive with
    | true =>
        rw [hp] at hmove
        rw [if_pos rfl]
        rw [show sc.iter.next t.pages = .ok iter from hmove]
        rfl
    | false =>
        rw [hp] at hmove
        rw [if_neg Bool.false_ne_true]
        rw [show sc.iter.prev t.pages = .ok iter from hmove]
        rfl
  · show ((remaining sc.cmp1.positive m _).takeWhile _) = rest
    unfold Scanner.left at hleft
    rw [htail]
    cases hrem : remaining sc.cmp1.positive m i with
    | nil => exact absurd hrem hne
    | cons x xs =>
        -- the first of them is the binding the scan is at
        rw [hrem, List.takeWhile_cons] at hleft
        split at hleft
        · exact (List.cons.inj hleft).2
        · cases hleft

end ScansAt

/-- What `deref` makes of a binding. -/
def readBinding (t : BTree σ) (tdef : TableDef) (indexNo : Option Nat) (r : Bytes × Bytes) :
    Except Fault Record :=
  match indexNo with
  | none => decodeRow tdef r.1 r.2
  | some i => fetchRow t tdef i r.1 r.2

theorem ScansAt.read (h : ScansAt t m sc i) {r : Bytes × Bytes} {rest : Contents}
    (hleft : sc.left m i = r :: rest) (tdef : TableDef) :
    sc.deref t tdef = readBinding t tdef sc.indexNo r := by
  obtain ⟨hassert, hderef⟩ := h.deref hleft
  unfold Scanner.deref readBinding
  cases sc.indexNo with
  | none =>
      dsimp only
      rw [Scanner.derefRow, hassert, ok_bind, hderef]
      rfl
  | some j =>
      dsimp only
      rw [hassert, ok_bind, hderef]
      rfl

/-- **The whole walk** reads every binding that is left, in order. -/
theorem ScansAt.collect {tdef : TableDef} {recs : List Record} {fuel : Nat} (h : ScansAt t m sc i)
    (hread : List.Forall₂ (fun r rec => readBinding t tdef sc.indexNo r = .ok rec) (sc.left m i) recs)
    (hfuel : recs.length ≤ fuel) : sc.collect t tdef fuel = .ok recs := by
  induction recs generalizing sc i fuel with
  | nil =>
      have hvalid := h.valid
      rw [List.forall₂_nil_right_iff.mp hread] at hvalid
      rw [Scanner.collect.eq_def]
      dsimp only
      rw [hvalid]
      rfl
  | cons rec recs ih =>
      obtain ⟨r, rest, hr, hrest, hleft⟩ := List.forall₂_cons_right_iff.mp hread
      obtain ⟨iter, i', hnext, hat, hrest'⟩ := h.next hleft
      cases fuel with
      | zero => simp at hfuel
      | succ fuel =>
          rw [← hrest'] at hrest
          have hrec := ih hat hrest (by simpa using hfuel)
          rw [Scanner.collect, h.valid, hleft, ok_bind, List.head?_cons,
            Option.isSome_some, if_pos rfl]
          rw [h.read hleft, hr, ok_bind, hnext, ok_bind, hrec]
          rfl

end Calls

end SqlDb
