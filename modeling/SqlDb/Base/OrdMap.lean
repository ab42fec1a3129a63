import Mathlib.Data.List.Pairwise
import Mathlib.Order.Basic
import Mathlib.Order.Lattice

/-!
# Finite maps as sorted association lists

The abstract value of an ordered store: bindings in strictly increasing key
order. `insert` and `erase` act on one binding, `lookup` finds it, and the
splitting rules say that an operation whose key falls inside a middle segment
touches that segment only. The last are what a search tree's proof lives on:
a subtree is a segment of its tree's bindings.
-/

namespace OrdMap

variable {α β : Type} [LinearOrder α]

/-- Strictly increasing in key. -/
def Sorted (m : List (α × β)) : Prop := m.Pairwise fun a b => a.1 < b.1

/-- Every key of `m` is below `k`. -/
def Below (m : List (α × β)) (k : α) : Prop := ∀ r ∈ m, r.1 < k

/-- Every key of `m` is above `k`. -/
def Above (m : List (α × β)) (k : α) : Prop := ∀ r ∈ m, k < r.1

/-- The value bound to `k`, if any. -/
def lookup (m : List (α × β)) (k : α) : Option β :=
  (m.find? fun r => decide (r.1 = k)).map Prod.snd

/-- `m` with `k` bound to `v`. -/
def insert (m : List (α × β)) (k : α) (v : β) : List (α × β) :=
  m.filter (fun r => decide (r.1 < k)) ++ (k, v) :: m.filter (fun r => decide (k < r.1))

/-- `m` without a binding of `k`. -/
def erase (m : List (α × β)) (k : α) : List (α × β) := m.filter fun r => decide (r.1 ≠ k)

@[simp] theorem sorted_nil : Sorted ([] : List (α × β)) := List.Pairwise.nil

@[simp] theorem sorted_singleton (r : α × β) : Sorted [r] := List.pairwise_singleton _ _

theorem sorted_cons {r : α × β} {m : List (α × β)} :
    Sorted (r :: m) ↔ Above m r.1 ∧ Sorted m := List.pairwise_cons

theorem sorted_append {m n : List (α × β)} :
    Sorted (m ++ n) ↔ Sorted m ∧ Sorted n ∧ ∀ a ∈ m, ∀ b ∈ n, a.1 < b.1 :=
  List.pairwise_append

/-- Sorting by key is a property of the keys. -/
theorem sorted_iff_map {m : List (α × β)} :
    Sorted m ↔ (m.map Prod.fst).Pairwise (· < ·) := by
  rw [List.pairwise_map]; rfl

theorem Sorted.filter {m : List (α × β)} (p : α × β → Bool) (h : Sorted m) :
    Sorted (m.filter p) := List.Pairwise.filter p h

theorem Sorted.sublist {m n : List (α × β)} (h : Sorted n) (hs : m.Sublist n) : Sorted m :=
  List.Pairwise.sublist hs h

/-- A sorted list binds a key once. -/
theorem Sorted.eq_of_key {m : List (α × β)} (h : Sorted m) {a b : α × β} (ha : a ∈ m)
    (hb : b ∈ m) (hk : a.1 = b.1) : a = b := by
  induction m with
  | nil => cases ha
  | cons r m ih =>
      obtain ⟨hab, hm⟩ := sorted_cons.mp h
      rcases List.mem_cons.mp ha with rfl | ha'
      · rcases List.mem_cons.mp hb with rfl | hb'
        · rfl
        · exact absurd hk (ne_of_lt (hab b hb'))
      · rcases List.mem_cons.mp hb with rfl | hb'
        · exact absurd hk.symm (ne_of_lt (hab a ha'))
        · exact ih hm ha' hb'

/-! ## Membership -/

theorem mem_insert {m : List (α × β)} {k : α} {v : β} {r : α × β} :
    r ∈ insert m k v ↔ r = (k, v) ∨ (r ∈ m ∧ r.1 ≠ k) := by
  simp only [insert, List.mem_append, List.mem_filter, List.mem_cons, decide_eq_true_eq]
  constructor
  · rintro (⟨h, hlt⟩ | h | ⟨h, hlt⟩)
    · exact Or.inr ⟨h, ne_of_lt hlt⟩
    · exact Or.inl h
    · exact Or.inr ⟨h, ne_of_gt hlt⟩
  · rintro (h | ⟨h, hne⟩)
    · exact Or.inr (Or.inl h)
    · rcases lt_or_gt_of_ne hne with hlt | hgt
      · exact Or.inl ⟨h, hlt⟩
      · exact Or.inr (Or.inr ⟨h, hgt⟩)

/-- The keys of an insertion are a matter of the keys. -/
theorem keys_insert {m n : List (α × β)} {k : α} {v w : β}
    (h : n.map Prod.fst = m.map Prod.fst) :
    (insert n k w).map Prod.fst = (insert m k v).map Prod.fst := by
  have hkeys : ∀ (l : List (α × β)) (x : β), (insert l k x).map Prod.fst =
      (l.map Prod.fst).filter (fun a => decide (a < k)) ++
        k :: (l.map Prod.fst).filter (fun a => decide (k < a)) := by
    intro l x
    rw [insert, List.map_append, List.map_cons, List.filter_map, List.filter_map]
    rfl
  rw [hkeys, hkeys, h]

theorem mem_erase {m : List (α × β)} {k : α} {r : α × β} :
    r ∈ erase m k ↔ r ∈ m ∧ r.1 ≠ k := by
  simp [erase, List.mem_filter]

theorem erase_of_not_mem {m : List (α × β)} {k : α} (h : ∀ r ∈ m, r.1 ≠ k) : erase m k = m := by
  rw [erase, List.filter_eq_self]
  exact fun r hr => decide_eq_true (h r hr)

/-! ## The operations keep the order -/

theorem Sorted.insert {m : List (α × β)} (h : Sorted m) (k : α) (v : β) :
    Sorted (insert m k v) := by
  refine sorted_append.mpr ⟨h.filter _, sorted_cons.mpr ⟨?_, h.filter _⟩, ?_⟩
  · intro r hr
    simpa using (List.mem_filter.mp hr).2
  · intro a ha b hb
    have hak : a.1 < k := by simpa using (List.mem_filter.mp ha).2
    rcases List.mem_cons.mp hb with rfl | hb'
    · exact hak
    · have hkb : k < b.1 := by simpa using (List.mem_filter.mp hb').2
      exact lt_trans hak hkb

theorem Sorted.erase {m : List (α × β)} (h : Sorted m) (k : α) : Sorted (erase m k) := h.filter _

/-! ## Lookup -/

theorem lookup_mem {m : List (α × β)} {k : α} {v : β} (h : lookup m k = some v) :
    (k, v) ∈ m := by
  obtain ⟨r, hr, hv⟩ := Option.map_eq_some_iff.mp h
  have hk : r.1 = k := by simpa using List.find?_some hr
  have hmem := List.mem_of_find?_eq_some hr
  rw [← hk, ← hv]
  exact hmem

theorem lookup_eq_some {m : List (α × β)} (hm : Sorted m) {k : α} {v : β} :
    lookup m k = some v ↔ (k, v) ∈ m := by
  refine ⟨lookup_mem, fun h => ?_⟩
  cases hf : m.find? (fun r => decide (r.1 = k)) with
  | none =>
      have := List.find?_eq_none.mp hf (k, v) h
      simp at this
  | some r =>
      have hk : r.1 = k := by simpa using List.find?_some hf
      have hr : r = (k, v) := hm.eq_of_key (List.mem_of_find?_eq_some hf) h hk
      rw [lookup, hf, hr]; rfl

theorem lookup_eq_none {m : List (α × β)} {k : α} :
    lookup m k = none ↔ ∀ r ∈ m, r.1 ≠ k := by
  rw [lookup, Option.map_eq_none_iff, List.find?_eq_none]
  simp

/-- Two sorted lists with the same members bind the same keys to the same values. -/
theorem lookup_congr {m n : List (α × β)} (hm : Sorted m) (hn : Sorted n) {k : α}
    (h : ∀ v, (k, v) ∈ m ↔ (k, v) ∈ n) : lookup m k = lookup n k := by
  refine Option.ext fun v => ?_
  rw [lookup_eq_some hm, lookup_eq_some hn]
  exact h v

theorem lookup_insert_self {m : List (α × β)} (hm : Sorted m) (k : α) (v : β) :
    lookup (insert m k v) k = some v :=
  (lookup_eq_some (hm.insert k v)).mpr (mem_insert.mpr (Or.inl rfl))

theorem lookup_insert_of_ne {m : List (α × β)} (hm : Sorted m) {k k' : α} (v : β)
    (hk : k' ≠ k) : lookup (insert m k v) k' = lookup m k' := by
  refine lookup_congr (hm.insert k v) hm fun w => ?_
  rw [mem_insert]
  constructor
  · rintro (h | ⟨h, _⟩)
    · exact absurd (congrArg Prod.fst h) hk
    · exact h
  · intro h; exact Or.inr ⟨h, hk⟩

theorem lookup_erase_self (m : List (α × β)) (k : α) : lookup (erase m k) k = none :=
  lookup_eq_none.mpr fun _ hr => (mem_erase.mp hr).2

theorem lookup_erase_of_ne {m : List (α × β)} (hm : Sorted m) {k k' : α} (hk : k' ≠ k) :
    lookup (erase m k) k' = lookup m k' := by
  refine lookup_congr (hm.erase k) hm fun w => ?_
  rw [mem_erase]
  exact ⟨fun h => h.1, fun h => ⟨h, hk⟩⟩

/-! ## An operation inside a segment -/

theorem Below.filter_lt {m : List (α × β)} {k : α} (h : Below m k) :
    m.filter (fun r => decide (r.1 < k)) = m :=
  List.filter_eq_self.mpr fun r hr => decide_eq_true (h r hr)

theorem Below.filter_gt {m : List (α × β)} {k : α} (h : Below m k) :
    m.filter (fun r => decide (k < r.1)) = [] := by
  rw [List.filter_eq_nil_iff]
  intro r hr
  simpa using le_of_lt (h r hr)

theorem Above.filter_lt {m : List (α × β)} {k : α} (h : Above m k) :
    m.filter (fun r => decide (r.1 < k)) = [] := by
  rw [List.filter_eq_nil_iff]
  intro r hr
  simpa using le_of_lt (h r hr)

theorem Above.filter_gt {m : List (α × β)} {k : α} (h : Above m k) :
    m.filter (fun r => decide (k < r.1)) = m :=
  List.filter_eq_self.mpr fun r hr => decide_eq_true (h r hr)

/-- **Inserting between what is below and what is above.** -/
theorem insert_segment {a m b : List (α × β)} {k : α} (v : β) (ha : Below a k) (hb : Above b k) :
    insert (a ++ m ++ b) k v = a ++ insert m k v ++ b := by
  simp only [insert, List.filter_append, ha.filter_lt, ha.filter_gt, hb.filter_lt, hb.filter_gt,
    List.append_nil, List.nil_append, List.append_assoc, List.cons_append]

/-- **Erasing between what is below and what is above.** -/
theorem erase_segment {a m b : List (α × β)} {k : α} (ha : Below a k) (hb : Above b k) :
    erase (a ++ m ++ b) k = a ++ erase m k ++ b := by
  have ha' : erase a k = a := erase_of_not_mem fun r hr => ne_of_lt (ha r hr)
  have hb' : erase b k = b := erase_of_not_mem fun r hr => ne_of_gt (hb r hr)
  simp only [erase] at ha' hb' ⊢
  rw [List.filter_append, List.filter_append, ha', hb']

theorem insert_nil (k : α) (v : β) : insert [] k v = [(k, v)] := rfl

theorem insert_singleton_self (k : α) (w v : β) : insert [(k, w)] k v = [(k, v)] := by
  simp [insert]

theorem erase_singleton_self (k : α) (w : β) : erase [(k, w)] k = [] := by simp [erase]

/-- **Looking up between what is below and what is above.** -/
theorem lookup_segment {a m b : List (α × β)} {k : α} (ha : Below a k) (hb : Above b k) :
    lookup (a ++ m ++ b) k = lookup m k := by
  have ha' : a.find? (fun r => decide (r.1 = k)) = none := by
    rw [List.find?_eq_none]; intro r hr; simpa using ne_of_lt (ha r hr)
  have hb' : b.find? (fun r => decide (r.1 = k)) = none := by
    rw [List.find?_eq_none]; intro r hr; simpa using ne_of_gt (hb r hr)
  rw [lookup, lookup, List.find?_append, List.find?_append, ha', hb', Option.none_or, Option.or_none]

theorem lookup_singleton_self (k : α) (v : β) : lookup [(k, v)] k = some v := by simp [lookup]

/-! ## Ranks -/

/-- How many keys are below `k`. -/
def countLt (m : List (α × β)) (k : α) : Nat := m.countP fun r => decide (r.1 < k)

/-- How many keys are at or below `k`. -/
def countLe (m : List (α × β)) (k : α) : Nat := m.countP fun r => decide (r.1 ≤ k)

/-- The rank of a key between two neighbours, the lower at or below it. -/
theorem countLe_segment {a b : List (α × β)} {r : α × β} {k : α}
    (hs : Sorted (a ++ r :: b)) (hr : r.1 ≤ k) (hb : Above b k) :
    countLe (a ++ r :: b) k = a.length + 1 := by
  obtain ⟨_, _, hlt⟩ := sorted_append.mp hs
  have ha : a.countP (fun r => decide (r.1 ≤ k)) = a.length := by
    rw [List.countP_eq_length]
    intro x hx
    exact decide_eq_true (le_of_lt (lt_of_lt_of_le (hlt x hx r (by simp)) hr))
  have hb' : b.countP (fun r => decide (r.1 ≤ k)) = 0 := by
    rw [List.countP_eq_zero]
    intro x hx
    simpa using hb x hx
  rw [countLe, List.countP_append, List.countP_cons, ha, hb', decide_eq_true hr]
  simp

/-- The same, counting below the key only: the lower neighbour counts unless it is the key. -/
theorem countLt_segment {a b : List (α × β)} {r : α × β} {k : α}
    (hs : Sorted (a ++ r :: b)) (hr : r.1 ≤ k) (hb : Above b k) :
    countLt (a ++ r :: b) k = if r.1 = k then a.length else a.length + 1 := by
  obtain ⟨_, _, hlt⟩ := sorted_append.mp hs
  have ha : a.countP (fun r => decide (r.1 < k)) = a.length := by
    rw [List.countP_eq_length]
    intro x hx
    exact decide_eq_true (lt_of_lt_of_le (hlt x hx r (by simp)) hr)
  have hb' : b.countP (fun r => decide (r.1 < k)) = 0 := by
    rw [List.countP_eq_zero]
    intro x hx
    simpa using le_of_lt (hb x hx)
  rw [countLt, List.countP_append, List.countP_cons, ha, hb']
  by_cases heq : r.1 = k
  · simp [heq]
  · simp [heq, lt_of_le_of_ne hr heq]

/-! ## Ranges -/

/-- `p` holds of a front of the list, and of nothing after it. -/
def Front {γ : Type} (p : γ → Bool) (l : List γ) : Prop := l.Pairwise fun a b => p b = true → p a = true

namespace Front

variable {γ : Type} {p : γ → Bool} {l : List γ}

theorem filter_eq_nil {a : γ} (h : Front p (a :: l)) (ha : ¬ p a = true) : l.filter p = [] := by
  rw [List.filter_eq_nil_iff]
  exact fun b hb hp => ha ((List.pairwise_cons.mp h).1 b hb hp)

theorem take_countP (h : Front p l) : l.take (l.countP p) = l.filter p := by
  induction l with
  | nil => rfl
  | cons a l ih =>
      have hl : Front p l := (List.pairwise_cons.mp h).2
      by_cases ha : p a = true
      · rw [List.countP_cons_of_pos ha, List.take_succ_cons, ih hl, List.filter_cons_of_pos ha]
      · rw [List.countP_cons_of_neg ha, List.filter_cons_of_neg ha, h.filter_eq_nil ha,
          List.countP_eq_length_filter, h.filter_eq_nil ha]
        rfl

theorem drop_countP (h : Front p l) : l.drop (l.countP p) = l.filter fun x => !p x := by
  induction l with
  | nil => rfl
  | cons a l ih =>
      have hl : Front p l := (List.pairwise_cons.mp h).2
      by_cases ha : p a = true
      · rw [List.countP_cons_of_pos ha, List.drop_succ_cons, ih hl,
          List.filter_cons_of_neg (by simp [ha])]
      · rw [List.countP_cons_of_neg ha, List.filter_cons_of_pos (by simp [ha]), ← ih hl,
          List.countP_eq_length_filter, h.filter_eq_nil ha]
        rfl

theorem takeWhile (h : Front p l) : l.takeWhile p = l.filter p := by
  induction l with
  | nil => rfl
  | cons a l ih =>
      have hl : Front p l := (List.pairwise_cons.mp h).2
      by_cases ha : p a = true
      · rw [List.takeWhile_cons_of_pos ha, ih hl, List.filter_cons_of_pos ha]
      · rw [List.takeWhile_cons_of_neg ha, List.filter_cons_of_neg ha, h.filter_eq_nil ha]

end Front

theorem Sorted.front_lt {m : List (α × β)} (h : Sorted m) (k : α) :
    Front (fun r => decide (r.1 < k)) m :=
  h.imp fun hab hb => decide_eq_true (lt_trans hab (of_decide_eq_true hb))

theorem Sorted.front_le {m : List (α × β)} (h : Sorted m) (k : α) :
    Front (fun r => decide (r.1 ≤ k)) m :=
  h.imp fun hab hb => decide_eq_true (le_of_lt (lt_of_lt_of_le hab (of_decide_eq_true hb)))

end OrdMap
