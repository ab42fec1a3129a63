import SqlDb.Encoding.TupleOrder
import SqlDb.Ql.Range

/-!
# What a filter pins down

A filter that holds of a row holds in each of the comparisons it ANDs together, and a
constant is the same in every row. So every bound that is collected is one the row
satisfies. Which of several bounds on a side was kept does not matter here: each of them is
one of the filter's own.
-/

namespace SqlDb

open Outcome Lex

/-- The comparisons a filter ANDs together that bound a column. -/
def QLNode.pins (tdef : TableDef) : QLNode → List Pin
  | .logic .and lhs rhs => lhs.pins tdef ++ rhs.pins tdef
  | .cmp type lhs rhs => (pin tdef type lhs rhs).toList
  | _ => []

/-- The row's value under the column is as the comparison says. -/
def Pin.Sat (p : Pin) (env : Record) : Prop :=
  ∃ v, env.get p.col = some v ∧ v.type = p.v.type ∧ p.op.holds (v.compare p.v) = true

/-! ## Evaluation -/

/-- **A constant is the same in every row.** -/
theorem qlEval_const {env : Record} :
    ∀ {node : QLNode} {v : Value}, qlEval node {} = .ok v → qlEval node env = .ok v
  | .int64 _, _, h => h
  | .str _, _, h => h
  | .sym _, _, h => by cases h
  | .neg kid, v, h => by
      rw [qlEval] at h ⊢
      obtain ⟨w, hw, h⟩ := bind_eq_ok.mp h
      rw [qlEval_const hw, ok_bind]
      exact h
  | .not kid, v, h => by
      rw [qlEval] at h ⊢
      obtain ⟨w, hw, h⟩ := bind_eq_ok.mp h
      rw [qlEval_const hw, ok_bind]
      exact h
  | .logic type lhs rhs, v, h => by
      rw [qlEval] at h ⊢
      obtain ⟨a, ha, h⟩ := bind_eq_ok.mp h
      obtain ⟨b, hb, h⟩ := bind_eq_ok.mp h
      rw [qlEval_const ha, ok_bind, qlEval_const hb, ok_bind]
      exact h
  | .cmp type lhs rhs, v, h => by
      rw [qlEval] at h ⊢
      obtain ⟨a, ha, h⟩ := bind_eq_ok.mp h
      obtain ⟨b, hb, h⟩ := bind_eq_ok.mp h
      rw [qlEval_const ha, ok_bind, qlEval_const hb, ok_bind]
      exact h
  | .arith type lhs rhs, v, h => by
      rw [qlEval] at h ⊢
      obtain ⟨a, ha, h⟩ := bind_eq_ok.mp h
      obtain ⟨b, hb, h⟩ := bind_eq_ok.mp h
      rw [qlEval_const ha, ok_bind, qlEval_const hb, ok_bind]
      exact h
  | .tup _, _, h => by cases h
  | .star, _, h => by cases h
  | .uninit, _, h => by cases h

theorem makeBool_true {b : Bool} {n : Int64} (h : makeBool b = .int64 n)
    (hn : n ≠ 0) : b = true := by
  cases b with
  | true => rfl
  | false => exact absurd (Value.int64.inj h).symm hn

/-- Both sides of an AND that holds hold. -/
theorem qlEval_and {lhs rhs : QLNode} {env : Record} {n : Int64}
    (h : qlEval (.logic .and lhs rhs) env = .ok (.int64 n)) (hn : n ≠ 0) :
    (∃ a, qlEval lhs env = .ok (.int64 a) ∧ a ≠ 0) ∧
      ∃ b, qlEval rhs env = .ok (.int64 b) ∧ b ≠ 0 := by
  rw [qlEval] at h
  obtain ⟨v, hv, h⟩ := bind_eq_ok.mp h
  obtain ⟨w, hw, h⟩ := bind_eq_ok.mp h
  obtain ⟨⟨a, b⟩, hab, h⟩ := bind_eq_ok.mp h
  have hboth := makeBool_true (Except.ok.inj h) hn
  rw [QLLogic.apply, Bool.and_eq_true, decide_eq_true_iff, decide_eq_true_iff] at hboth
  unfold numbers at hab
  split at hab
  · obtain ⟨rfl, rfl⟩ := Prod.mk.inj (Except.ok.inj hab)
    exact ⟨⟨_, hv, hboth.1⟩, ⟨_, hw, hboth.2⟩⟩
  · cases hab

/-- What a comparison that holds has compared. -/
theorem qlEval_cmp {type : QLCmp} {lhs rhs : QLNode} {env : Record} {n : Int64}
    (h : qlEval (.cmp type lhs rhs) env = .ok (.int64 n)) (hn : n ≠ 0) :
    ∃ a b, qlEval lhs env = .ok a ∧ qlEval rhs env = .ok b ∧ a.type = b.type ∧
      type.holds (a.compare b) = true := by
  rw [qlEval] at h
  obtain ⟨a, ha, h⟩ := bind_eq_ok.mp h
  obtain ⟨b, hb, h⟩ := bind_eq_ok.mp h
  obtain ⟨c, hc, h⟩ := bind_eq_ok.mp h
  have hholds := makeBool_true (Except.ok.inj h) hn
  unfold qlCompare at hc
  split at hc
  · cases hc
  · rename_i htype
    obtain rfl := Except.ok.inj hc
    exact ⟨a, b, ha, hb, not_not.mp htype, hholds⟩

theorem QLCmp.holds_flip (op : QLCmp) (c : Ordering) : op.flip.holds c.swap = op.holds c := by
  cases op <;> cases c <;> rfl

/-! ## Comparisons -/

theorem pinColumn_eq_some {tdef : TableDef} {op : QLCmp} {name : Bytes} {val : QLNode} {p : Pin}
    (h : pinColumn tdef op name val = some p) : p.op = op ∧ p.col = name ∧
      qlEval val {} = .ok p.v ∧ ∃ i, colIndex tdef name = some i ∧
        tdef.types[i]? = some p.v.type := by
  unfold pinColumn at h
  split at h
  · cases h
  · rename_i i hi
    split at h
    · cases h
    · rename_i v hv
      split at h
      · cases h
      · rename_i htype
        obtain rfl := Option.some.inj h
        exact ⟨rfl, rfl, hv, i, hi, not_not.mp htype⟩

/-- A comparison, read as one of a column with a constant. -/
theorem pin_eq_some {tdef : TableDef} {op : QLCmp} {lhs rhs : QLNode} {p : Pin}
    (h : pin tdef op lhs rhs = some p) : op.isComparison = true ∧
      (∃ i, colIndex tdef p.col = some i ∧ tdef.types[i]? = some p.v.type) ∧
      ((p.op = op ∧ lhs = .sym p.col ∧ qlEval rhs {} = .ok p.v) ∨
        (p.op = op.flip ∧ rhs = .sym p.col ∧ qlEval lhs {} = .ok p.v)) := by
  unfold pin at h
  split at h
  · cases h
  · rename_i hop
    refine ⟨by simpa using hop, ?_⟩
    split at h
    · obtain ⟨hpo, rfl, hconst, htype⟩ := pinColumn_eq_some h
      exact ⟨htype, Or.inl ⟨hpo, rfl, hconst⟩⟩
    · obtain ⟨hpo, rfl, hconst, htype⟩ := pinColumn_eq_some h
      exact ⟨htype, Or.inr ⟨hpo, rfl, hconst⟩⟩
    · cases h

theorem pin_sat {tdef : TableDef} {op : QLCmp} {lhs rhs : QLNode} {p : Pin}
    {env : Record} {n : Int64}
    (hp : pin tdef op lhs rhs = some p) (h : qlEval (.cmp op lhs rhs) env = .ok (.int64 n))
    (hn : n ≠ 0) : p.Sat env := by
  obtain ⟨hop, _, hside⟩ := pin_eq_some hp
  obtain ⟨a, b, ha, hb, htype, hholds⟩ := qlEval_cmp h hn
  have hsym : ∀ {v : Value}, qlEval (.sym p.col) env = .ok v → env.get p.col = some v := by
    intro v hv
    rw [qlEval] at hv
    split at hv
    · rename_i w hw
      rw [hw, Except.ok.inj hv]
    · cases hv
  rcases hside with ⟨hpo, rfl, hconst⟩ | ⟨hpo, rfl, hconst⟩
  · obtain rfl : p.v = b := Except.ok.inj ((qlEval_const hconst).symm.trans hb)
    exact ⟨a, hsym ha, htype, by rw [hpo]; exact hholds⟩
  · obtain rfl : p.v = a := Except.ok.inj ((qlEval_const hconst).symm.trans ha)
    refine ⟨b, hsym hb, htype.symm, ?_⟩
    rw [hpo, ← Value.compare_swap, QLCmp.holds_flip]
    exact hholds

/-- **A row that the filter keeps satisfies what it pins down.** -/
theorem pins_sat {tdef : TableDef} {env : Record} :
    ∀ {node : QLNode} {n : Int64}, qlEval node env = .ok (.int64 n) → n ≠ 0 →
      ∀ p ∈ node.pins tdef, p.Sat env := by
  intro node
  fun_induction QLNode.pins tdef node with
  | case1 lhs rhs ihl ihr =>
      intro n h hn p hp
      obtain ⟨⟨a, ha, hna⟩, b, hb, hnb⟩ := qlEval_and h hn
      exact (List.mem_append.mp hp).elim (ihl ha hna p) (ihr hb hnb p)
  | case2 type lhs rhs =>
      intro n h hn p hp
      exact pin_sat (Option.mem_toList.mp hp) h hn
  | case3 node _ _ =>
      intro n _ _ p hp
      exact absurd hp List.not_mem_nil

/-- A bound is of its column's type. -/
theorem pins_type {tdef : TableDef} {node : QLNode} {p : Pin} (hp : p ∈ node.pins tdef) :
    ∃ i, colIndex tdef p.col = some i ∧ tdef.types[i]? = some p.v.type := by
  fun_induction QLNode.pins tdef node with
  | case1 lhs rhs ihl ihr => exact (List.mem_append.mp hp).elim ihl ihr
  | case2 type lhs rhs => exact (pin_eq_some (Option.mem_toList.mp hp)).2.1
  | case3 node _ _ => exact absurd hp List.not_mem_nil

/-! ## Bounds -/

namespace Bounds

/-- A column's bounds, none if there is no entry. -/
def look (bounds : Bounds) (col : Bytes) : ColBound := (bounds.find col).getD {}

theorem find_cons (b : Bytes × ColBound) (bounds : Bounds) (col : Bytes) :
    find (b :: bounds) col = if b.1 = col then some b.2 else bounds.find col := by
  unfold find
  by_cases hb : b.1 = col
  · rw [List.find?_cons_of_pos (by simpa using hb), if_pos hb]
    rfl
  · rw [List.find?_cons_of_neg (by simpa using hb), if_neg hb]

theorem look_modify (bounds : Bounds) (c col : Bytes) (f : ColBound → ColBound) :
    (bounds.modify c f).look col = if c = col then f (bounds.look c) else bounds.look col := by
  induction bounds with
  | nil =>
      rw [modify, look, find_cons]
      split
      · rfl
      · rfl
  | cons b bounds ih =>
      unfold look at ih ⊢
      rw [modify]
      by_cases hb : b.1 = c
      · rw [if_pos hb, find_cons, find_cons, find_cons, if_pos hb]
        dsimp only
        rw [hb]
        split
        · rfl
        · rfl
      · rw [if_neg hb, find_cons, find_cons, find_cons, if_neg hb]
        by_cases hcol : b.1 = col
        · rw [if_pos hcol, if_neg fun hc : c = col => hb (hcol.trans hc.symm), if_pos hcol]
        · rw [if_neg hcol, if_neg hcol]
          exact ih

/-- An entry that says something is there. -/
theorem fetch_eq {bounds : Bounds} {col : Bytes} (h : bounds.look col ≠ {}) :
    bounds.fetch col = .ok (bounds.look col) := by
  unfold look at h
  unfold fetch look
  cases hf : bounds.find col with
  | none =>
      rw [hf] at h
      exact absurd rfl h
  | some b => rfl

end Bounds

/-- The operator of a lower bound, and of an upper one. -/
def loOp (b : ColBound) : QLCmp := if b.loOpen then .gt else .ge
def hiOp (b : ColBound) : QLCmp := if b.hiOpen then .lt else .le

/-- What is kept for a column: some bound of each kind that there is. -/
structure ColBound.Gathers (b : ColBound) (pins : List Pin) (col : Bytes) : Prop where
  eq : b.hasEq = true → ⟨.eq, col, b.eq⟩ ∈ pins
  lo : b.hasLo = true → ⟨loOp b, col, b.lo⟩ ∈ pins
  hi : b.hasHi = true → ⟨hiOp b, col, b.hi⟩ ∈ pins
  hasEq : ∀ p ∈ pins, p.col = col → p.op = .eq → b.hasEq = true
  hasLo : ∀ p ∈ pins, p.col = col → p.op = .gt ∨ p.op = .ge → b.hasLo = true
  hasHi : ∀ p ∈ pins, p.col = col → p.op = .lt ∨ p.op = .le → b.hasHi = true

theorem ColBound.gathers_empty (col : Bytes) : ColBound.Gathers {} [] col where
  eq h := by cases h
  lo h := by cases h
  hi h := by cases h
  hasEq _ hp := absurd hp List.not_mem_nil
  hasLo _ hp := absurd hp List.not_mem_nil
  hasHi _ hp := absurd hp List.not_mem_nil

/-- A comparison of another column says nothing here. -/
theorem ColBound.Gathers.other {b : ColBound} {pins : List Pin} {col : Bytes}
    (h : b.Gathers pins col) {p : Pin} (hp : p.col ≠ col) : b.Gathers (pins ++ [p]) col where
  eq he := List.mem_append_left _ (h.eq he)
  lo he := List.mem_append_left _ (h.lo he)
  hi he := List.mem_append_left _ (h.hi he)
  hasEq q hq hcol := by
    rcases List.mem_append.mp hq with hq | hq
    · exact h.hasEq q hq hcol
    · exact absurd (List.mem_singleton.mp hq ▸ hcol) hp
  hasLo q hq hcol := by
    rcases List.mem_append.mp hq with hq | hq
    · exact h.hasLo q hq hcol
    · exact absurd (List.mem_singleton.mp hq ▸ hcol) hp
  hasHi q hq hcol := by
    rcases List.mem_append.mp hq with hq | hq
    · exact h.hasHi q hq hcol
    · exact absurd (List.mem_singleton.mp hq ▸ hcol) hp

/-- A comparison that changes nothing was counted before. -/
theorem ColBound.Gathers.keep {b : ColBound} {pins : List Pin} {p : Pin} (h : b.Gathers pins p.col)
    (heq : p.op = .eq → b.hasEq = true) (hlo : p.op = .gt ∨ p.op = .ge → b.hasLo = true)
    (hhi : p.op = .lt ∨ p.op = .le → b.hasHi = true) : b.Gathers (pins ++ [p]) p.col where
  eq he := List.mem_append_left _ (h.eq he)
  lo he := List.mem_append_left _ (h.lo he)
  hi he := List.mem_append_left _ (h.hi he)
  hasEq q hq hcol hop := by
    rcases List.mem_append.mp hq with hq | hq
    · exact h.hasEq q hq hcol hop
    · exact heq (List.mem_singleton.mp hq ▸ hop)
  hasLo q hq hcol hop := by
    rcases List.mem_append.mp hq with hq | hq
    · exact h.hasLo q hq hcol hop
    · exact hlo (List.mem_singleton.mp hq ▸ hop)
  hasHi q hq hcol hop := by
    rcases List.mem_append.mp hq with hq | hq
    · exact h.hasHi q hq hcol hop
    · exact hhi (List.mem_singleton.mp hq ▸ hop)

section Add

variable {b : ColBound} {pins : List Pin} {col : Bytes} {v : Value}

theorem ColBound.Gathers.equal (h : b.Gathers pins col) :
    ColBound.Gathers { b with hasEq := true, eq := v } (pins ++ [⟨.eq, col, v⟩]) col := by
  obtain ⟨heq, hlo, hhi, hasEq, hasLo, hasHi⟩ := h
  constructor <;> grind [loOp, hiOp]

theorem ColBound.Gathers.lower {op : QLCmp} (h : b.Gathers pins col) (hop : op = .gt ∨ op = .ge) :
    ColBound.Gathers { b with hasLo := true, loOpen := op = .gt, lo := v }
      (pins ++ [⟨op, col, v⟩]) col := by
  obtain ⟨heq, hlo, hhi, hasEq, hasLo, hasHi⟩ := h
  rcases hop with rfl | rfl <;> constructor <;> grind [loOp, hiOp]

theorem ColBound.Gathers.upper {op : QLCmp} (h : b.Gathers pins col) (hop : op = .lt ∨ op = .le) :
    ColBound.Gathers { b with hasHi := true, hiOpen := op = .lt, hi := v }
      (pins ++ [⟨op, col, v⟩]) col := by
  obtain ⟨heq, hlo, hhi, hasEq, hasLo, hasHi⟩ := h
  rcases hop with rfl | rfl <;> constructor <;> grind [loOp, hiOp]

/-- **One more comparison.** Whether it is kept or an earlier one was better, some bound of its kind
is there. -/
theorem ColBound.Gathers.add {op : QLCmp} (h : b.Gathers pins col) :
    (b.add op v).Gathers (pins ++ [⟨op, col, v⟩]) col := by
  unfold ColBound.add
  cases op with
  | eq =>
      dsimp only
      split
      · exact h.equal
      · rename_i hb
        exact h.keep (fun _ => by simpa using hb) (fun hop => by simp at hop) fun hop => by simp at hop
  | gt =>
      dsimp only
      split
      · exact h.lower (Or.inl rfl)
      · rename_i hb
        exact h.keep (fun hop => nomatch hop) (fun _ => by simp_all) fun hop => by simp at hop
  | ge =>
      dsimp only
      split
      · exact h.lower (Or.inr rfl)
      · rename_i hb
        exact h.keep (fun hop => nomatch hop) (fun _ => by simp_all) fun hop => by simp at hop
  | lt =>
      dsimp only
      split
      · exact h.upper (Or.inl rfl)
      · rename_i hb
        exact h.keep (fun hop => nomatch hop) (fun hop => by simp at hop) fun _ => by simp_all
  | le =>
      dsimp only
      split
      · exact h.upper (Or.inr rfl)
      · rename_i hb
        exact h.keep (fun hop => nomatch hop) (fun hop => by simp at hop) fun _ => by simp_all
  | ne => exact h.keep (fun hop => nomatch hop) (fun hop => by simp at hop) fun hop => by simp at hop

end Add

/-- **What is collected** is what the filter pins down, column by column. -/
theorem collect_gathers {tdef : TableDef} (node : QLNode) :
    ∀ {out : Bounds} {pins : List Pin}, (∀ col, (out.look col).Gathers pins col) →
      ∀ col, ((collect tdef node out).look col).Gathers (pins ++ node.pins tdef) col := by
  fun_induction QLNode.pins tdef node with
  -- both sides of an `and` add their pins
  | case1 lhs rhs ihl ihr =>
      intro out pins h col
      rw [collect, ← List.append_assoc]
      exact ihr (ihl h) col
  | case2 type lhs rhs =>
      intro out pins h col
      rw [collect]
      cases hp : pin tdef type lhs rhs with
      | none => simpa using h col
      | some p =>
          dsimp only
          rw [addBound, Bounds.look_modify]
          by_cases hcol : p.col = col
          · subst hcol
            rw [if_pos rfl]
            exact (h _).add
          · rw [if_neg hcol]
            exact (h col).other hcol
  -- any other node pins nothing down
  | case3 node hand hcmp =>
      intro out pins h col
      rw [List.append_nil]
      cases node with
      | cmp type lhs rhs => exact absurd rfl (hcmp type lhs rhs)
      | logic type lhs rhs =>
          cases type with
          | and => exact absurd rfl (hand lhs rhs)
          | or => exact h col
      | _ => exact h col

end SqlDb
