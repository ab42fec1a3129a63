import Mathlib.Data.List.TakeWhile
import SqlDb.Access.ScanProof
import SqlDb.Base.FirstMax
import SqlDb.Ql.Pins

/-!
# The range that is planned

How much of an index a filter pins down is a matter of the filter alone, and the index with
the best score is the first of them with it, the primary key before all others. The keys of
the range are made of comparisons that the filter has, so a row that the filter keeps is in
the range, whichever index is scanned for it.

Which index that is, the scan finds out again from the columns of the first key alone.
-/

namespace SqlDb

open Outcome OrdMap

/-! ## How well an index fits -/

section Fits

variable (pins : List Pin)

/-- The column is compared for equality. -/
def fixedBy (col : Bytes) : Bool := pins.any fun p => p.col = col ∧ p.op = .eq

/-- The column is bounded from below. -/
def lowerBy (col : Bytes) : Bool := pins.any fun p => p.col = col ∧ (p.op = .gt ∨ p.op = .ge)

/-- The column is bounded from above. -/
def upperBy (col : Bytes) : Bool := pins.any fun p => p.col = col ∧ (p.op = .lt ∨ p.op = .le)

/-- The number of leading columns that are fixed. -/
def fixedRun (cols : List Bytes) : Nat := (cols.takeWhile (fixedBy pins)).length

/-- Twice that, and one more if the next column is bounded. -/
def fitScore (cols : List Bytes) : Nat :=
  fixedRun pins cols * 2 +
    if cols[fixedRun pins cols]?.any (fun col => lowerBy pins col || upperBy pins col) then 1 else 0

/-- The tree that fits best: the first with the best score, the primary key coming first. -/
def Chosen (tdef : TableDef) (cols : List Bytes) : Prop :=
  FirstMax (fitScore pins) (tdef.keyCols :: tdef.indexes) cols

end Fits

section Bounds

variable {pins : List Pin} {bounds : Bounds} {col : Bytes} {b : ColBound}

theorem ColBound.Gathers.hasEq_iff (h : b.Gathers pins col) : b.hasEq = fixedBy pins col := by
  rw [Bool.eq_iff_iff, fixedBy, List.any_eq_true]
  constructor
  · intro he
    exact ⟨_, h.eq he, by simp⟩
  · intro hex
    obtain ⟨p, hp, hop⟩ := hex
    obtain ⟨hcol, hop⟩ := of_decide_eq_true hop
    exact h.hasEq p hp hcol hop

theorem ColBound.Gathers.hasLo_iff (h : b.Gathers pins col) : b.hasLo = lowerBy pins col := by
  rw [Bool.eq_iff_iff, lowerBy, List.any_eq_true]
  constructor
  · intro he
    refine ⟨_, h.lo he, ?_⟩
    unfold loOp
    cases b.loOpen <;> simp
  · intro hex
    obtain ⟨p, hp, hop⟩ := hex
    obtain ⟨hcol, hop⟩ := of_decide_eq_true hop
    exact h.hasLo p hp hcol hop

theorem ColBound.Gathers.hasHi_iff (h : b.Gathers pins col) : b.hasHi = upperBy pins col := by
  rw [Bool.eq_iff_iff, upperBy, List.any_eq_true]
  constructor
  · intro he
    refine ⟨_, h.hi he, ?_⟩
    unfold hiOp
    cases b.hiOpen <;> simp
  · intro hex
    obtain ⟨p, hp, hop⟩ := hex
    obtain ⟨hcol, hop⟩ := of_decide_eq_true hop
    exact h.hasHi p hp hcol hop

theorem fixedRun_cons (pins : List Pin) (col : Bytes) (cols : List Bytes) :
    fixedRun pins (col :: cols) = if fixedBy pins col then fixedRun pins cols + 1 else 0 := by
  unfold fixedRun
  rw [List.takeWhile_cons]
  cases fixedBy pins col with
  | true => rfl
  | false => rfl

/-- **The fit of an index** says what the filter pins down of it. -/
theorem fitCols_eq (h : ∀ col, (bounds.look col).Gathers pins col) (cols : List Bytes) :
    fitCols bounds cols = ⟨fixedRun pins cols,
      cols[fixedRun pins cols]?.any fun col => lowerBy pins col || upperBy pins col⟩ := by
  induction cols with
  | nil => rfl
  | cons col cols ih =>
      have hcol := h col
      have heq := hcol.hasEq_iff
      have hlo := hcol.hasLo_iff
      have hhi := hcol.hasHi_iff
      unfold Bounds.look at heq hlo hhi
      rw [fixedRun_cons, fitCols]
      cases hf : bounds.find col with
      | none =>
          rw [hf] at heq hlo hhi
          dsimp only [Option.getD_none] at heq hlo hhi
          simp [← heq, ← hlo, ← hhi]
      | some b =>
          rw [hf] at heq hlo hhi
          dsimp only [Option.getD_some] at heq hlo hhi
          dsimp only
          rw [← heq, ih]
          cases b.hasEq with
          | true => simp
          | false => simp [hlo, hhi]

theorem fitCols_score (h : ∀ col, (bounds.look col).Gathers pins col) (cols : List Bytes) :
    (fitCols bounds cols).score = fitScore pins cols := by
  rw [fitCols_eq h]
  rfl

/-- Once it is an index, it stays one. -/
theorem bestFitLoop_isPk {indexes : List (List Bytes)} {best : BestFit} (hpk : best.isPk = false) :
    (bestFitLoop bounds indexes best).isPk = false := by
  induction indexes generalizing best with
  | nil => exact hpk
  | cons index indexes ih =>
      rw [bestFitLoop]
      split
      · exact ih rfl
      · exact ih hpk

/-- **The loop ends with the index that fits best.** -/
theorem bestFitLoop_spec (h : ∀ col, (bounds.look col).Gathers pins col)
    {indexes : List (List Bytes)} {best : BestFit} (hfit : best.fit = fitCols bounds best.cols) :
    FirstMax (fitScore pins) (best.cols :: indexes) (bestFitLoop bounds indexes best).cols ∧
      (bestFitLoop bounds indexes best).fit = fitCols bounds (bestFitLoop bounds indexes best).cols ∧
      ((bestFitLoop bounds indexes best).isPk = true →
        (bestFitLoop bounds indexes best).cols = best.cols) := by
  induction indexes generalizing best with
  | nil => exact ⟨.singleton _ _, hfit, fun _ => rfl⟩
  | cons index indexes ih =>
      rw [bestFitLoop, hfit, fitCols_score h, fitCols_score h]
      by_cases hgt : fitScore pins index > fitScore pins best.cols
      · rw [if_pos hgt]
        obtain ⟨hmax, hfit', _⟩ := ih (show BestFit.fit ⟨index, fitCols bounds index, false⟩ = _ from rfl)
        refine ⟨hmax.worse (lt_of_lt_of_le hgt (hmax.le List.mem_cons_self)), hfit', fun hpk => ?_⟩
        exact absurd ((bestFitLoop_isPk rfl).symm.trans hpk) Bool.false_ne_true
      · rw [if_neg hgt]
        obtain ⟨hmax, hfit', hpk⟩ := ih hfit
        exact ⟨hmax.skip (not_lt.mp hgt), hfit', hpk⟩

end Bounds

/-! ## The keys -/

/-- The operator of a bound with this relation. -/
def CMP.ql : CMP → QLCmp
  | .ge => .ge
  | .gt => .gt
  | .lt => .lt
  | .le => .le

/-- What one key has after the fixed columns: nothing, or a column with one of the filter's bounds
for it. -/
inductive KeyEnd (pins : List Pin) (strict weak : CMP) : List (Bytes × Value) → CMP → Prop where
  | none : KeyEnd pins strict weak [] weak
  | bound {cmp : CMP} {col : Bytes} {v : Value} : cmp = strict ∨ cmp = weak →
      ⟨cmp.ql, col, v⟩ ∈ pins → KeyEnd pins strict weak [(col, v)] cmp

/-- A range made of the filter's own comparisons: the fixed columns, and an end for each key. -/
structure QLRange.From (range : QLRange) (pins : List Pin) (cells lo hi : List (Bytes × Value)) :
    Prop where
  key1 : range.key1.cells = cells ++ lo
  key2 : range.key2.cells = cells ++ hi
  eqs : ∀ c ∈ cells, ⟨.eq, c.1, c.2⟩ ∈ pins
  lo : KeyEnd pins .gt .ge lo range.cmp1
  hi : KeyEnd pins .lt .le hi range.cmp2

/-- The end is on the column after the fixed ones, if that is bounded on this side. -/
def EndsAt (pins : List Pin) (cols : List Bytes) (bounded : Bytes → Bool)
    (cells : List (Bytes × Value)) : Prop :=
  match cols[fixedRun pins cols]? with
  | none => cells = []
  | some col => cells.map Prod.fst = if bounded col then [col] else []

theorem QLRange.from_empty (pins : List Pin) : QLRange.From {} pins [] [] [] :=
  ⟨rfl, rfl, fun _ hc => absurd hc List.not_mem_nil, .none, .none⟩

section Keys

variable {pins : List Pin} {bounds : Bounds}

theorem eqCells_eq (h : ∀ col, (bounds.look col).Gathers pins col) (cols : List Bytes)
    (hfixed : ∀ col ∈ cols, fixedBy pins col = true) :
    eqCells bounds cols = .ok (cols.map fun col => (col, (bounds.look col).eq)) := by
  induction cols with
  | nil => rfl
  | cons col cols ih =>
      obtain ⟨hcol, hcols⟩ := List.forall_mem_cons.mp hfixed
      rw [← (h col).hasEq_iff] at hcol
      have hne : bounds.look col ≠ {} := fun he => by
        rw [he] at hcol
        exact absurd hcol Bool.false_ne_true
      rw [eqCells, Bounds.fetch_eq hne, ok_bind, ih hcols]
      rfl

theorem mem_takeFixed {cols : List Bytes} {col : Bytes} (h : col ∈ cols.take (fixedRun pins cols)) :
    fixedBy pins col = true := by
  rw [fixedRun, ← List.prefix_iff_eq_take.mp (List.takeWhile_prefix _)] at h
  exact List.mem_takeWhile_imp h

theorem rangeEnds_from {col : Bytes} {cells : List (Bytes × Value)} {b : ColBound}
    (hb : b.Gathers pins col) (heqs : ∀ c ∈ cells, ⟨.eq, c.1, c.2⟩ ∈ pins) :
    ∃ lo hi, (rangeEnds { key1 := ⟨cells⟩, key2 := ⟨cells⟩ } col b).From pins cells lo hi ∧
      lo.map Prod.fst = (if b.hasLo then [col] else []) ∧
      hi.map Prod.fst = if b.hasHi then [col] else [] := by
  have hlo : b.hasLo = true → KeyEnd pins .gt .ge [(col, b.lo)]
    (if b.loOpen then .gt else .ge) := by
    intro h
    have hmem := hb.lo h
    unfold loOp at hmem
    cases hopen : b.loOpen <;> rw [hopen] at hmem
    · exact .bound (Or.inr rfl) hmem
    · exact .bound (Or.inl rfl) hmem
  have hhi : b.hasHi = true → KeyEnd pins .lt .le [(col, b.hi)]
    (if b.hiOpen then .lt else .le) := by
    intro h
    have hmem := hb.hi h
    unfold hiOp at hmem
    cases hopen : b.hiOpen <;> rw [hopen] at hmem
    · exact .bound (Or.inr rfl) hmem
    · exact .bound (Or.inl rfl) hmem
  have hnil : cells = cells ++ [] := (List.append_nil cells).symm
  unfold rangeEnds
  cases h1 : b.hasLo <;> cases h2 : b.hasHi
  · exact ⟨[], [], ⟨hnil, hnil, heqs, .none, .none⟩, rfl, rfl⟩
  · exact ⟨[], [(col, b.hi)], ⟨hnil, rfl, heqs, .none, hhi h2⟩, rfl, rfl⟩
  · exact ⟨[(col, b.lo)], [], ⟨rfl, hnil, heqs, hlo h1, .none⟩, rfl, rfl⟩
  · exact ⟨[(col, b.lo)], [(col, b.hi)], ⟨rfl, rfl, heqs, hlo h1, hhi h2⟩, rfl, rfl⟩

/-- **The keys of an index** are its fixed columns, and the bounds of the next one. -/
theorem planKeys_spec (h : ∀ col, (bounds.look col).Gathers pins col) (cols : List Bytes) :
    ∃ out cells lo hi, planKeys bounds cols (fitCols bounds cols) = .ok out ∧
      out.From pins cells lo hi ∧ cells.map Prod.fst = cols.take (fixedRun pins cols) ∧
      EndsAt pins cols (lowerBy pins) lo ∧ EndsAt pins cols (upperBy pins) hi := by
  have hcells := eqCells_eq h (cols.take (fixedRun pins cols)) fun col hcol => mem_takeFixed hcol
  generalize hl : (cols.take (fixedRun pins cols)).map
    (fun col => (col, (bounds.look col).eq)) = cells at hcells
  have heqs : ∀ c ∈ cells, ⟨.eq, c.1, c.2⟩ ∈ pins := by
    intro c hc
    rw [← hl] at hc
    obtain ⟨col, hcol, rfl⟩ := List.mem_map.mp hc
    exact (h col).eq ((h col).hasEq_iff.trans (mem_takeFixed hcol))
  have hfst : cells.map Prod.fst = cols.take (fixedRun pins cols) := by
    rw [← hl, List.map_map]
    exact List.map_id _
  unfold planKeys EndsAt
  rw [fitCols_eq h]
  dsimp only
  rw [hcells, ok_bind]
  cases hat : cols[fixedRun pins cols]? with
  | none =>
      refine ⟨_, cells, [], [], rfl, ⟨?_, ?_, heqs, .none, .none⟩, hfst, rfl, rfl⟩
      · exact (List.append_nil cells).symm
      · exact (List.append_nil cells).symm
  | some col =>
      obtain ⟨lo, hi, hfrom, hlo, hhi⟩ := rangeEnds_from (h col) heqs
      rw [(h col).hasLo_iff] at hlo
      rw [(h col).hasHi_iff] at hhi
      -- the column after the fixed ones may have a bound on either side
      by_cases hbound : (lowerBy pins col || upperBy pins col) = true
      · have hne : bounds.look col ≠ {} := fun he => by
          have h1 := (h col).hasLo_iff
          have h2 := (h col).hasHi_iff
          rw [he] at h1 h2
          rw [← h1, ← h2] at hbound
          exact absurd hbound Bool.false_ne_true
        refine ⟨_, cells, lo, hi, ?_, hfrom, hfst, hlo, hhi⟩
        rw [Option.any_some, if_pos hbound]
        dsimp only
        rw [Bounds.fetch_eq hne, ok_bind]
        rfl
      · have hno := Bool.or_eq_false_iff.mp (Bool.not_eq_true _ ▸ hbound)
        refine ⟨{ key1 := ⟨cells⟩, key2 := ⟨cells⟩ }, cells, [], [], ?_,
          ⟨?_, ?_, heqs, .none, .none⟩,
          hfst, ?_, ?_⟩
        · rw [Option.any_some, if_neg hbound]
          rfl
        · exact (List.append_nil cells).symm
        · exact (List.append_nil cells).symm
        · exact (if_neg (hno.1 ▸ Bool.false_ne_true)).symm
        · exact (if_neg (hno.2 ▸ Bool.false_ne_true)).symm

/-- The range, and the tree it is planned for: its keys are those of the tree that fits best, or it
is all of the primary key if no column of that is fixed. -/
def Planned (pins : List Pin) (tdef : TableDef) (range : QLRange) (cols : List Bytes) : Prop :=
  Chosen pins tdef cols ∧ ((range = {} ∧ fixedRun pins cols = 0) ∨ ∃ cells lo hi,
    range.From pins cells lo hi ∧ cells.map Prod.fst = cols.take (fixedRun pins cols) ∧
      EndsAt pins cols (lowerBy pins) lo ∧ EndsAt pins cols (upperBy pins) hi ∧
      (cells = [] → lo = [] → cols = tdef.keyCols))

theorem planRange_spec (h : ∀ col, (bounds.look col).Gathers pins col) (tdef : TableDef) :
    ∃ range cols, planRange bounds tdef = .ok range ∧ Planned pins tdef range cols := by
  obtain ⟨hmax, hfit, hpk⟩ : FirstMax (fitScore pins) _ (bestFit bounds tdef).cols ∧ _ :=
    bestFitLoop_spec h rfl
  change (bestFit bounds tdef).fit = fitCols bounds (bestFit bounds tdef).cols at hfit
  have hscore := congrArg Fit.score hfit
  rw [fitCols_score h] at hscore
  change (bestFit bounds tdef).isPk = true → (bestFit bounds tdef).cols = tdef.keyCols at hpk
  unfold planRange
  generalize bestFit bounds tdef = best at *
  -- without a bound no column is fixed
  have hfree : bounds.isEmpty = true → fixedRun pins best.cols = 0 := by
    intro he
    have hnil := List.isEmpty_iff.mp he
    have hfixed : ∀ col, fixedBy pins col = false := by
      intro col
      rw [← (h col).hasEq_iff, hnil]
      rfl
    unfold fixedRun
    cases best.cols with
    | nil => rfl
    | cons col cols => rw [List.takeWhile_cons, hfixed, if_neg Bool.false_ne_true, List.length_nil]
  by_cases hempty : bounds.isEmpty = true
  · exact ⟨{}, best.cols, if_pos hempty, hmax, Or.inl ⟨rfl, hfree hempty⟩⟩
  · rw [if_neg hempty]
    dsimp only
    by_cases hzero : best.fit.score = 0
    · refine ⟨{}, best.cols, if_pos hzero, hmax, Or.inl ⟨rfl, ?_⟩⟩
      rw [hscore] at hzero
      unfold fitScore at hzero
      omega
    · rw [if_neg hzero, hfit]
      obtain ⟨out, cells, lo, hi, hplan, hfrom, hcells, hlo, hhi⟩ := planKeys_spec h best.cols
      rw [hplan, ok_bind]
      by_cases hno : out.key1.cells = [] ∧ ¬ best.isPk = true
      · refine ⟨{}, best.cols, if_pos hno, hmax, Or.inl ⟨rfl, ?_⟩⟩
        have hnil := (List.append_eq_nil_iff.mp (hfrom.key1.symm.trans hno.1)).1
        rw [hnil, List.map_nil, eq_comm, List.take_eq_nil_iff] at hcells
        rcases hcells with hcells | hcells
        · exact hcells
        · rw [hcells]
          rfl
      · refine ⟨out, best.cols, if_neg hno, hmax, Or.inr ⟨cells, lo, hi, hfrom, hcells, hlo, hhi, ?_⟩⟩
        intro hc hl
        refine hpk (by_contra fun hne => hno ⟨?_, hne⟩)
        rw [hfrom.key1, hc, hl]
        rfl

end Keys

/-- **What is planned.** -/
theorem qlRange_spec (filter : QLNode) (tdef : TableDef) : ∃ range cols,
    qlRange filter tdef = .ok range ∧ Planned (filter.pins tdef) tdef range cols := by
  have h : ∀ col, ((collect tdef filter []).look col).Gathers ([] ++ filter.pins tdef) col :=
    collect_gathers filter fun col => ColBound.gathers_empty col
  rw [List.nil_append] at h
  obtain ⟨range, cols, hplan, hplanned⟩ := planRange_spec h tdef
  unfold qlRange
  split
  · rw [show planRange (collect tdef .uninit []) tdef = .ok {} from rfl] at hplan
    exact ⟨{}, cols, rfl, Except.ok.inj hplan ▸ hplanned⟩
  · exact ⟨range, cols, hplan, hplanned⟩

end SqlDb
