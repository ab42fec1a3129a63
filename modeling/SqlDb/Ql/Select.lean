import SqlDb.Ql.Exec
import SqlDb.Ql.Narrow

/-!
# What a statement selects

The rows that the filter keeps, in the order of the scan, less the first `offset` of them
and no more than `limit`. The loop counts as it goes and stops early; here the same rows
are cut out of the list of all.
-/

namespace SqlDb

open Outcome OrdMap

/-- The filter keeps the row. -/
def QLScan.kept (req : QLScan) (tdef : TableDef) (row : List Value) : Bool :=
  match req.keeps (.ofCols tdef.cols row) with
  | .ok keep => keep
  | .error _ => false

/-- What is still selected once `skipped` rows were skipped and `taken` were taken. -/
def QLScan.selectedFrom (req : QLScan) (tdef : TableDef) (skipped taken : Nat)
    (L : List (List Value)) : List (List Value) :=
  let rest := (L.filter (req.kept tdef)).drop (req.offset.toInt.toNat - skipped)
  if 0 ≤ req.limit.toInt then rest.take (req.limit.toInt.toNat - taken) else rest

/-- The rows selected from those that are visited. -/
def QLScan.selected (req : QLScan) (tdef : TableDef) (L : List (List Value)) : List (List Value) :=
  let rest := (L.filter (req.kept tdef)).drop req.offset.toInt.toNat
  if 0 ≤ req.limit.toInt then rest.take req.limit.toInt.toNat else rest

/-- WHERE has a value on each of these rows. -/
def QLScan.Decides (req : QLScan) (tdef : TableDef) (L : List (List Value)) : Prop :=
  ∀ row ∈ L, ∃ keep, req.keeps (.ofCols tdef.cols row) = .ok keep

/-- The limit ends the loop at the last of these rows, or before: more of them are kept than are
still to be skipped and taken. -/
def QLScan.FullFrom (req : QLScan) (tdef : TableDef) (skipped taken : Nat)
    (L : List (List Value)) : Prop :=
  0 ≤ req.limit.toInt ∧ (req.offset.toInt.toNat - skipped) + (req.limit.toInt.toNat - taken) <
    (L.filter (req.kept tdef)).length

/-- More of these rows are kept than OFFSET and LIMIT let through. -/
def QLScan.Full (req : QLScan) (tdef : TableDef) (L : List (List Value)) : Prop :=
  0 ≤ req.limit.toInt ∧
    req.offset.toInt.toNat + req.limit.toInt.toNat < (L.filter (req.kept tdef)).length

/-- As far as the loop gets, WHERE has a value. -/
def QLScan.DecidedFrom (req : QLScan) (tdef : TableDef) (skipped taken : Nat)
    (L : List (List Value)) : Prop :=
  ∃ L₁ L₂, L = L₁ ++ L₂ ∧ req.Decides tdef L₁ ∧ (L₂ = [] ∨ req.FullFrom tdef skipped taken L₁)

/-- The loop comes to a row for which WHERE has no value. -/
def QLScan.FailsFrom (req : QLScan) (tdef : TableDef) (skipped taken : Nat)
    (L : List (List Value)) (err : Bytes) : Prop :=
  ∃ L₁ row L₂, L = L₁ ++ row :: L₂ ∧ req.Decides tdef L₁ ∧ ¬ req.FullFrom tdef skipped taken L₁ ∧
    req.keeps (.ofCols tdef.cols row) = .error err

/-- The rows a statement's scan visits, in its order. -/
def QLScan.Visits {σ : Type} [PageManager σ] (req : QLScan) (t : BTree σ) (tdef : TableDef)
    (L : List (List Value)) : Prop :=
  ∃ range sc, qlRange req.filter tdef = .ok range ∧ dbScan t tdef range.req = .ok (.ok sc) ∧
    ∀ fuel, L.length ≤ fuel → sc.collect t tdef fuel = .ok (L.map (Record.ofCols tdef.cols))

section Selected

variable {req : QLScan} {tdef : TableDef} {row : List Value} {L : List (List Value)}
  {skipped taken skipped' taken' : Nat}

theorem QLScan.selected_sublist : (req.selected tdef L).Sublist L := by
  have hrest := (List.drop_sublist req.offset.toInt.toNat (L.filter (req.kept tdef))).trans
    List.filter_sublist
  unfold selected
  dsimp only
  split
  · exact (List.take_sublist _ _).trans hrest
  · exact hrest

theorem QLScan.selected_all (hoffset : req.offset.toInt ≤ 0) (hlimit : req.limit.toInt < 0) :
    req.selected tdef L = L.filter (req.kept tdef) := by
  unfold selected
  dsimp only
  rw [if_neg (not_le.mpr hlimit), Int.toNat_of_nonpos hoffset, List.drop_zero]

theorem QLScan.selectedFrom_nil : req.selectedFrom tdef skipped taken [] = [] := by
  unfold selectedFrom
  simp

theorem QLScan.selectedFrom_dropped (h : req.kept tdef row = false) :
    req.selectedFrom tdef skipped taken (row :: L) = req.selectedFrom tdef skipped taken L := by
  unfold selectedFrom
  rw [List.filter_cons_of_neg (by rw [h]; exact Bool.false_ne_true)]

theorem QLScan.selectedFrom_skip (h : req.kept tdef row = true)
    (hskip : (skipped : Int) < req.offset.toInt) :
    req.selectedFrom tdef skipped taken (row :: L) =
      req.selectedFrom tdef (skipped + 1) taken L := by
  unfold selectedFrom
  rw [List.filter_cons_of_pos h,
    show req.offset.toInt.toNat - skipped = req.offset.toInt.toNat - (skipped + 1) + 1 by omega,
    List.drop_succ_cons]

theorem QLScan.selectedFrom_full (hlimit : 0 ≤ req.limit.toInt ∧ req.limit.toInt ≤ taken) :
    req.selectedFrom tdef skipped taken L = [] := by
  unfold selectedFrom
  rw [if_pos hlimit.1, show req.limit.toInt.toNat - taken = 0 by omega, List.take_zero]

theorem QLScan.selectedFrom_take (h : req.kept tdef row = true)
    (hskip : ¬ (skipped : Int) < req.offset.toInt)
    (hlimit : ¬ (0 ≤ req.limit.toInt ∧ req.limit.toInt ≤ taken)) :
    req.selectedFrom tdef skipped taken (row :: L) =
      row :: req.selectedFrom tdef skipped (taken + 1) L := by
  unfold selectedFrom
  rw [List.filter_cons_of_pos h, show req.offset.toInt.toNat - skipped = 0 by omega, List.drop_zero,
    List.drop_zero]
  split
  · rw [show req.limit.toInt.toNat - taken = req.limit.toInt.toNat - (taken + 1) + 1 by omega,
      List.take_succ_cons]
  · rfl

theorem QLScan.Decides.cons {keep : Bool} (h : req.Decides tdef L)
    (hkeeps : req.keeps (.ofCols tdef.cols row) = .ok keep) : req.Decides tdef (row :: L) := by
  intro r hr
  rcases List.mem_cons.mp hr with rfl | hr
  · exact ⟨keep, hkeeps⟩
  · exact h r hr

theorem QLScan.fullFrom_dropped (h : req.kept tdef row = false) :
    req.FullFrom tdef skipped taken (row :: L) ↔ req.FullFrom tdef skipped taken L := by
  unfold FullFrom
  rw [List.filter_cons_of_neg (by rw [h]; exact Bool.false_ne_true)]

theorem QLScan.fullFrom_skip (h : req.kept tdef row = true)
    (hskip : (skipped : Int) < req.offset.toInt) :
    req.FullFrom tdef skipped taken (row :: L) ↔ req.FullFrom tdef (skipped + 1) taken L := by
  unfold FullFrom
  rw [List.filter_cons_of_pos h, List.length_cons]
  omega

theorem QLScan.fullFrom_take (h : req.kept tdef row = true)
    (hskip : ¬ (skipped : Int) < req.offset.toInt)
    (hlimit : ¬ (0 ≤ req.limit.toInt ∧ req.limit.toInt ≤ taken)) :
    req.FullFrom tdef skipped taken (row :: L) ↔ req.FullFrom tdef skipped (taken + 1) L := by
  unfold FullFrom
  rw [List.filter_cons_of_pos h, List.length_cons]
  omega

/-- A row that does not end the loop. -/
theorem QLScan.DecidedFrom.cons {keep : Bool}
    (hkeeps : req.keeps (.ofCols tdef.cols row) = .ok keep)
    (hfull : ∀ L, req.FullFrom tdef skipped taken (row :: L) ↔ req.FullFrom tdef skipped' taken' L)
    (h : req.DecidedFrom tdef skipped' taken' L) : req.DecidedFrom tdef skipped taken (row :: L) := by
  obtain ⟨L₁, L₂, rfl, hdecides, hend⟩ := h
  exact ⟨row :: L₁, L₂, rfl, hdecides.cons hkeeps, hend.imp_right (hfull L₁).mpr⟩

theorem QLScan.FailsFrom.cons {keep : Bool} {err : Bytes}
    (hkeeps : req.keeps (.ofCols tdef.cols row) = .ok keep)
    (hfull : ∀ L, req.FullFrom tdef skipped taken (row :: L) ↔ req.FullFrom tdef skipped' taken' L)
    (h : req.FailsFrom tdef skipped' taken' L err) :
    req.FailsFrom tdef skipped taken (row :: L) err := by
  obtain ⟨L₁, row', L₂, rfl, hdecides, hroom, herr⟩ := h
  exact ⟨row :: L₁, row', L₂, rfl, hdecides.cons hkeeps, (hfull L₁).not.mpr hroom, herr⟩

theorem QLScan.FailsFrom.mem {err : Bytes} (h : req.FailsFrom tdef skipped taken L err) :
    ∃ row ∈ L, req.keeps (.ofCols tdef.cols row) = .error err := by
  obtain ⟨L₁, row, L₂, rfl, _, _, herr⟩ := h
  exact ⟨row, List.mem_append_right L₁ List.mem_cons_self, herr⟩

end Selected

section Loop

variable {σ : Type} [PageManager σ] {t : BTree σ} {m : Contents} {tdef : TableDef} {req : QLScan}
  {fuel : Nat} {sc : Scanner} {i : Nat}

/-- **The loop takes what is selected** of the rows ahead, if WHERE has a value on all that it comes
to, and else stops at the first that it has none for. It does not run out of fuel. -/
theorem ScansAt.scanLoop {L : List (List Value)} (h : ScansAt t m sc i) (req : QLScan)
    (skipped taken : Nat)
    (hread : List.Forall₂ (fun r row => readBinding t tdef sc.indexNo r = .ok (.ofCols tdef.cols row))
      (sc.left m i) L) (hfuel : L.length ≤ fuel) :
    ∃ r, scanLoop t tdef req fuel sc skipped taken = .ok r ∧
      (∀ recs, r = .ok recs →
        recs = (req.selectedFrom tdef skipped taken L).map (Record.ofCols tdef.cols) ∧
          req.DecidedFrom tdef skipped taken L) ∧
      ∀ err, r = .error err → req.FailsFrom tdef skipped taken L err := by
  induction L generalizing sc i fuel skipped taken with
  | nil =>
      have hvalid := h.valid
      rw [List.forall₂_nil_right_iff.mp hread] at hvalid
      refine ⟨.ok [], ?_, fun recs he => ⟨?_, ?_⟩, fun _ he => nomatch he⟩
      · rw [SqlDb.scanLoop.eq_def]
        dsimp only
        rw [hvalid]
        rfl
      · rw [QLScan.selectedFrom_nil, ← Except.ok.inj he]
        rfl
      · exact ⟨[], [], rfl, fun _ hr => absurd hr List.not_mem_nil, Or.inl rfl⟩
  | cons row L ih =>
      obtain ⟨r, rest, hr, hrest, hleft⟩ := List.forall₂_cons_right_iff.mp hread
      obtain ⟨iter, i', hnext, hat, hrest'⟩ := h.next hleft
      rw [← hrest'] at hrest
      cases fuel with
      | zero => simp at hfuel
      | succ fuel =>
          have hrec := fun skipped taken => ih hat skipped taken hrest (by simpa using hfuel)
          rw [SqlDb.scanLoop, h.valid, hleft, ok_bind, List.head?_cons,
            Option.isSome_some, if_pos rfl,
            h.read hleft, hr, ok_bind]
          cases hkeeps : req.keeps (.ofCols tdef.cols row) with
          | error err =>
              refine ⟨_, rfl, fun _ he => (nomatch he), fun err' he => ?_⟩
              refine ⟨[], row, L, rfl, fun _ hr => absurd hr List.not_mem_nil, ?_, ?_⟩
              · exact fun hfull => Nat.not_lt_zero _ hfull.2
              · rw [hkeeps]
                exact congrArg Except.error (Except.error.inj he)
          | ok keep =>
              have hkept : req.kept tdef row = keep := by
                unfold QLScan.kept
                rw [hkeeps]
              cases keep with
              | false =>
                  dsimp only
                  rw [hnext, ok_bind, QLScan.selectedFrom_dropped hkept]
                  obtain ⟨r', hr', hok, herr⟩ := hrec skipped taken
                  have hfull : ∀ L, req.FullFrom tdef skipped taken (row :: L) ↔
                      req.FullFrom tdef skipped taken L := fun L => QLScan.fullFrom_dropped hkept
                  exact ⟨r', hr', fun recs he => (hok recs he).imp_right (.cons hkeeps hfull),
                    fun err he => (herr err he).cons hkeeps hfull⟩
              | true =>
                  dsimp only
                  -- a row that is kept is skipped, ends the scan at the limit, or is taken
                  by_cases hskip : (skipped : Int) < req.offset.toInt
                  · rw [if_pos hskip, hnext, ok_bind, QLScan.selectedFrom_skip hkept hskip]
                    obtain ⟨r', hr', hok, herr⟩ := hrec (skipped + 1) taken
                    have hfull : ∀ L, req.FullFrom tdef skipped taken (row :: L) ↔
                        req.FullFrom tdef (skipped + 1) taken L :=
                      fun L => QLScan.fullFrom_skip hkept hskip
                    exact ⟨r', hr', fun recs he => (hok recs he).imp_right (.cons hkeeps hfull),
                      fun err he => (herr err he).cons hkeeps hfull⟩
                  · rw [if_neg hskip]
                    by_cases hlimit : 0 ≤ req.limit.toInt ∧ req.limit.toInt ≤ taken
                    · rw [if_pos hlimit, QLScan.selectedFrom_full hlimit]
                      refine ⟨_, rfl, fun recs he => ⟨(Except.ok.inj he).symm, [row], L, rfl, ?_,
                        Or.inr ⟨hlimit.1, ?_⟩⟩, fun _ he => nomatch he⟩
                      · exact fun r hr => ⟨true, by rw [List.mem_singleton.mp hr, hkeeps]⟩
                      · rw [List.filter_cons_of_pos hkept, List.length_cons]
                        omega
                    · rw [if_neg hlimit, hnext, ok_bind, QLScan.selectedFrom_take hkept hskip hlimit]
                      obtain ⟨r', hr', hok, herr⟩ := hrec skipped (taken + 1)
                      have hfull := fun L => QLScan.fullFrom_take (L := L) hkept hskip hlimit
                      rw [hr', ok_bind]
                      cases r' with
                      | error err =>
                          refine ⟨_, rfl, fun _ he => (nomatch he), fun err' he => ?_⟩
                          rw [← Except.error.inj he]
                          exact (herr err rfl).cons hkeeps hfull
                      | ok recs =>
                          obtain ⟨hrecs, hdecided⟩ := hok recs rfl
                          refine ⟨_, rfl, fun recs' he => ⟨?_, hdecided.cons hkeeps hfull⟩,
                            fun _ he => nomatch he⟩
                          rw [← Except.ok.inj he, hrecs, List.map_cons]

/-- A row that the filter keeps is in the planned range. -/
theorem QLScan.kept_holds {row : List Value} {range : QLRange} {cols : List Bytes}
    (hrange : qlRange req.filter tdef = .ok range) (hkept : req.kept tdef row = true)
    (h1 : range.key1.cols <+: cols) (h2 : range.key2.cols <+: cols) :
    range.req.Holds tdef cols row := by
  obtain ⟨range', cells, lo, hi, hrange', hfrom⟩ := qlRange_from req.filter tdef
  obtain rfl := Except.ok.inj (hrange.symm.trans hrange')
  refine hfrom.holds ?_ h1 h2
  unfold kept keeps at hkept
  cases huninit : req.filter.isUninit with
  | true =>
      -- no clause, no comparison
      have hf : req.filter = .uninit := by
        revert huninit
        cases req.filter <;> simp [QLNode.isUninit]
      rw [hf]
      exact fun _ hp => absurd hp List.not_mem_nil
  | false =>
      rw [huninit, if_neg Bool.false_ne_true] at hkept
      cases heval : qlEval req.filter (.ofCols tdef.cols row) with
      | error err =>
          rw [heval] at hkept
          cases hkept
      | ok v =>
          rw [heval] at hkept
          cases v with
          | int64 n => exact pins_sat heval (of_decide_eq_true hkept)
          | _ => cases hkept

/-- **What a statement's scan visits**: rows of the table, each once, and all that the filter
keeps. -/
theorem QLScan.visits (req : QLScan) (hs : tdef.Sound) (hread : t.Readable m) {rows : Rows}
    (hrep : tdef.Represents m rows) {range : QLRange} (hrange : qlRange req.filter tdef = .ok range)
    (hscan : dbScan t tdef range.req = .ok (.ok sc)) :
    ∃ i L, ScansAt t m sc i ∧ L.length ≤ m.length ∧
      List.Forall₂ (fun r row => readBinding t tdef sc.indexNo r = .ok (.ofCols tdef.cols row))
        (sc.left m i) L ∧ L.Nodup ∧ (∀ row ∈ L, ∃ pk, rows pk = some row) ∧
      ∀ pk row, rows pk = some row → req.kept tdef row = true → row ∈ L := by
  by_cases hany : ∃ pk row, rows pk = some row
  · obtain ⟨pk, row, hrow⟩ := hany
    obtain ⟨indexNo, p, cols, hfits⟩ := fits_of_dbScan hs hscan
    obtain ⟨p', cols', i, L, ht, hlists, hat, hlen, hrows⟩ :=
      scansAt_rows hs (hrep.fit.plain hrow) hread hrep hscan
    rw [scannedTree_of_dbScan hs hfits hscan] at ht
    obtain ⟨rfl, rfl⟩ := Prod.mk.inj (Except.ok.inj ht)
    refine ⟨i, L, hat, hlen, hrows, hlists.nodup, fun r hr => ((hlists.mem r).mp hr).1, ?_⟩
    intro pk r hr hkept
    exact (hlists.mem r).mpr ⟨⟨pk, hr⟩, kept_holds hrange hkept hfits.key1.cols hfits.key2.cols⟩
  · -- without rows, nothing is ahead
    obtain ⟨i, p, cols, hat, ht, hahead⟩ := (Scanner.Walks.scan hscan).ahead hs hread
    have hnil : sc.left m i = [] := by
      refine List.eq_nil_iff_forall_not_mem.mpr fun r hr => hany ?_
      obtain ⟨hmem, hspace⟩ := hahead r hr
      obtain ⟨pk, row, hrow, _⟩ := (hrep.entries _ p cols ht r.1 r.2 hspace).mp
        ((lookup_eq_some hread.sorted).mpr hmem)
      exact ⟨pk, row, hrow⟩
    refine ⟨i, [], hat, Nat.zero_le _, by rw [hnil]; exact .nil, List.nodup_nil, ?_, ?_⟩
    · exact fun _ hr => absurd hr List.not_mem_nil
    · exact fun pk row hrow _ => absurd ⟨pk, row, hrow⟩ hany

end Loop

end SqlDb
