import SqlDb.Ql.Semantics

/-!
# What a scan gives

On a tree that holds the rows of a table, the plan of a filter is either refused, since the
filter strays from the index that fits it best, or walked; and the loop over the walk takes
the rows that are selected, or stops at one that WHERE fails on. Nothing else can happen.
-/

namespace SqlDb

open Outcome OrdMap

/-! ## The order of a walk -/

section Order

variable {tdef : TableDef}

/-- The tree of a scan that is accepted is the one found for its first key. -/
theorem ScanReq.Fits.found (hs : tdef.Sound) {req : ScanReq} {indexNo : Option Nat} {p : Nat}
    {cols : List Bytes} (h : req.Fits tdef indexNo p cols) : Found tdef req.key1.cols cols := by
  have hmem : cols ∈ tdef.keyCols :: tdef.indexes := by
    have htree := h.tree
    cases indexNo with
    | none =>
        obtain ⟨_, rfl⟩ := Prod.mk.inj (Except.ok.inj htree)
        exact List.mem_cons_self
    | some i =>
        have hcols := (TableDef.scannedTree_some.mp htree).2
        exact List.mem_cons_of_mem _ (List.mem_of_getElem? hcols)
  obtain ⟨indexNo', p', found, hfind, htree, hfound⟩ := findIndex_found hs hmem h.key1.cols
  obtain rfl := Except.ok.inj (hfind.symm.trans h.index)
  obtain ⟨_, rfl⟩ := Prod.mk.inj (Except.ok.inj (htree.symm.trans h.tree))
  exact hfound

/-- A planned range is walked upwards. -/
theorem QLRange.From.upwards {range : QLRange} {pins : List Pin}
    {cells lo hi : List (Bytes × Value)}
    (h : range.From pins cells lo hi) : range.cmp1.positive = true := by
  rcases h.lo.cmp_eq with h1 | h1 <;> rw [h1] <;> rfl

/-- The first key of a plan starts the tree it is for. -/
theorem Planned.key1_prefix {pins : List Pin} {range : QLRange} {cols : List Bytes}
    (h : Planned pins tdef range cols) : range.key1.cols <+: cols := by
  obtain ⟨_, ⟨rfl, _⟩ | ⟨cells, lo, hi, hfrom, hcells, hlo, _⟩⟩ := h
  · exact List.nil_prefix
  · have hkey : range.key1.cols = cols.take (fixedRun pins cols) ++ lo.map Prod.fst := by
      rw [Record.cols, hfrom.key1, List.map_append, hcells]
    have htake : cols.take (fixedRun pins cols + 1) =
        cols.take (fixedRun pins cols) ++ cols[fixedRun pins cols]?.toList := List.take_add_one
    unfold EndsAt at hlo
    cases hat : cols[fixedRun pins cols]? with
    | none =>
        rw [hat] at hlo
        obtain rfl : lo = [] := hlo
        rw [hkey, List.map_nil, List.append_nil]
        exact List.take_prefix _ _
    | some col =>
        rw [hat] at hlo htake
        dsimp only at hlo
        rw [hkey, hlo]
        split
        · rw [Option.toList_some] at htake
          rw [← htake]
          exact List.take_prefix _ _
        · rw [List.append_nil]
          exact List.take_prefix _ _

end Order

section Walk

variable {σ : Type} [PageManager σ] {t : BTree σ} {m : Contents} {tbl : Table} {req : QLScan}

/-- **A range that is refused** has a second key that is no bound of the tree found for the first. -/
theorem dbScan_refused (hs : tbl.tdef.Sound) {range : QLRange}
    (hrange : qlRange req.filter tbl.tdef = .ok range)
    (hno : ∀ sc, dbScan t tbl.tdef range.req ≠ .ok (.ok sc)) (hplain : Plain tbl.tdef.types)
    (hread : t.Readable m) : dbScan t tbl.tdef range.req =
      .ok (.error (.ofString "range key columns must be a prefix of the scanned index")) := by
  obtain ⟨range', cols, hrange', hplanned⟩ := qlRange_spec req.filter tbl.tdef
  obtain rfl := Except.ok.inj (hrange'.symm.trans hrange)
  obtain ⟨range', cells, lo, hi, hrange'', hfrom⟩ := qlRange_from req.filter tbl.tdef
  obtain rfl := Except.ok.inj (hrange''.symm.trans hrange)
  have hmem : cols ∈ tbl.tdef.keyCols :: tbl.tdef.indexes := FirstMax.mem hplanned.1
  have hp := hplanned.key1_prefix
  obtain ⟨indexNo, p, found, hfind, htree, hfound⟩ := findIndex_found hs hmem hp
  have haccepted := (hfrom.accepted_iff hs hplain hread hmem hp).not.mp fun ⟨sc, h⟩ => hno sc h
  -- both keys have values of their columns' types
  have htypes : range'.key1.vals.map Value.type = tbl.tdef.typesOf range'.key1.cols :=
    types_of_pins fun c hc => by
      rw [hfrom.key1] at hc
      exact (List.mem_append.mp hc).elim (fun hc => ⟨.eq, hfrom.eqs c hc⟩) (hfrom.lo.cells c)
  obtain ⟨r1, hr1, hiff1⟩ := TableDef.checkBound_eq hs.checked.types (hs.tree_cols htree).2.2.1
    range'.key1
  rw [hiff1.mpr ⟨hfound.prefix_of, htypes⟩] at hr1
  have hr2 : checkBound tbl.tdef found range'.key2 =
      .ok (.error (.ofString "range key columns must be a prefix of the scanned index")) := by
    unfold checkBound
    rw [if_pos]
    · rfl
    · intro hp2
      exact haccepted ⟨found, hfound, TableDef.isPrefix_iff.mp hp2⟩
  have hdir : range'.req.cmp2.positive = !range'.req.cmp1.positive := hfrom.dir
  unfold dbScan
  rw [if_neg (positive_opposite.mpr hdir), show range'.req.key1 = range'.key1 from rfl, hfind]
  dsimp only
  rw [htree, ok_bind]
  dsimp only
  rw [hr1, ok_bind]
  dsimp only
  rw [show range'.req.key2 = range'.key2 from rfl, hr2, ok_bind]
  rfl

/-- A walk of the planned range comes to its rows in order, among them those that the filter
keeps. -/
theorem QLScan.walks (hs : tbl.tdef.Sound) (hplain : Plain tbl.tdef.types) (hread : t.Readable m)
    (hrep : tbl.tdef.Represents m tbl.rows) {range : QLRange}
    (hrange : qlRange req.filter tbl.tdef = .ok range) {sc : Scanner}
    (hscan : dbScan t tbl.tdef range.req = .ok (.ok sc)) :
    ∃ i L cols, ScansAt t m sc i ∧ L.length ≤ m.length ∧
      List.Forall₂ (fun r row => readBinding t tbl.tdef sc.indexNo r = .ok (.ofCols tbl.tdef.cols row))
        (sc.left m i) L ∧ req.Reads tbl L ∧
      req.OrderedBy tbl.tdef cols ∧ req.Keeps tbl cols (L.filter (req.kept tbl.tdef)) := by
  obtain ⟨range', cells, lo, hi, hrange', hfrom⟩ := qlRange_from req.filter tbl.tdef
  obtain rfl := Except.ok.inj (hrange'.symm.trans hrange)
  obtain ⟨indexNo, p, cols, hfits⟩ := fits_of_dbScan hs hscan
  obtain ⟨p', cols', i, L, htree, hlists, hat, hlen, hrows⟩ :=
    scansAt_rows hs hplain hread hrep hscan
  rw [scannedTree_of_dbScan hs hfits hscan] at htree
  obtain ⟨rfl, rfl⟩ := Prod.mk.inj (Except.ok.inj htree)
  have hmem : ∀ row ∈ L, ∃ pk, tbl.rows pk = some row := fun row hrow => ((hlists.mem row).mp hrow).1
  refine ⟨i, L, cols, hat, hlen, hrows, ⟨range', cols, hrange, hfits.found hs, hlists⟩,
    ⟨range', hrange, hfits.found hs⟩, ⟨fun row => ?_, ?_⟩⟩
  · rw [List.mem_filter]
    refine and_congr_left fun hkept => ⟨hmem row, fun hrow => (hlists.mem row).mpr ⟨hrow, ?_⟩⟩
    exact kept_holds hrange hkept hfits.key1.cols hfits.key2.cols
  · have horder := hlists.order
    rw [show range'.req.cmp1 = range'.cmp1 from rfl, hfrom.upwards, if_pos rfl] at horder
    exact horder.sublist List.filter_sublist

/-- **What can come of a scan**: it is refused, it takes the rows that are selected, or it comes to
a row that WHERE fails on. -/
theorem QLScan.outcome (req : QLScan) (hs : tbl.tdef.Sound) (hplain : Plain tbl.tdef.types)
    (hread : t.Readable m) (hrep : tbl.tdef.Represents m tbl.rows) {fuel : Nat}
    (hfuel : m.length ≤ fuel) : ∃ range, qlRange req.filter tbl.tdef = .ok range ∧
      ((Strays (req.filter.pins tbl.tdef) tbl.tdef ∧ dbScan t tbl.tdef range.req =
          .ok (.error (.ofString "range key columns must be a prefix of the scanned index"))) ∨
        ¬ Strays (req.filter.pins tbl.tdef) tbl.tdef ∧
        ∃ sc r L, dbScan t tbl.tdef range.req = .ok (.ok sc) ∧ req.Reads tbl L ∧
          scanLoop t tbl.tdef req fuel sc 0 0 = .ok r ∧
          (∀ recs, r = .ok recs → req.Decided tbl.tdef L ∧
            ∃ cols K, req.OrderedBy tbl.tdef cols ∧ req.Keeps tbl cols K ∧
              recs = (req.cut K).map (Record.ofCols tbl.tdef.cols)) ∧
          ∀ err, r = .error err → req.FailsAt tbl.tdef L err) := by
  obtain ⟨range, hrange, hiff⟩ := planned_accepted hs hplain hread req.filter
  refine ⟨range, hrange, ?_⟩
  by_cases hstrays : Strays (req.filter.pins tbl.tdef) tbl.tdef
  · have hno : ∀ sc, dbScan t tbl.tdef range.req ≠ .ok (.ok sc) :=
      fun sc hscan => hiff.mp ⟨sc, hscan⟩ hstrays
    exact Or.inl ⟨hstrays, dbScan_refused hs hrange hno hplain hread⟩
  · obtain ⟨sc, hscan⟩ := hiff.mpr hstrays
    obtain ⟨i, L, cols, hat, hlen, hrows, hreads, hordered, hkeeps⟩ :=
      QLScan.walks hs hplain hread hrep hrange hscan
    obtain ⟨r, hloop, hok, herr⟩ := hat.scanLoop req 0 0 hrows (hlen.trans hfuel)
    refine Or.inr ⟨hstrays, sc, r, L, hscan, hreads, hloop, fun recs he => ?_, herr⟩
    obtain ⟨hrecs, hdecided⟩ := hok recs he
    exact ⟨hdecided, cols, _, hordered, hkeeps, hrecs⟩

end Walk

end SqlDb
