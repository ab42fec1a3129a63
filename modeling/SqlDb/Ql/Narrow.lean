import SqlDb.Ql.Plan

/-!
# Narrowing

What a scan of the planned range reads, and whether it reads at all. No row that the filter
keeps is out of the range, so a scan that is accepted visits them all, each once. But the
scan picks its index by the first key alone: if that ends before the second one, another
index may start with the same columns, and the second key is no bound of that.
-/

namespace SqlDb

open Outcome OrdMap

/-! ## No row is lost -/

section Holds

variable {pins : List Pin} {tdef : TableDef} {row : List Value}

/-- Columns that are equal do not decide a comparison. -/
theorem compareValues_equal {cells : List (Bytes × Value)} {f : Bytes → Value}
    (h : ∀ c ∈ cells, (f c.1).compare c.2 = .eq) (cells' : List (Bytes × Value)) :
    compareValues ((cells ++ cells').map fun c => f c.1) ((cells ++ cells').map Prod.snd) =
      compareValues (cells'.map fun c => f c.1) (cells'.map Prod.snd) := by
  induction cells with
  | nil => rfl
  | cons c cells ih =>
      obtain ⟨hc, hcells⟩ := List.forall_mem_cons.mp h
      rw [List.cons_append, List.map_cons, List.map_cons, compareValues, hc, ih hcells]
      rfl

theorem CMP.holds_ql (cmp : CMP) (o : Ordering) : cmp.ql.holds o = cmp.holds o := by
  cases cmp <;> rfl

/-- A row that satisfies the comparisons has such values. -/
theorem Pin.Sat.compare {p : Pin} (h : p.Sat (Record.ofCols tdef.cols row)) :
    p.op.holds (((cellAt tdef.cols row p.col).getD .error).compare p.v) = true := by
  obtain ⟨v, hv, _, hholds⟩ := h
  rw [get_ofCols] at hv
  rw [hv]
  exact hholds

/-- **A key of the filter's comparisons** is a bound that the row keeps. -/
theorem KeyEnd.holds {strict weak : CMP} {cells ends : List (Bytes × Value)} {cmp : CMP}
    {key : Record}
    {cols : List Bytes} (hends : KeyEnd pins strict weak ends cmp) (hweak : weak.holds .eq = true)
    (heqs : ∀ c ∈ cells, ⟨.eq, c.1, c.2⟩ ∈ pins)
    (hsat : ∀ p ∈ pins, p.Sat (Record.ofCols tdef.cols row))
    (hkey : key.cells = cells ++ ends) (hcols : key.cols <+: cols) :
    cmp.holds (compareValues ((tdef.pick row cols).take key.vals.length) key.vals) = true := by
  -- the row's cells for the columns of the key
  have htake : (tdef.pick row cols).take key.vals.length =
      key.cells.map fun c => (cellAt tdef.cols row c.1).getD .error := by
    obtain ⟨rest, rfl⟩ := hcols
    have hlen : (tdef.pick row key.cols).length = key.vals.length := by
      rw [TableDef.pick, List.length_map, key.length_vals]
    have happ : tdef.pick row (key.cols ++ rest) = tdef.pick row key.cols ++ tdef.pick row rest :=
      List.map_append
    rw [happ, List.take_append_of_le_length (le_of_eq hlen.symm),
      List.take_of_length_le (le_of_eq hlen), TableDef.pick, Record.cols, List.map_map]
    rfl
  have heq : ∀ c ∈ cells, ((cellAt tdef.cols row c.1).getD .error).compare c.2 = .eq :=
    fun c hc => of_decide_eq_true (hsat _ (heqs c hc)).compare
  rw [htake, Record.vals, hkey,
    compareValues_equal (f := fun col => (cellAt tdef.cols row col).getD .error) heq]
  cases hends with
  -- equal in every column of the key
  | none => exact hweak
  | @bound cmp col v hcmp hmem =>
      have hrow := (hsat _ hmem).compare
      rw [CMP.holds_ql] at hrow
      show cmp.holds ((((cellAt tdef.cols row col).getD .error).compare v).then .eq) = true
      rw [Ordering.then_eq]
      exact hrow

theorem QLRange.From.holds {range : QLRange} {cells lo hi : List (Bytes × Value)}
    (hfrom : range.From pins cells lo hi) (hsat : ∀ p ∈ pins, p.Sat (Record.ofCols tdef.cols row))
    {cols : List Bytes} (h1 : range.key1.cols <+: cols) (h2 : range.key2.cols <+: cols) :
    range.req.Holds tdef cols row :=
  ⟨hfrom.lo.holds rfl hfrom.eqs hsat hfrom.key1 h1, hfrom.hi.holds rfl hfrom.eqs hsat hfrom.key2 h2⟩

end Holds

section Scans

variable {σ : Type} [PageManager σ] {t : BTree σ} {m : Contents} {tdef : TableDef} {rows : Rows}

/-- The tree that is scanned is the one the request fits. -/
theorem scannedTree_of_dbScan (hs : tdef.Sound) {req : ScanReq} {indexNo : Option Nat} {p : Nat}
    {cols : List Bytes} (hfits : req.Fits tdef indexNo p cols) {sc : Scanner}
    (hscan : dbScan t tdef req = .ok (.ok sc)) : scannedTree tdef sc.indexNo = .ok (p, cols) := by
  rw [dbScan_eq hs hfits] at hscan
  obtain ⟨keyEnd, _, hscan⟩ := bind_eq_ok.mp hscan
  obtain ⟨key, _, hscan⟩ := bind_eq_ok.mp hscan
  obtain ⟨iter, _, hscan⟩ := bind_eq_ok.mp hscan
  rw [← Except.ok.inj (Except.ok.inj hscan)]
  exact hfits.tree

/-- The keys of a planned range are made of the filter's comparisons. -/
theorem qlRange_from (filter : QLNode) (tdef : TableDef) : ∃ range cells lo hi,
    qlRange filter tdef = .ok range ∧ range.From (filter.pins tdef) cells lo hi := by
  obtain ⟨range, chosen, hrange, _, hplanned⟩ := qlRange_spec filter tdef
  rcases hplanned with ⟨rfl, _⟩ | ⟨cells, lo, hi, hfrom, _⟩
  · exact ⟨_, [], [], [], hrange, QLRange.from_empty _⟩
  · exact ⟨range, cells, lo, hi, hrange, hfrom⟩

/-- **Range narrowing loses no row.** A scan of the planned range that is accepted gives every row
that the filter keeps, and no row twice. -/
theorem range_loses_no_row (hs : tdef.Sound) (hplain : Plain tdef.types) (hread : t.Readable m)
    (hrep : tdef.Represents m rows) (filter : QLNode) :
    ∃ range, qlRange filter tdef = .ok range ∧ ∀ sc, dbScan t tdef range.req = .ok (.ok sc) →
      ∃ L : List (List Value), L.Nodup ∧ (∀ row ∈ L, ∃ pk, rows pk = some row) ∧
        (∀ pk row n, rows pk = some row →
          qlEval filter (.ofCols tdef.cols row) = .ok (.int64 n) → n ≠ 0 → row ∈ L) ∧
        ∀ fuel, m.length ≤ fuel → sc.collect t tdef fuel = .ok (L.map (Record.ofCols tdef.cols)) := by
  obtain ⟨range, cells, lo, hi, hrange, hfrom⟩ := qlRange_from filter tdef
  refine ⟨range, hrange, fun sc hscan => ?_⟩
  obtain ⟨indexNo, p, cols, hfits⟩ := fits_of_dbScan hs hscan
  obtain ⟨p', cols', htree, L, hlists, hcollect⟩ := scan_exact hs hplain hread hrep hscan
  rw [scannedTree_of_dbScan hs hfits hscan] at htree
  obtain ⟨rfl, rfl⟩ := Prod.mk.inj (Except.ok.inj htree)
  refine ⟨L, hlists.nodup, fun row hrow => ((hlists.mem row).mp hrow).1, ?_, hcollect⟩
  intro pk row n hrow heval hn
  refine (hlists.mem row).mpr ⟨⟨pk, hrow⟩, hfrom.holds (pins_sat heval hn) ?_ ?_⟩
  · exact hfits.key1.cols
  · exact hfits.key2.cols

/-- `v = 'a' AND k > 1` -/
def equalFrom : QLNode :=
  .logic .and (.cmp .eq (.sym (.ofString "v")) (.str [97]))
    (.cmp .gt (.sym (.ofString "k")) (.int64 1))

/-- The range that is planned for it. -/
def equalRange : QLRange where
  cmp1 := .gt
  cmp2 := .le
  key1 := ⟨[(.ofString "v", .bytes [97]), (.ofString "k", .int64 1)]⟩
  key2 := ⟨[(.ofString "v", .bytes [97])]⟩

theorem equalRange_fits :
    equalRange.req.Fits indexed (some 0) 4 [.ofString "v", .ofString "k"] :=
  ⟨rfl, by decide, rfl, ⟨by decide, by decide⟩, ⟨by decide, by decide⟩⟩

/-- The index is scanned for it. -/
theorem range_loses_no_row_by_index : ∃ (t : BTree InMemoryPageManager) (sc : Scanner),
    qlRange equalFrom indexed = .ok equalRange ∧ dbScan t indexed equalRange.req = .ok (.ok sc) ∧
    sc.indexNo = some 0 ∧
    ∃ L : List (List Value), L.Nodup ∧
      (∀ row ∈ L, ∃ pk, indexed.putRows (fun _ => none) threeRows pk = some row) ∧
      (∀ pk row n, indexed.putRows (fun _ => none) threeRows pk = some row →
        qlEval equalFrom (.ofCols indexed.cols row) = .ok (.int64 n) → n ≠ 0 → row ∈ L) ∧
      ∀ fuel, 6 ≤ fuel → sc.collect t indexed fuel = .ok (L.map (Record.ofCols indexed.cols)) := by
  obtain ⟨t, hread, hrep⟩ := threeRows_in_memory
  have hrange : qlRange equalFrom indexed = .ok equalRange := by decide +kernel
  obtain ⟨sc, hscan, _, hno, _⟩ := dbScan_plain indexed_sound indexed_plain hread equalRange_fits
  obtain ⟨range, hrange', h⟩ := range_loses_no_row indexed_sound indexed_plain hread hrep equalFrom
  obtain rfl := Except.ok.inj (hrange.symm.trans hrange')
  have hrows := h sc hscan
  rw [length_threeRows] at hrows
  exact ⟨t, sc, hrange, hscan, hno, hrows⟩

end Scans

/-! ## Which index is found -/

/-- The tree a scan finds for a first key of these columns: the primary key if it starts with them,
or else the first of the shortest indexes that do. -/
def Found (tdef : TableDef) (keys cols : List Bytes) : Prop :=
  if keys <+: tdef.keyCols then cols = tdef.keyCols
  else FirstMax (fun c : List Bytes => OrderDual.toDual c.length)
    (tdef.indexes.filter fun c => isPrefix c keys) cols

section Found

variable {tdef : TableDef} {keys : List Bytes}

theorem Found.unique {cols cols' : List Bytes} (h : Found tdef keys cols)
    (h' : Found tdef keys cols') : cols = cols' := by
  unfold Found at h h'
  split at h
  · rename_i hp
    rw [if_pos hp] at h'
    rw [h, h']
  · rename_i hp
    rw [if_neg hp] at h'
    exact h.unique h'

theorem Found.prefix_of {cols : List Bytes} (h : Found tdef keys cols) : keys <+: cols := by
  unfold Found at h
  split at h
  · rename_i hp
    rw [h]
    exact hp
  · exact TableDef.isPrefix_iff.mp (List.mem_filter.mp h.mem).2

/-- A first key without columns is one of the primary key. -/
theorem Found.nil (tdef : TableDef) : Found tdef [] tdef.keyCols := by
  unfold Found
  rw [if_pos List.nil_prefix]

/-- A place among the later indexes, counted from the one before. -/
theorem later_index {index cols : List Bytes} {indexes : List (List Bytes)} {i w : Nat}
    (h : i + 1 ≤ w ∧ indexes[w - (i + 1)]? = some cols) :
    i ≤ w ∧ (index :: indexes)[w - i]? = some cols := by
  refine ⟨by omega, ?_⟩
  rw [show w - i = w - (i + 1) + 1 by omega, List.getElem?_cons_succ]
  exact h.2

/-- The shortest so far stays the first of the shortest. -/
theorem findIndexLoop_some (keys : List Bytes) (indexes : List (List Bytes)) (i w : Nat)
    (best : List Bytes) :
    ∃ w' cols, findIndexLoop keys indexes i (some (w, best.length)) = some (w', cols.length) ∧
      FirstMax (fun c : List Bytes => OrderDual.toDual c.length)
        (best :: indexes.filter fun c => isPrefix c keys) cols ∧
      ((w' = w ∧ cols = best) ∨ (i ≤ w' ∧ indexes[w' - i]? = some cols)) := by
  induction indexes generalizing i w best with
  | nil => exact ⟨w, best, rfl, .singleton _ _, Or.inl ⟨rfl, rfl⟩⟩
  | cons index indexes ih =>
      rw [findIndexLoop]
      by_cases hp : isPrefix index keys = true
      · rw [if_neg (not_not.mpr hp), List.filter_cons_of_pos (p := fun c => isPrefix c keys) hp]
        by_cases hlt : index.length < best.length
        · rw [if_pos hlt]
          obtain ⟨w', cols, hloop, hmax, hw⟩ := ih (i + 1) i index
          refine ⟨w', cols, hloop, hmax.worse (lt_of_lt_of_le hlt (hmax.le List.mem_cons_self)), ?_⟩
          rcases hw with ⟨rfl, rfl⟩ | hw
          · exact Or.inr ⟨le_refl _, by rw [Nat.sub_self, List.getElem?_cons_zero]⟩
          · exact Or.inr (later_index hw)
        · rw [if_neg hlt]
          obtain ⟨w', cols, hloop, hmax, hw⟩ := ih (i + 1) w best
          exact ⟨w', cols, hloop, hmax.skip (not_lt.mp hlt), hw.imp_right later_index⟩
      · rw [if_pos hp, List.filter_cons_of_neg (p := fun c => isPrefix c keys) hp]
        obtain ⟨w', cols, hloop, hmax, hw⟩ := ih (i + 1) w best
        exact ⟨w', cols, hloop, hmax, hw.imp_right later_index⟩

theorem findIndexLoop_none {indexes : List (List Bytes)} {i : Nat}
    (hex : ∃ c ∈ indexes, isPrefix c keys = true) :
    ∃ w cols, findIndexLoop keys indexes i none = some (w, cols.length) ∧
      FirstMax (fun c : List Bytes => OrderDual.toDual c.length)
        (indexes.filter fun c => isPrefix c keys) cols ∧ i ≤ w ∧ indexes[w - i]? = some cols := by
  induction indexes generalizing i with
  | nil =>
      obtain ⟨c, hc, _⟩ := hex
      cases hc
  | cons index indexes ih =>
      rw [findIndexLoop]
      by_cases hp : isPrefix index keys = true
      · rw [if_neg (not_not.mpr hp), List.filter_cons_of_pos (p := fun c => isPrefix c keys) hp]
        obtain ⟨w, cols, hloop, hmax, hw⟩ := findIndexLoop_some keys indexes (i + 1) i index
        refine ⟨w, cols, hloop, hmax, ?_⟩
        rcases hw with ⟨rfl, rfl⟩ | hw
        · exact ⟨le_refl _, by rw [Nat.sub_self, List.getElem?_cons_zero]⟩
        · exact later_index hw
      · rw [if_pos hp, List.filter_cons_of_neg (p := fun c => isPrefix c keys) hp]
        obtain ⟨c, hc, hcp⟩ := hex
        have hc' : c ∈ indexes := (List.mem_cons.mp hc).resolve_left fun he => hp (he ▸ hcp)
        obtain ⟨w, cols, hloop, hmax, hw⟩ := ih (i := i + 1) ⟨c, hc', hcp⟩
        exact ⟨w, cols, hloop, hmax, later_index hw⟩

/-- **The index that is found**, if some tree starts with the columns. -/
theorem findIndex_found (hs : tdef.Sound) {cols : List Bytes}
    (hcols : cols ∈ tdef.keyCols :: tdef.indexes) (hp : keys <+: cols) :
    ∃ indexNo p found, findIndex tdef keys = .ok indexNo ∧
      scannedTree tdef indexNo = .ok (p, found) ∧ Found tdef keys found := by
  unfold findIndex Found
  by_cases hpk : isPrefix tdef.keyCols keys = true
  · rw [if_pos hpk]
    exact ⟨none, tdef.keyPrefix, tdef.keyCols, rfl, rfl, by rw [if_pos (TableDef.isPrefix_iff.mp hpk)]⟩
  · rw [if_neg hpk]
    have hindex : cols ∈ tdef.indexes := (List.mem_cons.mp hcols).resolve_left fun he =>
      hpk (TableDef.isPrefix_iff.mpr (he ▸ hp))
    obtain ⟨w, found, hloop, hmax, _, hget⟩ :=
      findIndexLoop_none (i := 0) ⟨cols, hindex, TableDef.isPrefix_iff.mpr hp⟩
    rw [hloop]
    rw [Nat.sub_zero] at hget
    have hw := (List.getElem?_eq_some_iff.mp hget).1
    rw [← hs.parallel] at hw
    refine ⟨some w, _, found, rfl,
      TableDef.scannedTree_some.mpr ⟨List.getElem?_eq_getElem hw, hget⟩, ?_⟩
    rw [if_neg fun h => hpk (TableDef.isPrefix_iff.mpr h)]
    exact hmax

end Found

/-! ## Whether the range is accepted -/

/-- The filter strays to another index. Of the tree it fits best, some columns are fixed and the
next has an upper bound but no lower one, so that only the second key names it; and the tree that is
found for the first key does not go on with it. -/
def Strays (pins : List Pin) (tdef : TableDef) : Prop :=
  ∃ cols found col, Chosen pins tdef cols ∧ fixedRun pins cols ≠ 0 ∧
    cols[fixedRun pins cols]? = some col ∧ upperBy pins col = true ∧ lowerBy pins col = false ∧
    Found tdef (cols.take (fixedRun pins cols)) found ∧
    ¬ cols.take (fixedRun pins cols + 1) <+: found

section Accepted

variable {σ : Type} [PageManager σ] {t : BTree σ} {m : Contents} {tdef : TableDef}

/-- Values that the filter compares are of their columns' types. -/
theorem types_of_pins {filter : QLNode} {key : Record}
    (h : ∀ c ∈ key.cells, ∃ op, ⟨op, c.1, c.2⟩ ∈ filter.pins tdef) :
    key.vals.map Value.type = tdef.typesOf key.cols := by
  rw [Record.vals, Record.cols, TableDef.typesOf, List.map_map, List.map_map]
  refine List.map_congr_left fun c hc => ?_
  obtain ⟨op, hmem⟩ := h c hc
  obtain ⟨i, hi, htype⟩ := pins_type hmem
  show c.2.type = (cellAt tdef.cols tdef.types c.1).getD .error
  unfold cellAt
  rw [show tdef.cols.findIdx? (· = c.1) = some i from hi, Option.bind_some, htype]
  rfl

theorem KeyEnd.cells {pins : List Pin} {strict weak cmp : CMP} {ends : List (Bytes × Value)}
    (h : KeyEnd pins strict weak ends cmp) : ∀ c ∈ ends, ∃ op, ⟨op, c.1, c.2⟩ ∈ pins := by
  cases h with
  | none => exact fun _ hc => absurd hc List.not_mem_nil
  | @bound cmp col v _ hmem =>
      intro c hc
      rw [List.mem_singleton.mp hc]
      exact ⟨_, hmem⟩

theorem KeyEnd.cmp_eq {pins : List Pin} {strict weak cmp : CMP} {ends : List (Bytes × Value)}
    (h : KeyEnd pins strict weak ends cmp) : cmp = strict ∨ cmp = weak := by
  cases h with
  | none => exact Or.inr rfl
  | bound hcmp _ => exact hcmp

theorem QLRange.From.dir {range : QLRange} {pins : List Pin} {cells lo hi : List (Bytes × Value)}
    (h : range.From pins cells lo hi) : range.cmp2.positive = !range.cmp1.positive := by
  rcases h.lo.cmp_eq with h1 | h1 <;> rcases h.hi.cmp_eq with h2 | h2 <;> rw [h1, h2] <;> rfl

/-- **When a range is accepted**: the tree found for its first key starts with the columns of the
second one. -/
theorem QLRange.From.accepted_iff (hs : tdef.Sound) (hplain : Plain tdef.types)
    (hread : t.Readable m) {filter : QLNode} {range : QLRange} {cells lo hi : List (Bytes × Value)}
    (hfrom : range.From (filter.pins tdef) cells lo hi) {cols : List Bytes}
    (hcols : cols ∈ tdef.keyCols :: tdef.indexes) (hp : range.key1.cols <+: cols) :
    (∃ sc, dbScan t tdef range.req = .ok (.ok sc)) ↔
      ∃ found, Found tdef range.key1.cols found ∧ range.key2.cols <+: found := by
  obtain ⟨indexNo, p, found, hfind, htree, hfound⟩ := findIndex_found hs hcols hp
  have hcell : ∀ c ∈ cells, ∃ op, ⟨op, c.1, c.2⟩ ∈ filter.pins tdef :=
    fun c hc => ⟨.eq, hfrom.eqs c hc⟩
  have htypes1 : range.key1.vals.map Value.type = tdef.typesOf range.key1.cols :=
    types_of_pins fun c hc => by
      rw [hfrom.key1] at hc
      exact (List.mem_append.mp hc).elim (hcell c) (hfrom.lo.cells c)
  have htypes2 : range.key2.vals.map Value.type = tdef.typesOf range.key2.cols :=
    types_of_pins fun c hc => by
      rw [hfrom.key2] at hc
      exact (List.mem_append.mp hc).elim (hcell c) (hfrom.hi.cells c)
  constructor
  · intro h
    obtain ⟨sc, hscan⟩ := h
    obtain ⟨indexNo', p', cols', hfits⟩ := fits_of_dbScan hs hscan
    -- the scan chose the same tree
    obtain rfl := Except.ok.inj (hfind.symm.trans hfits.index)
    obtain ⟨rfl, rfl⟩ := Prod.mk.inj (Except.ok.inj (htree.symm.trans hfits.tree))
    exact ⟨found, hfound, hfits.key2.cols⟩
  · intro h
    obtain ⟨found', hfound', hp2⟩ := h
    obtain rfl := hfound.unique hfound'
    have hfits : range.req.Fits tdef indexNo p found :=
      ⟨hfrom.dir, hfind, htree, ⟨hfound.prefix_of, htypes1⟩, ⟨hp2, htypes2⟩⟩
    obtain ⟨sc, hscan, _⟩ := dbScan_plain hs hplain hread hfits
    exact ⟨sc, hscan⟩

/-- **A planned range is accepted** unless the filter strays to another index. -/
theorem planned_accepted (hs : tdef.Sound) (hplain : Plain tdef.types) (hread : t.Readable m)
    (filter : QLNode) : ∃ range, qlRange filter tdef = .ok range ∧
      ((∃ sc, dbScan t tdef range.req = .ok (.ok sc)) ↔ ¬ Strays (filter.pins tdef) tdef) := by
  obtain ⟨range, cols, hrange, hchosen, hplanned⟩ := qlRange_spec filter tdef
  refine ⟨range, hrange, ?_⟩
  have hmem : cols ∈ tdef.keyCols :: tdef.indexes := FirstMax.mem hchosen
  generalize he : fixedRun (filter.pins tdef) cols = e at hplanned
  -- whatever strays does so from the tree that was chosen
  have hstray : Strays (filter.pins tdef) tdef → e ≠ 0 ∧ ∃ col, cols[e]? = some col ∧
      upperBy (filter.pins tdef) col = true ∧ lowerBy (filter.pins tdef) col = false ∧
      ∃ found, Found tdef (cols.take e) found ∧ ¬ cols.take (e + 1) <+: found := by
    intro h
    obtain ⟨cols', found, col, hchosen', hne, hat, hupper, hlower, hfound, hno⟩ := h
    obtain rfl : cols' = cols := FirstMax.unique hchosen' hchosen
    rw [he] at hne hat hfound hno
    exact ⟨hne, col, hat, hupper, hlower, found, hfound, hno⟩
  rcases hplanned with ⟨rfl, hrun⟩ | ⟨cells, lo, hi, hfrom, hcells, hlo, hhi, hpk⟩
  · have hiff := (QLRange.from_empty (filter.pins tdef)).accepted_iff hs hplain hread hmem
      List.nil_prefix
    refine ⟨fun _ h => (hstray h).1 hrun, fun _ => hiff.mpr ⟨tdef.keyCols, ?_, List.nil_prefix⟩⟩
    exact Found.nil tdef
  · have hk1 : range.key1.cols = cols.take e ++ lo.map Prod.fst := by
      rw [Record.cols, hfrom.key1, List.map_append, hcells]
    have hk2 : range.key2.cols = cols.take e ++ hi.map Prod.fst := by
      rw [Record.cols, hfrom.key2, List.map_append, hcells]
    have htake : cols.take (e + 1) = cols.take e ++ cols[e]?.toList := List.take_add_one
    unfold EndsAt at hlo hhi
    rw [he] at hlo hhi
    have haccept : range.key1.cols <+: cols → range.key2.cols <+: range.key1.cols →
        ∃ sc, dbScan t tdef range.req = .ok (.ok sc) := by
      intro hp1 hp2
      obtain ⟨_, _, found, _, _, hfound⟩ := findIndex_found hs hmem hp1
      exact (hfrom.accepted_iff hs hplain hread hmem hp1).mpr
        ⟨found, hfound, hp2.trans hfound.prefix_of⟩
    cases hat : cols[e]? with
    | none =>
        rw [hat] at hlo hhi
        obtain rfl : lo = [] := hlo
        obtain rfl : hi = [] := hhi
        refine ⟨fun _ h => ?_, fun _ => haccept ?_ ?_⟩
        · obtain ⟨_, col, hcol, _⟩ := hstray h
          rw [hat] at hcol
          cases hcol
        · rw [hk1, List.map_nil, List.append_nil]
          exact List.take_prefix _ _
        · exact hk1 ▸ hk2 ▸ List.prefix_rfl
    | some col =>
        rw [hat] at hlo hhi htake
        dsimp only at hlo hhi
        rw [Option.toList_some] at htake
        rw [hlo] at hk1
        rw [hhi] at hk2
        cases hlower : lowerBy (filter.pins tdef) col with
        | true =>
            -- the first key goes as far as the second
            rw [hlower, if_pos rfl] at hk1
            refine ⟨fun _ h => ?_, fun _ => haccept ?_ ?_⟩
            · obtain ⟨_, col', hcol, _, hno, _⟩ := hstray h
              obtain rfl := Option.some.inj (hat.symm.trans hcol)
              rw [hlower] at hno
              cases hno
            · rw [hk1, ← htake]
              exact List.take_prefix _ _
            · rw [hk1, hk2]
              split
              · exact List.prefix_rfl
              · rw [List.append_nil]
                exact List.prefix_append _ _
        | false =>
            rw [hlower, if_neg Bool.false_ne_true, List.append_nil] at hk1
            have hp1 : range.key1.cols <+: cols := by
              rw [hk1]
              exact List.take_prefix _ _
            cases hupper : upperBy (filter.pins tdef) col with
            | false =>
                rw [hupper, if_neg Bool.false_ne_true, List.append_nil] at hk2
                refine ⟨fun _ h => ?_, fun _ => haccept hp1 (hk1 ▸ hk2 ▸ List.prefix_rfl)⟩
                obtain ⟨_, col', hcol, hyes, _⟩ := hstray h
                obtain rfl := Option.some.inj (hat.symm.trans hcol)
                rw [hupper] at hyes
                cases hyes
            | true =>
                rw [hupper, if_pos rfl, ← htake] at hk2
                rw [hfrom.accepted_iff hs hplain hread hmem hp1, hk1, hk2]
                constructor
                · intro h hs'
                  obtain ⟨found, hfound, hp2⟩ := h
                  obtain ⟨_, _, _, _, _, found', hfound', hno⟩ := hstray hs'
                  exact hno (hfound'.unique hfound ▸ hp2)
                · intro hno
                  obtain ⟨_, _, found, _, _, hfound⟩ := findIndex_found hs hmem hp1
                  rw [hk1] at hfound
                  refine ⟨found, hfound, by_contra fun hp2 => ?_⟩
                  by_cases h0 : e = 0
                  · -- a first key without columns is the primary key's
                    rw [h0, List.take_zero] at hcells hfound
                    have hkey : cols = tdef.keyCols := hpk (List.map_eq_nil_iff.mp hcells) (by
                      rw [hlower, if_neg Bool.false_ne_true] at hlo
                      exact List.map_eq_nil_iff.mp hlo)
                    rw [hfound.unique (Found.nil tdef), ← hkey] at hp2
                    exact hp2 (List.take_prefix _ _)
                  · refine hno ⟨cols, found, col, hchosen, ?_, ?_, hupper, hlower, ?_, ?_⟩
                    · rw [he]
                      exact h0
                    · rw [he]
                      exact hat
                    · rw [he]
                      exact hfound
                    · rw [he]
                      exact hp2

/-! ## A filter that strays -/

/-- A table with the primary key `c, k` and the index `c, b`. -/
def twoTrees : TableDef where
  name := .ofString "t"
  cols := [.ofString "c", .ofString "k", .ofString "b", .ofString "x"]
  types := [.int64, .int64, .int64, .int64]
  pkeys := 2
  indexes := [[.ofString "c", .ofString "b", .ofString "k"]]
  keyPrefix := 3
  indexPrefixes := [4]

theorem twoTrees_sound : twoTrees.Sound where
  checked := by
    refine ⟨by decide, by decide, by decide, by decide, fun index h => ?_⟩
    rw [List.mem_singleton.mp h]
    exact ⟨by decide, by decide, by decide, by decide, by decide⟩
  nodup := by decide
  parallel := rfl
  spaces := by decide
  small := by decide

theorem BTree.readable_empty : (⟨0, {}⟩ : BTree InMemoryPageManager).Readable [] :=
  (BTree.denotes_empty InMemoryPageManager.owns_empty).readable InMemoryPageManager.lawful

/-- With both columns fixed the index is found. -/
theorem planned_accepted_equal : ∃ range,
    qlRange (.logic .and (.cmp .eq (.sym (.ofString "c")) (.int64 1))
      (.cmp .eq (.sym (.ofString "b")) (.int64 5))) twoTrees = .ok range ∧
    ((∃ sc, dbScan (⟨0, {}⟩ : BTree InMemoryPageManager) twoTrees range.req = .ok (.ok sc)) ↔
      ¬ Strays (QLNode.pins twoTrees (.logic .and (.cmp .eq (.sym (.ofString "c")) (.int64 1))
        (.cmp .eq (.sym (.ofString "b")) (.int64 5)))) twoTrees) :=
  planned_accepted twoTrees_sound (by unfold Plain; decide) BTree.readable_empty _

/-- `c = 1 AND b < 5` fits the index best, but its first key finds the primary key. -/
theorem planned_not_accepted : ¬ ∀ (t : BTree InMemoryPageManager) (m : Contents) (tdef : TableDef),
    tdef.Sound → Plain tdef.types → t.Readable m → ∀ filter, ∃ range,
      qlRange filter tdef = .ok range ∧ ∃ sc, dbScan t tdef range.req = .ok (.ok sc) := by
  intro h
  obtain ⟨range, hrange, sc, hscan⟩ := h _ _ _ twoTrees_sound (by unfold Plain; decide)
    BTree.readable_empty (.logic .and (.cmp .eq (.sym (.ofString "c")) (.int64 1))
      (.cmp .lt (.sym (.ofString "b")) (.int64 5)))
  have hplanned : qlRange (.logic .and (.cmp .eq (.sym (.ofString "c")) (.int64 1))
      (.cmp .lt (.sym (.ofString "b")) (.int64 5))) twoTrees =
      .ok ⟨.ge, .lt, ⟨[(.ofString "c", .int64 1)]⟩,
        ⟨[(.ofString "c", .int64 1), (.ofString "b", .int64 5)]⟩⟩ := by decide
  obtain rfl := Except.ok.inj (hplanned.symm.trans hrange)
  obtain ⟨indexNo, p, cols, hfits⟩ := fits_of_dbScan twoTrees_sound hscan
  have hindex : indexNo = none := (Except.ok.inj
    (hfits.index.symm.trans (by decide : findIndex twoTrees [.ofString "c"] = .ok none)))
  subst hindex
  obtain ⟨rfl, rfl⟩ := Prod.mk.inj (Except.ok.inj hfits.tree)
  have hno : ¬ [Bytes.ofString "c", .ofString "b"] <+: twoTrees.keyCols := by decide
  exact hno hfits.key2.cols

end Accepted

end SqlDb
