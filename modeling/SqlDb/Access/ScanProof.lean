import SqlDb.Access.InsertRows

/-!
# Scans return exactly their range

The entries between the two bounds are those of the rows whose leading columns are in
range, in the order of the tree that is scanned. Whoever reads a scanner to its end gets
these rows, each once and whole.
-/

namespace SqlDb

open Outcome OrdMap Lex

/-- The row's leading columns are in the range. -/
structure ScanReq.Holds (req : ScanReq) (tdef : TableDef) (cols : List Bytes) (row : List Value) :
    Prop where
  cmp1 : req.cmp1.holds
    (compareValues ((tdef.pick row cols).take req.key1.vals.length) req.key1.vals) = true
  cmp2 : req.cmp2.holds
    (compareValues ((tdef.pick row cols).take req.key2.vals.length) req.key2.vals) = true

/-- A row's binding in a tree of its table. -/
def TableDef.entry (tdef : TableDef) (indexNo : Option Nat) (p : Nat) (cols : List Bytes)
    (row : List Value) : Bytes × Bytes :=
  (keyOf p (tdef.pick row cols), tdef.entryVal row indexNo)

section Scan

variable {tdef : TableDef} {rows : Rows} {m : Contents} {indexNo : Option Nat} {p : Nat}
  {cols : List Bytes}

/-- Keys are ordered as their tuples. -/
theorem compareValues_of_lt {a b : List Value} (htypes : a.map Value.type = b.map Value.type)
    (hplain : Plain (a.map Value.type)) (h : keyOf p a < keyOf p b) : compareValues a b = .lt := by
  have hparts := encoded_parts htypes hplain
  cases ho : compareValues a b with
  | lt => rfl
  | eq =>
      rw [ho] at hparts
      rw [keyOf, keyOf, show encoded a = encoded b from hparts] at h
      exact absurd h (lt_irrefl _)
  | gt =>
      rw [ho] at hparts
      exact absurd (PartsBelow.append_left hparts (Bytes.be keyPrefixSize p)).lt (lt_asymm h)

theorem compareValues_of_gt {a b : List Value} (htypes : a.map Value.type = b.map Value.type)
    (hplain : Plain (a.map Value.type)) (h : keyOf p b < keyOf p a) : compareValues a b = .gt := by
  have hparts := encoded_parts htypes hplain
  cases ho : compareValues a b with
  | gt => rfl
  | eq =>
      rw [ho] at hparts
      rw [keyOf, keyOf, show encoded a = encoded b from hparts] at h
      exact absurd h (lt_irrefl _)
  | lt =>
      rw [ho] at hparts
      exact absurd (PartsBelow.append_left hparts (Bytes.be keyPrefixSize p)).lt (lt_asymm h)

/-- A row's entry satisfies a relation to a bound as its leading columns do. -/
theorem cmpOk_entry (hs : tdef.Sound) (ht : scannedTree tdef indexNo = .ok (p, cols))
    (hfit : rows.Fit tdef) {pk row : List Value} (hrow : rows pk = some row) {key : Record}
    (hb : tdef.Bound cols key) (cmp : CMP) :
    cmpOk (keyOf p (tdef.pick row cols)) cmp (tdef.boundKey p cols key cmp) =
      cmp.holds (compareValues ((tdef.pick row cols).take key.vals.length) key.vals) := by
  have htypes := TableDef.type_pick (hfit.types hrow) cols
  refine cmpOk_keyOf ?_ (hfit.plain_pick hs ht hrow) (by rw [htypes])
  rw [List.map_take, htypes, hb.take]

/-- Entries of rows come from a list of rows. -/
theorem exists_rows {f : List Value → Bytes × Bytes} {es : Contents}
    (h : ∀ r ∈ es, ∃ pk row, rows pk = some row ∧ r = f row) :
    ∃ L : List (List Value), es = L.map f ∧ ∀ row ∈ L, ∃ pk, rows pk = some row := by
  induction es with
  | nil => exact ⟨[], rfl, fun _ hrow => absurd hrow List.not_mem_nil⟩
  | cons r es ih =>
      obtain ⟨⟨pk, row, hrow, he⟩, hrest⟩ := List.forall_mem_cons.mp h
      obtain ⟨L, hL, hrows⟩ := ih hrest
      refine ⟨row :: L, by rw [hL, he]; rfl, List.forall_mem_cons.mpr ⟨⟨pk, hrow⟩, hrows⟩⟩

/-- **What is between two bounds** of a tree. -/
theorem entries_between (hs : tdef.Sound) (hm : Sorted m) (hrep : tdef.Represents m rows)
    {req : ScanReq} (hfits : req.Fits tdef indexNo p cols) {r : Bytes × Bytes} :
    (r ∈ m ∧ cmpOk r.1 req.cmp1 (tdef.boundKey p cols req.key1 req.cmp1) = true ∧
      cmpOk r.1 req.cmp2 (tdef.boundKey p cols req.key2 req.cmp2) = true) ↔
    ∃ pk row, rows pk = some row ∧ r = tdef.entry indexNo p cols row ∧ req.Holds tdef cols row := by
  obtain ⟨hdir, _, ht, hkey1, hkey2⟩ := hfits
  have hentries := fun key val => hrep.entries indexNo p cols ht key val
  constructor
  · intro h
    obtain ⟨hr, h1, h2⟩ := h
    have hspace : InSpace p r.1 := by
      unfold TableDef.boundKey keyOf at h1 h2
      rw [List.append_assoc] at h1 h2
      exact inSpace_of_cmpOk hdir h1 h2
    have hlook : lookup m r.1 = some r.2 := (lookup_eq_some hm).mpr hr
    obtain ⟨pk, row, hrow, hk, hv⟩ := (hentries r.1 r.2 hspace).mp hlook
    refine ⟨pk, row, hrow, Prod.ext hk hv, ?_, ?_⟩
    · rw [← cmpOk_entry hs ht hrep.fit hrow hkey1, ← hk]
      exact h1
    · rw [← cmpOk_entry hs ht hrep.fit hrow hkey2, ← hk]
      exact h2
  · intro h
    obtain ⟨pk, row, hrow, rfl, h1, h2⟩ := h
    have hlook := (hentries _ _ (inSpace_keyOf p _)).mpr ⟨pk, row, hrow, rfl, rfl⟩
    refine ⟨lookup_mem hlook, ?_, ?_⟩
    · exact (cmpOk_entry hs ht hrep.fit hrow hkey1 req.cmp1).trans h1
    · exact (cmpOk_entry hs ht hrep.fit hrow hkey2 req.cmp2).trans h2

/-- The bindings between two bounds, in the order of the walk. -/
def ScanReq.between (req : ScanReq) (m : Contents) (key1 key2 : Bytes) : Contents :=
  directed req.cmp1.positive (m.filter fun r => cmpOk r.1 req.cmp1 key1 && cmpOk r.1 req.cmp2 key2)

theorem mem_between {req : ScanReq} {key1 key2 : Bytes} {r : Bytes × Bytes} :
    r ∈ req.between m key1 key2 ↔
      r ∈ m ∧ cmpOk r.1 req.cmp1 key1 = true ∧ cmpOk r.1 req.cmp2 key2 = true := by
  unfold ScanReq.between directed
  split <;> simp [List.mem_filter]

theorem length_between (req : ScanReq) (m : Contents) (key1 key2 : Bytes) :
    (req.between m key1 key2).length ≤ m.length := by
  unfold ScanReq.between directed
  split
  · exact List.length_filter_le _ _
  · rw [List.length_reverse]
    exact List.length_filter_le _ _

theorem pairwise_between (hm : Sorted m) (req : ScanReq) (key1 key2 : Bytes) :
    (req.between m key1 key2).Pairwise fun a b =>
      if req.cmp1.positive then a.1 < b.1 else b.1 < a.1 := by
  unfold ScanReq.between directed
  split
  · exact hm.filter _
  · rw [List.pairwise_reverse]
    exact hm.filter _

theorem compareValues_self (values : List Value) : compareValues values values = .eq := by
  induction values with
  | nil => rfl
  | cons v values ih =>
      have hv : v.compare v = .eq := by
        cases v with
        | error => rfl
        | int64 v => exact (cmp_eq_eq_iff _ _).mpr rfl
        | bytes s =>
            show cmp s s = .eq
            unfold cmp cmpUsing
            rw [if_neg (List.lt_irrefl _), if_neg (List.lt_irrefl _)]
      rw [compareValues, hv, ih]
      rfl

theorem compareValues_swap (values values' : List Value) :
    (compareValues values values').swap = compareValues values' values := by
  induction values generalizing values' with
  | nil => cases values' <;> rfl
  | cons v values ih =>
      cases values' with
      | nil => rfl
      | cons v' values' =>
          rw [compareValues, Ordering.swap_then, Value.compare_swap, ih]
          rfl

/-- Lists in one strict order are told apart by their members. -/
theorem eq_of_ordered {L L' : List (List Value)} {f : List Value → List Value} {o : Ordering}
    (ho : o ≠ .eq) (h : L.Pairwise fun a b => compareValues (f a) (f b) = o)
    (h' : L'.Pairwise fun a b => compareValues (f a) (f b) = o)
    (hmem : ∀ row, row ∈ L ↔ row ∈ L') : L = L' := by
  have hne : ∀ a b, compareValues (f a) (f b) = o → a ≠ b := by
    rintro a b hab rfl
    rw [compareValues_self] at hab
    exact ho hab.symm
  have hperm : L.Perm L' :=
    (List.perm_ext_iff_of_nodup (h.imp (hne _ _)) (h'.imp (hne _ _))).mpr hmem
  refine hperm.eq_of_pairwise (fun a b _ _ hab hba => ?_) h h'
  -- of two rows one is first
  rw [← compareValues_swap, hab] at hba
  cases o with
  | lt => cases hba
  | eq => exact absurd rfl ho
  | gt => cases hba

/-- The rows of a range, each once, in the order of a walk. -/
structure ScanReq.Lists (req : ScanReq) (tdef : TableDef) (rows : Rows) (cols : List Bytes)
    (L : List (List Value)) : Prop where
  mem : ∀ row, row ∈ L ↔ (∃ pk, rows pk = some row) ∧ req.Holds tdef cols row
  nodup : L.Nodup
  order : L.Pairwise fun a b => compareValues (tdef.pick a cols) (tdef.pick b cols) =
    if req.cmp1.positive then .lt else .gt

theorem ScanReq.Lists.unique {req : ScanReq} {L L' : List (List Value)}
    (h : req.Lists tdef rows cols L) (h' : req.Lists tdef rows cols L') : L = L' := by
  refine eq_of_ordered ?_ h.order h'.order fun row => (h.mem row).trans (h'.mem row).symm
  split <;> exact nofun

/-- **The entries between two bounds** are those of the rows in range. -/
theorem exists_lists (hs : tdef.Sound) (hm : Sorted m) (hrep : tdef.Represents m rows)
    {req : ScanReq} (hfits : req.Fits tdef indexNo p cols) : ∃ L, req.Lists tdef rows cols L ∧
      (∀ row ∈ L, ∃ pk, rows pk = some row) ∧
      req.between m (tdef.boundKey p cols req.key1 req.cmp1) (tdef.boundKey p cols req.key2 req.cmp2) =
        L.map (tdef.entry indexNo p cols) := by
  have ht := hfits.tree
  have hmem := fun r => (mem_between (r := r)).trans (entries_between hs hm hrep hfits)
  have horder := pairwise_between hm req (tdef.boundKey p cols req.key1 req.cmp1)
    (tdef.boundKey p cols req.key2 req.cmp2)
  -- the entries of the range belong to rows, and come in the order of their keys
  generalize req.between m _ _ = es at hmem horder ⊢
  obtain ⟨L, rfl, hL⟩ := exists_rows fun r (hr : r ∈ es) => by
    obtain ⟨pk, row, hrow, he, _⟩ := (hmem r).mp hr
    exact ⟨pk, row, hrow, he⟩
  have hpair : L.Pairwise fun a b => compareValues (tdef.pick a cols) (tdef.pick b cols) =
      if req.cmp1.positive then .lt else .gt := by
    rw [List.pairwise_map] at horder
    refine List.Pairwise.imp_of_mem (fun {a b} ha hb hab => ?_) horder
    obtain ⟨pk, hrow⟩ := hL a ha
    obtain ⟨pk', hrow'⟩ := hL b hb
    have htypes : (tdef.pick a cols).map Value.type = (tdef.pick b cols).map Value.type := by
      rw [TableDef.type_pick (hrep.fit.types hrow), TableDef.type_pick (hrep.fit.types hrow')]
    have hpl := hrep.fit.plain_pick hs ht hrow
    by_cases hp : req.cmp1.positive = true
    · rw [if_pos hp] at hab ⊢
      exact compareValues_of_lt htypes hpl hab
    · rw [if_neg hp] at hab ⊢
      exact compareValues_of_gt htypes hpl hab
  refine ⟨L, ⟨fun row => ⟨fun hrow => ?_, fun h => ?_⟩, ?_, hpair⟩, hL, rfl⟩
  · obtain ⟨pk', row', hrow', he, hholds⟩ := (hmem _).mp (List.mem_map_of_mem hrow)
    obtain ⟨pk, hpk⟩ := hL row hrow
    rw [hrep.fit.keyOf_inj hs ht hpk hrow' (congrArg Prod.fst he)]
    exact ⟨⟨pk', hrow'⟩, hholds⟩
  · obtain ⟨⟨pk, hpk⟩, hholds⟩ := h
    obtain ⟨row', hrow', he⟩ := List.mem_map.mp ((hmem _).mpr ⟨pk, row, hpk, rfl, hholds⟩)
    obtain ⟨pk', hpk'⟩ := hL row' hrow'
    rw [← hrep.fit.keyOf_inj hs ht hpk' hpk (congrArg Prod.fst he)]
    exact hrow'
  · -- two of one row would have equal cells
    refine hpair.imp fun {a b} hab he => ?_
    rw [he, compareValues_self] at hab
    split at hab <;> cases hab

variable {σ : Type} [PageManager σ] {t : BTree σ}

/-- A request that is accepted fits. -/
theorem fits_of_dbScan (hs : tdef.Sound) {req : ScanReq} {sc : Scanner}
    (hscan : dbScan t tdef req = .ok (.ok sc)) : ∃ indexNo p cols, req.Fits tdef indexNo p cols := by
  by_contra hno
  obtain ⟨err, herr⟩ := dbScan_unfit (t := t) hs fun indexNo p cols hfits =>
    hno ⟨indexNo, p, cols, hfits⟩
  rw [hscan] at herr
  cases herr

/-- A scan that is accepted is where the entries of its rows begin. -/
theorem scansAt_rows (hs : tdef.Sound) (hplain : Plain tdef.types) (hread : t.Readable m)
    (hrep : tdef.Represents m rows) {req : ScanReq} {sc : Scanner}
    (hscan : dbScan t tdef req = .ok (.ok sc)) :
    ∃ p cols i L, scannedTree tdef sc.indexNo = .ok (p, cols) ∧ req.Lists tdef rows cols L ∧
      ScansAt t m sc i ∧ L.length ≤ m.length ∧
      List.Forall₂ (fun r row => readBinding t tdef sc.indexNo r = .ok (.ofCols tdef.cols row))
        (sc.left m i) L := by
  obtain ⟨indexNo, p, cols, hfits⟩ := fits_of_dbScan hs hscan
  have ht := hfits.tree
  obtain ⟨sc', hscan', hreq, hno, hend, hat⟩ := dbScan_plain hs hplain hread hfits
  rw [hscan] at hscan'
  obtain rfl : sc = sc' := Except.ok.inj (Except.ok.inj hscan')
  obtain ⟨L, hlists, hL, hes⟩ := exists_lists hs hread.sorted hrep hfits
  refine ⟨p, cols, _, L, by rw [hno]; exact ht, hlists, hat, ?_, ?_⟩
  · have hlen := length_between req m (tdef.boundKey p cols req.key1 req.cmp1)
      (tdef.boundKey p cols req.key2 req.cmp2)
    rwa [hes, List.length_map] at hlen
  · -- what is left of the walk are the rows' entries
    have hleft : sc.left m (seekPos m (tdef.boundKey p cols req.key1 req.cmp1) req.cmp1) =
        L.map (tdef.entry indexNo p cols) := by
      rw [← hes, Scanner.left, hend, show sc.cmp1 = req.cmp1 from congrArg ScanReq.cmp1 hreq,
        show sc.cmp2 = req.cmp2 from congrArg ScanReq.cmp2 hreq]
      exact walk_between hread.sorted hfits.dir _ _
    rw [hleft, List.forall₂_map_left_iff, List.forall₂_same]
    intro row hrow
    obtain ⟨pk, hpk⟩ := hL row hrow
    rw [hno]
    exact readBinding_entry hs hread hrep ht hpk

/-- **Scans return exactly their range.** Read to its end, a scan of any tree of a table gives the
rows whose leading columns satisfy both relations, each once, whole and in column order, ascending
or descending by the tree's columns. -/
theorem scan_exact (hs : tdef.Sound) (hplain : Plain tdef.types) (hread : t.Readable m)
    (hrep : tdef.Represents m rows) {req : ScanReq} {sc : Scanner}
    (hscan : dbScan t tdef req = .ok (.ok sc)) :
    ∃ p cols, scannedTree tdef sc.indexNo = .ok (p, cols) ∧ ∃ L, req.Lists tdef rows cols L ∧
      ∀ fuel, m.length ≤ fuel → sc.collect t tdef fuel = .ok (L.map (Record.ofCols tdef.cols)) := by
  obtain ⟨p, cols, i, L, ht, hlists, hat, hlen, hrows⟩ := scansAt_rows hs hplain hread hrep hscan
  refine ⟨p, cols, ht, L, hlists, fun fuel hfuel => hat.collect ?_ ?_⟩
  · exact List.forall₂_map_right_iff.mpr hrows
  · rw [List.length_map]
    exact hlen.trans hfuel

end Scan

/-! ## Scanners on their way -/

section Walks

variable {σ : Type} [PageManager σ] {t : BTree σ} {tdef : TableDef} {rows : Rows} {m : Contents}

/-- A scanner of the table, made by `db_scan` and moved any number of times. -/
inductive Scanner.Walks (t : BTree σ) (tdef : TableDef) : Scanner → Prop where
  | scan {req : ScanReq} {sc : Scanner} : dbScan t tdef req = .ok (.ok sc) → Walks t tdef sc
  | next {sc sc' : Scanner} : Walks t tdef sc → sc.next t = .ok sc' → Walks t tdef sc'

theorem encodeKeyPartial_space {p : Nat} {values : List Value} {cols : List Bytes} {cmp : CMP}
    {out : Bytes} (h : encodeKeyPartial p values tdef cols cmp = .ok out) :
    ∃ s, out = Bytes.be keyPrefixSize p ++ s := by
  unfold encodeKeyPartial at h
  obtain ⟨key, hkey, h⟩ := bind_eq_ok.mp h
  have hends := encodeKey_ends p values
  rw [hkey] at hends
  obtain ⟨_, rfl⟩ := hends
  split at h
  · exact ⟨_, (Except.ok.inj h).symm⟩
  · obtain ⟨pad, _, h⟩ := bind_eq_ok.mp h
    refine ⟨encoded values ++ pad, ?_⟩
    rw [← Except.ok.inj h, keyOf, List.append_assoc]

/-- **What a scanner has before it** lies in the space of its tree. -/
theorem Scanner.Walks.ahead {sc : Scanner} (h : sc.Walks t tdef) (hs : tdef.Sound)
    (hread : t.Readable m) : ∃ i p cols, ScansAt t m sc i ∧
      scannedTree tdef sc.indexNo = .ok (p, cols) ∧ ∀ r ∈ sc.left m i, r ∈ m ∧ InSpace p r.1 := by
  induction h with
  | @scan req sc hscan =>
      obtain ⟨indexNo, p, cols, hfits⟩ := fits_of_dbScan hs hscan
      have hrun := hscan
      rw [dbScan_eq hs hfits] at hrun
      obtain ⟨keyEnd, hend, hrun⟩ := bind_eq_ok.mp hrun
      obtain ⟨key, hkey, _⟩ := bind_eq_ok.mp hrun
      obtain ⟨sc', hscan', hreq, hno, hend', hat⟩ := dbScan_fits hs hread hfits hkey hend
      rw [hscan] at hscan'
      obtain rfl : sc = sc' := Except.ok.inj (Except.ok.inj hscan')
      refine ⟨_, p, cols, hat, by rw [hno]; exact hfits.tree, fun r hr => ?_⟩
      obtain ⟨s, hs1⟩ := encodeKeyPartial_space hkey
      obtain ⟨s', hs2⟩ := encodeKeyPartial_space hend
      rw [Scanner.left, hend', show sc.cmp1 = req.cmp1 from congrArg ScanReq.cmp1 hreq,
        show sc.cmp2 = req.cmp2 from congrArg ScanReq.cmp2 hreq,
        walk_between hread.sorted hfits.dir] at hr
      obtain ⟨hmem, h1, h2⟩ := mem_between.mp hr
      rw [hs1] at h1
      rw [hs2] at h2
      exact ⟨hmem, inSpace_of_cmpOk hfits.dir h1 h2⟩
  | @next sc sc' _ hnext ih =>
      obtain ⟨i, p, cols, hat, ht, hahead⟩ := ih
      cases hleft : sc.left m i with
      | nil =>
          -- `next` requires `valid`
          have hvalid := hat.valid
          rw [hleft] at hvalid
          rw [Scanner.next, Scanner.assertValid, hvalid, ok_bind, require_neg (by simp),
            error_bind] at hnext
          cases hnext
      | cons r rest =>
          obtain ⟨iter, i', hnext', hat', hrest⟩ := hat.next hleft
          rw [hnext] at hnext'
          obtain rfl := Except.ok.inj hnext'
          refine ⟨i', p, cols, hat', ht, fun r' hr' => hahead r' ?_⟩
          rw [hrest] at hr'
          rw [hleft]
          exact List.mem_cons_of_mem r hr'

/-- **Reading a scanner** gives a row of the table while it is valid, and fails the check that it is
if it is not. -/
theorem Scanner.Walks.deref {sc : Scanner} (h : sc.Walks t tdef) (hs : tdef.Sound)
    (hread : t.Readable m) (hrep : tdef.Represents m rows) :
    (∃ pk row, rows pk = some row ∧ sc.deref t tdef = .ok (.ofCols tdef.cols row)) ∨
      sc.deref t tdef = .error (.asserts .scanValid) := by
  obtain ⟨i, p, cols, hat, ht, hahead⟩ := h.ahead hs hread
  cases hleft : sc.left m i with
  | nil =>
      right
      have hvalid := hat.valid
      rw [hleft] at hvalid
      have hassert : sc.assertValid = .error (.asserts .scanValid) := by
        rw [Scanner.assertValid, hvalid, ok_bind, require_neg (by simp)]
      unfold Scanner.deref
      cases sc.indexNo with
      | none => rw [Scanner.derefRow, hassert, error_bind]
      | some j =>
          dsimp only
          rw [hassert, error_bind]
  | cons r rest =>
      left
      obtain ⟨hmem, hspace⟩ := hahead r (by rw [hleft]; exact List.mem_cons_self)
      obtain ⟨pk, row, hrow, hk, hv⟩ := (hrep.entries _ p cols ht r.1 r.2 hspace).mp
        ((lookup_eq_some hread.sorted).mpr hmem)
      refine ⟨pk, row, hrow, ?_⟩
      rw [hat.read hleft, show r = (keyOf p (tdef.pick row cols), tdef.entryVal row sc.indexNo) from
        Prod.ext hk hv]
      exact readBinding_entry hs hread hrep ht hrow

end Walks

/-! ## A table in memory -/

/-- The rows with `v = 'a'`, from the last one to the first. -/
def equalDown : ScanReq :=
  ⟨.le, .ge, ⟨[(.ofString "v", .bytes [97])]⟩, ⟨[(.ofString "v", .bytes [97])]⟩⟩

theorem equalDown_fits : equalDown.Fits indexed (some 0) 4 [.ofString "v", .ofString "k"] :=
  ⟨rfl, by decide, rfl, ⟨by decide, by decide⟩, ⟨by decide, by decide⟩⟩

/-- They are read by the index. -/
theorem scan_exact_by_index : ∃ (t : BTree InMemoryPageManager) (sc : Scanner),
    dbScan t indexed equalDown = .ok (.ok sc) ∧ sc.indexNo = some 0 ∧
    ∃ p cols, scannedTree indexed sc.indexNo = .ok (p, cols) ∧
      ∃ L, equalDown.Lists indexed (indexed.putRows (fun _ => none) threeRows) cols L ∧
      ∀ fuel, 6 ≤ fuel → sc.collect t indexed fuel = .ok (L.map (Record.ofCols indexed.cols)) := by
  obtain ⟨t, hread, hrep⟩ := threeRows_in_memory
  obtain ⟨sc, hscan, _, hno, _⟩ := dbScan_plain indexed_sound indexed_plain hread equalDown_fits
  have h := scan_exact indexed_sound indexed_plain hread hrep hscan
  rw [length_threeRows] at h
  exact ⟨t, sc, hscan, hno, h⟩

end SqlDb
