import SqlDb.Access.Table

/-!
# What scans and lookups read

Between two bounds of a tree there are the entries of the rows that are between the
bounds, and each is read back as its row. A lookup's range has the one row, if there is
one. A scan of an index is followed by a lookup for every entry, which finds its row.
-/

namespace SqlDb

open Outcome OrdMap

section Rows

variable {tdef : TableDef} {rows : Rows} {m : Contents} {indexNo : Option Nat} {p : Nat}
  {cols : List Bytes}

/-- Between two bounds there are entries of one space. -/
theorem inSpace_of_cmpOk {cmp1 cmp2 : CMP} (hdir : cmp2.positive = !cmp1.positive)
    {key s t : Bytes} (h1 : cmpOk key cmp1 (Bytes.be keyPrefixSize p ++ s) = true)
    (h2 : cmpOk key cmp2 (Bytes.be keyPrefixSize p ++ t) = true) : InSpace p key := by
  have hup : ∀ {cmp : CMP} {ref : Bytes}, cmp.positive = true → cmpOk key cmp ref = true →
    ref ≤ key := by
    intro cmp ref hp hok
    cases cmp with
    | ge => exact of_decide_eq_true hok
    | gt => exact le_of_lt (of_decide_eq_true hok)
    | _ => cases hp
  have hdown : ∀ {cmp : CMP} {ref : Bytes}, cmp.positive = false → cmpOk key cmp ref = true →
      key ≤ ref := by
    intro cmp ref hp hok
    cases cmp with
    | le => exact of_decide_eq_true hok
    | lt => exact le_of_lt (of_decide_eq_true hok)
    | _ => cases hp
  cases hp : cmp1.positive with
  | true => exact inSpace_of_between (hup hp h1) (hdown (by rw [hdir, hp]; rfl) h2)
  | false => exact inSpace_of_between (hup (by rw [hdir, hp]; rfl) h2) (hdown hp h1)

namespace Rows

variable {pk row : List Value}

theorem Fit.length (hfit : rows.Fit tdef) (hlen : tdef.cols.length = tdef.types.length)
    (h : rows pk = some row) : tdef.cols.length = row.length := by
  rw [hlen, ← hfit.types h, List.length_map]

theorem Fit.plain_pick (hfit : rows.Fit tdef) (hs : tdef.Sound)
    (ht : scannedTree tdef indexNo = .ok (p, cols)) (h : rows pk = some row) :
    Plain ((tdef.pick row cols).map Value.type) := by
  rw [TableDef.type_pick (hfit.types h)]
  exact hs.plain_tree (hfit.plain h) ht

/-- **An entry belongs to one row**: its columns have the primary key's among them. -/
theorem Fit.row_of_pick (hfit : rows.Fit tdef) (hs : tdef.Sound)
    (ht : scannedTree tdef indexNo = .ok (p, cols)) {pk' row' : List Value} (h : rows pk = some row)
    (h' : rows pk' = some row') (he : tdef.pick row cols = tdef.pick row' cols) : row = row' := by
  have hkey : tdef.pick row tdef.keyCols = tdef.pick row' tdef.keyCols := by
    refine List.map_congr_left fun col hcol => ?_
    exact List.map_inj_left.mp he col ((hs.tree_cols ht).2.2.2 col hcol)
  rw [TableDef.pick_keyCols hs.nodup (hfit.length hs.checked.types h),
    TableDef.pick_keyCols hs.nodup (hfit.length hs.checked.types h'), ← hfit.key h,
    ← hfit.key h'] at hkey
  rw [hkey, h'] at h
  exact (Option.some.inj h).symm

theorem Fit.keyOf_inj (hfit : rows.Fit tdef) (hs : tdef.Sound)
    (ht : scannedTree tdef indexNo = .ok (p, cols)) {pk' row' : List Value} (h : rows pk = some row)
    (h' : rows pk' = some row')
    (he : keyOf p (tdef.pick row cols) = keyOf p (tdef.pick row' cols)) : row = row' := by
  have hp := (hs.tree_cols ht).1
  refine hfit.row_of_pick hs ht h h' (SqlDb.keyOf_inj hp hp ?_ (hfit.plain_pick hs ht h) he).2
  rw [TableDef.type_pick (hfit.types h), TableDef.type_pick (hfit.types h')]

end Rows

/-- The primary key of a row. -/
theorem TableDef.Sound.pick_key (hs : tdef.Sound) {row : List Value}
    (hlen : tdef.cols.length = row.length) : tdef.pick row tdef.keyCols = row.take tdef.npkeys :=
  TableDef.pick_keyCols hs.nodup hlen

namespace TableDef.Represents

/-- The binding of a row in the table's own space. -/
theorem lookup_row (hrep : tdef.Represents m rows) (hs : tdef.Sound) {pk : List Value}
    (htypes : pk.map Value.type = tdef.types.take tdef.npkeys)
    (hplain : Plain (pk.map Value.type)) : lookup m (keyOf tdef.keyPrefix pk) =
      (rows pk).map fun row => encoded (row.drop tdef.npkeys) := by
  have hspace := inSpace_keyOf tdef.keyPrefix pk
  have hentries := hrep.entries none tdef.keyPrefix tdef.keyCols rfl (keyOf tdef.keyPrefix pk)
  have hp : tdef.keyPrefix < 2 ^ 32 := hs.small _ (by simp)
  cases hrow : rows pk with
  | some row =>
      refine (hentries _ hspace).mpr ⟨pk, row, hrow, ?_, rfl⟩
      rw [hs.pick_key (hrep.fit.length hs.checked.types hrow), ← hrep.fit.key hrow]
  | none =>
      cases hlook : lookup m (keyOf tdef.keyPrefix pk) with
      | none => rfl
      | some val =>
          obtain ⟨pk', row', hrow', he, _⟩ := (hentries val hspace).mp hlook
          rw [hs.pick_key (hrep.fit.length hs.checked.types hrow'), ← hrep.fit.key hrow'] at he
          have htypes' : pk.map Value.type = pk'.map Value.type := by
            rw [htypes, hrep.fit.key hrow', List.map_take, hrep.fit.types hrow']
          rw [(keyOf_inj hp hp htypes' hplain he).2, hrow'] at hrow
          cases hrow

end TableDef.Represents

end Rows

/-! ## Lookups -/

/-- What a lookup answers. -/
def TableDef.getAnswer (tdef : TableDef) (rows : Rows) (rec : Record) : Answer Record :=
  match checkRecord tdef rec tdef.npkeys with
  | .error err => .error (some err)
  | .ok pk =>
      match rows pk with
      | none => .error none
      | some row => .ok (.ofCols tdef.cols row)

section Lookups

variable {σ : Type} [PageManager σ] {t : BTree σ} {m : Contents} {tdef : TableDef} {rows : Rows}

/-- The request of a lookup fits. -/
theorem fits_keyCols (hs : tdef.Sound) {rec : Record} {pk : List Value}
    (hnames : rec.Names tdef tdef.npkeys pk) :
    (ScanReq.mk .ge .le (.ofCols tdef.keyCols pk) (.ofCols tdef.keyCols pk)).Fits tdef none
      tdef.keyPrefix tdef.keyCols := by
  have hlen : tdef.keyCols.length = pk.length := by
    rw [hs.checked.length_keyCols, hnames.length hs.checked.width]
  have hbound : tdef.Bound tdef.keyCols (.ofCols tdef.keyCols pk) := by
    refine ⟨(Record.cols_ofCols hlen).symm ▸ List.prefix_refl _, ?_⟩
    rw [Record.cols_ofCols hlen, Record.vals_ofCols hlen, hnames.types,
      TableDef.typesOf_keyCols hs.nodup hs.checked.types]
  exact ⟨rfl, by rw [Record.cols_ofCols hlen]; exact TableDef.findIndex_keyCols tdef, rfl, hbound,
    hbound⟩

/-- A full key is no more than itself, whatever the relation. -/
theorem encodeKeyPartial_full {p : Nat} {values : List Value} {cols : List Bytes}
    (hlen : cols.length = values.length) (cmp : CMP) :
    encodeKeyPartial p values tdef cols cmp = encodeKey p values := by
  unfold encodeKeyPartial
  rw [List.drop_of_length_le (le_of_eq hlen)]
  cases encodeKey p values with
  | error f => rfl
  | ok out =>
      rw [ok_bind]
      split
      · rfl
      · show Except.ok (out ++ []) = _
        rw [List.append_nil]

/-- The range from a key to itself. -/
theorem filter_key {m : Contents} (hm : Sorted m) (key : Bytes) :
    m.filter (fun r => cmpOk r.1 .ge key && cmpOk r.1 .le key) =
      ((lookup m key).map fun val => (key, val)).toList := by
  have heq : ∀ r : Bytes × Bytes, (cmpOk r.1 .ge key && cmpOk r.1 .le key) = decide (r.1 = key) := by
    intro r
    rw [Bool.eq_iff_iff]
    simp only [cmpOk, Bool.and_eq_true, decide_eq_true_eq]
    constructor
    · exact fun h => le_antisymm h.2 h.1
    · rintro rfl
      exact ⟨le_refl _, le_refl _⟩
  rw [List.filter_congr fun r _ => heq r]
  induction m with
  | nil => rfl
  | cons r m ih =>
      obtain ⟨habove, hm⟩ := sorted_cons.mp hm
      rw [List.filter_cons, lookup, List.find?_cons]
      by_cases hk : r.1 = key
      · have hnil : m.filter (fun r => decide (r.1 = key)) = [] := by
          rw [List.filter_eq_nil_iff]
          intro x hx
          have := habove x hx
          rw [hk] at this
          simpa using ne_of_gt this
        simp only [hk, decide_true, if_true, hnil, Option.map_some, Option.toList_some]
        rw [← hk]
      · simp only [hk, decide_false, Bool.false_eq_true, if_false]
        exact ih hm

/-- **`db_get` finds the row** under the primary key that the record names. Only an `ERROR` column
of the key makes it throw. -/
theorem dbGet_spec (hs : tdef.Sound) (hread : t.Readable m) (hrep : tdef.Represents m rows)
    (rec : Record) : Ends (fun f => Thrown f ∧ ¬ Plain (tdef.types.take tdef.npkeys))
      (fun ans => ans = tdef.getAnswer rows rec) (dbGet t tdef rec) := by
  unfold dbGet TableDef.getAnswer
  cases hcheck : checkRecord tdef rec tdef.npkeys with
  | error err => exact rfl
  | ok pk =>
      have hnames := (checkRecord_eq_ok hs.checked.types).mp hcheck
      have hlen : tdef.keyCols.length = pk.length := by
        rw [hs.checked.length_keyCols, hnames.length hs.checked.width]
      have hfits := fits_keyCols hs hnames
      have hvals : (Record.ofCols tdef.keyCols pk).vals = pk := Record.vals_ofCols hlen
      have hkey := encodeKey_ends tdef.keyPrefix pk
      cases henc : encodeKey tdef.keyPrefix pk with
      | error f =>
          rw [henc] at hkey
          dsimp only
          rw [dbScan_eq hs hfits, hvals, encodeKeyPartial_full hlen, henc, error_bind, error_bind]
          refine ⟨hkey, fun hplain => ?_⟩
          rw [← hnames.types] at hplain
          rw [encodeKey_eq _ hplain] at henc
          cases henc
      | ok key =>
          rw [henc] at hkey
          obtain ⟨hplain, rfl⟩ := hkey
          -- the whole key is given, so both ends of the range are its encoding
          have hfull : ∀ cmp, encodeKeyPartial tdef.keyPrefix (Record.ofCols tdef.keyCols pk).vals
              tdef tdef.keyCols cmp = .ok (keyOf tdef.keyPrefix pk) := by
            intro cmp
            rw [hvals, encodeKeyPartial_full hlen, henc]
          obtain ⟨sc, hscan, hreq, hno, hend, hat⟩ := dbScan_fits hs hread hfits (hfull _) (hfull _)
          -- what is left of the range is the row's own binding
          have hleft : sc.left m (seekPos m (keyOf tdef.keyPrefix pk) .ge) =
              ((rows pk).map fun row => (keyOf tdef.keyPrefix pk,
                encoded (row.drop tdef.npkeys))).toList := by
            unfold Scanner.left
            rw [hend, show sc.cmp1 = .ge from congrArg ScanReq.cmp1 hreq,
              show sc.cmp2 = .le from congrArg ScanReq.cmp2 hreq,
              walk_between hread.sorted (show CMP.positive .le = !CMP.positive .ge from rfl)]
            show m.filter _ = _
            rw [filter_key hread.sorted, hrep.lookup_row hs hnames.types hplain, Option.map_map]
            rfl
          dsimp only
          rw [hscan, ok_bind]
          dsimp only
          have hvalid := hat.valid
          rw [hleft] at hvalid
          cases hrow : rows pk with
          | none =>
              rw [hrow] at hvalid
              rw [show sc.valid = .ok false from hvalid]
              exact rfl
          | some row =>
              rw [hrow] at hvalid hleft
              obtain ⟨hassert, hderef⟩ := hat.deref hleft
              rw [show sc.valid = .ok true from hvalid, ok_bind, if_pos rfl,
                Scanner.derefRow, hassert,
                ok_bind, hderef, ok_bind]
              dsimp only
              -- the cells come back, key and value together
              have hdec := decodeRow_keyOf (hrep.fit.plain hrow) hs.checked.types tdef.keyPrefix
                (hrep.fit.types hrow)
              rw [← hrep.fit.key hrow] at hdec
              rw [hdec]
              exact rfl

theorem dbGet_eq (hs : tdef.Sound) (hplain : Plain tdef.types) (hread : t.Readable m)
    (hrep : tdef.Represents m rows) (rec : Record) :
    dbGet t tdef rec = .ok (tdef.getAnswer rows rec) := by
  obtain ⟨ans, hans, rfl⟩ := (dbGet_spec hs hread hrep rec).exists_ok
    fun f hf => hf.2 (plain_take hplain _)
  exact hans

/-! ## Entries -/

theorem cellAt_map_self {α : Type} {cols : List Bytes} {col : Bytes} (f : Bytes → α)
    (hcol : col ∈ cols) : cellAt cols (cols.map f) col = some (f col) := by
  induction cols with
  | nil => cases hcol
  | cons c cols ih =>
      rw [List.map_cons, cellAt_cons]
      by_cases hc : c = col
      · rw [if_pos hc, hc]
      · rw [if_neg hc]
        exact ih ((List.mem_cons.mp hcol).resolve_left (Ne.symm hc))

/-- The cells that `deref` takes from an index key. -/
theorem keyCells_eq {cols keys : List Bytes} (f : Bytes → Value) (h : ∀ col ∈ keys, col ∈ cols) :
    keyCells (.ofCols cols (cols.map f)) keys = .ok (keys.map fun col => (col, f col)) := by
  induction keys with
  | nil => rfl
  | cons col keys ih =>
      obtain ⟨hcol, hkeys⟩ := List.forall_mem_cons.mp h
      rw [keyCells, get_ofCols, cellAt_map_self f hcol]
      dsimp only
      rw [ih hkeys]
      rfl

/-- The record of a row's own key names it. -/
theorem Rows.Fit.names_key (hfit : rows.Fit tdef) (hs : tdef.Sound) {pk row : List Value}
    (hrow : rows pk = some row) : (Record.ofCols tdef.keyCols (row.take tdef.npkeys)).Names tdef
      tdef.npkeys (row.take tdef.npkeys) := by
  have hlen := hfit.length hs.checked.types hrow
  have hkeylen : tdef.keyCols.length = (row.take tdef.npkeys).length := by
    rw [TableDef.keyCols, List.length_take, List.length_take, hlen]
  refine ⟨by rw [List.map_take, hfit.types hrow], ?_, ?_⟩
  · have hcells := map_cellAt (hs.nodup.sublist (List.take_sublist tdef.npkeys tdef.cols)) hkeylen
    rw [← hcells]
    exact List.map_congr_left fun col _ => get_ofCols _ _ _
  · rw [Record.cols_ofCols hkeylen]
    exact fun col hcol => hcol

/-- It is made of the row's own cells. -/
theorem TableDef.Sound.key_cells (hs : tdef.Sound) {row : List Value}
    (hlen : tdef.cols.length = row.length) :
    (⟨tdef.keyCols.map fun col => (col, (cellAt tdef.cols row col).getD .error)⟩ : Record) =
      .ofCols tdef.keyCols (row.take tdef.npkeys) := by
  have hzip := List.zip_map' (f := id) (g := fun col => (cellAt tdef.cols row col).getD .error)
    (l := tdef.keyCols)
  rw [List.map_id] at hzip
  rw [← hs.pick_key hlen, Record.ofCols, TableDef.pick, hzip]
  rfl

/-- The record of a row's own key finds the row. -/
theorem getAnswer_row (hs : tdef.Sound) (hfit : rows.Fit tdef) {pk row : List Value}
    (hrow : rows pk = some row) :
    tdef.getAnswer rows (.ofCols tdef.keyCols (row.take tdef.npkeys)) = .ok (.ofCols tdef.cols row) := by
  rw [TableDef.getAnswer, (checkRecord_eq_ok hs.checked.types).mpr (hfit.names_key hs hrow)]
  dsimp only
  rw [← hfit.key hrow, hrow]

/-- **An entry is read back as its row.** -/
theorem readBinding_entry (hs : tdef.Sound) (hread : t.Readable m) (hrep : tdef.Represents m rows)
    {indexNo : Option Nat} {p : Nat} {cols : List Bytes}
    (ht : scannedTree tdef indexNo = .ok (p, cols)) {pk row : List Value}
    (hrow : rows pk = some row) :
    readBinding t tdef indexNo (keyOf p (tdef.pick row cols), tdef.entryVal row indexNo) =
      .ok (.ofCols tdef.cols row) := by
  have hlen := hrep.fit.length hs.checked.types hrow
  cases indexNo with
  | none =>
      obtain ⟨rfl, rfl⟩ := Prod.mk.inj (Except.ok.inj ht)
      show decodeRow tdef (keyOf tdef.keyPrefix _) (encoded _) = _
      rw [hs.pick_key hlen]
      exact decodeRow_keyOf (hrep.fit.plain hrow) hs.checked.types _ (hrep.fit.types hrow)
  | some i =>
      obtain ⟨_, _, hknown, hkeys⟩ := hs.tree_cols ht
      have htypes := TableDef.type_pick (hrep.fit.types hrow) cols
      have hdec : decodeKey (keyOf p (tdef.pick row cols)) (tdef.typesOf cols) =
          .ok (tdef.pick row cols) := by
        rw [← htypes]
        exact decodeKey_keyOf p (hrep.fit.plain_pick hs ht hrow)
      have hcells := hs.key_cells hlen
      show fetchRow t tdef i _ [] = _
      rw [fetchRow, require_pos rfl, ok_bind, ht, ok_bind]
      dsimp only
      rw [TableDef.columnTypes_eq hs.checked.types hknown, ok_bind, hdec, ok_bind, TableDef.pick,
        keyCells_eq _ hkeys, ok_bind, hcells, dbGet_eq hs (hrep.fit.plain hrow) hread hrep,
        getAnswer_row hs hrep.fit hrow]
      rfl

end Lookups

end SqlDb
