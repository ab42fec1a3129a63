import SqlDb.Access.ScanWalk

/-!
# A table as a map

What a table is for: a map from primary keys to rows. It is stored in several trees of
one store, each in a key space of its own: one under the primary key, with the rest of the
row, and one for each index, under the index columns. `Represents` says that the bindings
of these spaces are the rows' and no others.
-/

namespace SqlDb

open Outcome OrdMap

/-- The rows of a table, by primary key. -/
abbrev Rows := List Value → Option (List Value)

/-- A definition as `table_new` makes it, with distinct column names. -/
structure TableDef.Sound (tdef : TableDef) : Prop where
  checked : tdef.Checked
  nodup : tdef.cols.Nodup
  parallel : tdef.indexPrefixes.length = tdef.indexes.length
  spaces : (tdef.keyPrefix :: tdef.indexPrefixes).Nodup
  small : ∀ p ∈ tdef.keyPrefix :: tdef.indexPrefixes, p < 2 ^ 32

/-- What a row's key is bound to: the rest of the row, or nothing in an index. -/
def TableDef.entryVal (tdef : TableDef) (row : List Value) : Option Nat → Bytes
  | none => encoded (row.drop tdef.npkeys)
  | some _ => []

/-- The rows are well typed, each under its own key. -/
structure Rows.Fit (rows : Rows) (tdef : TableDef) : Prop where
  plain : ∀ {pk row}, rows pk = some row → Plain tdef.types
  types : ∀ {pk row}, rows pk = some row → row.map Value.type = tdef.types
  key : ∀ {pk row}, rows pk = some row → pk = row.take tdef.npkeys

/-- The table's spaces hold its rows' bindings, and no other. -/
structure TableDef.Represents (tdef : TableDef) (m : Contents) (rows : Rows) : Prop where
  fit : rows.Fit tdef
  entries : ∀ indexNo p cols, scannedTree tdef indexNo = .ok (p, cols) → ∀ key val, InSpace p key →
    (lookup m key = some val ↔ ∃ pk row, rows pk = some row ∧
      key = keyOf p (tdef.pick row cols) ∧ val = tdef.entryVal row indexNo)

namespace TableDef

variable {tdef : TableDef}

/-! ## Columns of a tree -/

theorem Checked.length_keyCols (h : tdef.Checked) : tdef.keyCols.length = tdef.npkeys := by
  rw [keyCols, List.length_take]
  exact Nat.min_eq_left h.width

theorem scannedTree_some {i p : Nat} {cols : List Bytes} :
    scannedTree tdef (some i) = .ok (p, cols) ↔
      tdef.indexPrefixes[i]? = some p ∧ tdef.indexes[i]? = some cols := by
  unfold scannedTree
  cases hp : tdef.indexPrefixes[i]? with
  | none => simp [hp]
  | some q =>
      cases hcols : tdef.indexes[i]? with
      | none => simp [hp, hcols]
      | some cs => simp [hp, hcols]

/-- The columns of a tree: distinct columns of the table, the primary key's among them. -/
theorem Sound.tree_cols (h : tdef.Sound) {indexNo : Option Nat} {p : Nat} {cols : List Bytes}
    (ht : scannedTree tdef indexNo = .ok (p, cols)) : p < 2 ^ 32 ∧ cols.Nodup ∧
      (∀ col ∈ cols, col ∈ tdef.cols) ∧ ∀ col ∈ tdef.keyCols, col ∈ cols := by
  cases indexNo with
  | none =>
      obtain ⟨rfl, rfl⟩ := Prod.mk.inj (Except.ok.inj ht)
      exact ⟨h.small _ (by simp), h.nodup.sublist (List.take_sublist _ _),
        fun col hcol => List.mem_of_mem_take hcol, fun col hcol => hcol⟩
  | some i =>
      obtain ⟨hp, hcols⟩ := scannedTree_some.mp ht
      have hindex := h.checked.index cols (List.mem_of_getElem? hcols)
      exact ⟨h.small p (List.mem_cons_of_mem _ (List.mem_of_getElem? hp)),
        hindex.nodup, hindex.known,
        hindex.key⟩

/-- **Every tree has its own space.** -/
theorem Sound.tree_unique (h : tdef.Sound) {a b : Option Nat} {p q : Nat} {cols cols' : List Bytes}
    (ha : scannedTree tdef a = .ok (p, cols)) (hb : scannedTree tdef b = .ok (q, cols'))
    (he : p = q) : a = b := by
  obtain ⟨hfirst, hrest⟩ := List.nodup_cons.mp h.spaces
  cases a with
  | none =>
      obtain ⟨rfl, _⟩ := Prod.mk.inj (Except.ok.inj ha)
      cases b with
      | none => rfl
      | some j => exact absurd (List.mem_of_getElem? (scannedTree_some.mp hb).1) (he ▸ hfirst)
  | some i =>
      have hi := (scannedTree_some.mp ha).1
      cases b with
      | none =>
          obtain ⟨rfl, _⟩ := Prod.mk.inj (Except.ok.inj hb)
          exact absurd (List.mem_of_getElem? hi) (he ▸ hfirst)
      | some j =>
          have hj := (scannedTree_some.mp hb).1
          rw [he] at hi
          obtain ⟨hi', hi⟩ := List.getElem?_eq_some_iff.mp hi
          obtain ⟨hj', hj⟩ := List.getElem?_eq_some_iff.mp hj
          exact congrArg some ((List.Nodup.getElem_inj_iff hrest).mp (hi.trans hj.symm))

theorem columnType_eq {col : Bytes} (hlen : tdef.cols.length = tdef.types.length)
    (hcol : col ∈ tdef.cols) :
    columnType tdef col = .ok ((cellAt tdef.cols tdef.types col).getD .error) := by
  obtain ⟨type, htype⟩ := Option.isSome_iff_exists.mp ((cellAt_isSome (le_of_eq hlen)).mpr hcol)
  rw [columnType, htype]
  rfl

theorem columnTypes_eq {cols : List Bytes} (hlen : tdef.cols.length = tdef.types.length)
    (hcols : ∀ col ∈ cols, col ∈ tdef.cols) : columnTypes tdef cols = .ok (tdef.typesOf cols) := by
  induction cols with
  | nil => rfl
  | cons col cols ih =>
      obtain ⟨hcol, hcols⟩ := List.forall_mem_cons.mp hcols
      rw [columnTypes, columnType_eq hlen hcol, ok_bind, ih hcols]
      rfl

/-! ## Bounds that are accepted -/

/-- A bound names some leading columns of the tree, with values of their types. -/
structure Bound (tdef : TableDef) (cols : List Bytes) (key : Record) : Prop where
  cols : key.cols <+: cols
  types : key.vals.map Value.type = tdef.typesOf key.cols

theorem isPrefix_iff {long short : List Bytes} : isPrefix long short = true ↔ short <+: long :=
  List.isPrefixOf_iff_prefix

theorem checkBoundTypes_eq {cells : List (Bytes × Value)}
    (hlen : tdef.cols.length = tdef.types.length) (hcols : ∀ c ∈ cells, c.1 ∈ tdef.cols) :
    ∃ r, checkBoundTypes tdef cells = .ok r ∧
      (r = .ok () ↔ cells.map (fun c => c.2.type) = tdef.typesOf (cells.map Prod.fst)) := by
  induction cells with
  | nil => exact ⟨.ok (), rfl, by simp [typesOf]⟩
  | cons cell cells ih =>
      obtain ⟨col, v⟩ := cell
      obtain ⟨hcol, hcols⟩ := List.forall_mem_cons.mp hcols
      obtain ⟨r, hr, hiff⟩ := ih hcols
      rw [checkBoundTypes, columnType_eq hlen hcol, ok_bind]
      simp only [typesOf, List.map_cons, List.cons.injEq] at hiff ⊢
      by_cases htype : v.type = (cellAt tdef.cols tdef.types col).getD .error
      · rw [if_neg (not_not.mpr htype)]
        exact ⟨r, hr, hiff.trans (by simp [htype])⟩
      · rw [if_pos htype]
        exact ⟨_, rfl, by simp [htype]⟩

theorem checkBound_eq {cols : List Bytes} (hlen : tdef.cols.length = tdef.types.length)
    (hcols : ∀ col ∈ cols, col ∈ tdef.cols) (key : Record) :
    ∃ r, checkBound tdef cols key = .ok r ∧ (r = .ok () ↔ tdef.Bound cols key) := by
  unfold checkBound
  by_cases hp : isPrefix cols key.cols = true
  · rw [if_neg (not_not.mpr hp)]
    have hp' := isPrefix_iff.mp hp
    obtain ⟨r, hr, hiff⟩ := checkBoundTypes_eq hlen fun c (hc : c ∈ key.cells) =>
      hcols c.1 (hp'.subset (List.mem_map_of_mem hc))
    refine ⟨r, hr, hiff.trans ?_⟩
    have hvals : key.cells.map (fun c => c.2.type) = key.vals.map Value.type := by
      rw [Record.vals, List.map_map]
      rfl
    rw [hvals]
    exact ⟨fun h => ⟨hp', h⟩, fun h => h.types⟩
  · rw [if_pos hp]
    exact ⟨_, rfl, by simp only [reduceCtorEq, false_iff]; exact fun h => hp (isPrefix_iff.mpr h.cols)⟩

theorem findIndexLoop_spec {keys : List Bytes} {indexes : List (List Bytes)} {i : Nat}
    {winner : Option (Nat × Nat)} {w size : Nat}
    (h : findIndexLoop keys indexes i winner = some (w, size)) : winner = some (w, size) ∨
      ∃ index, indexes[w - i]? = some index ∧ i ≤ w ∧ keys <+: index := by
  induction indexes generalizing i winner with
  | nil => exact Or.inl h
  | cons index indexes ih =>
      have hlater : (∃ index', indexes[w - (i + 1)]? = some index' ∧ i + 1 ≤ w ∧ keys <+: index') →
          ∃ index', (index :: indexes)[w - i]? = some index' ∧ i ≤ w ∧ keys <+: index' := by
        intro hex
        obtain ⟨index', hget, hle, hp⟩ := hex
        refine ⟨index', ?_, by omega, hp⟩
        rw [show w - i = w - (i + 1) + 1 by omega, List.getElem?_cons_succ]
        exact hget
      have hhere : isPrefix index keys = true → (i, index.length) = (w, size) →
          ∃ index', (index :: indexes)[w - i]? = some index' ∧ i ≤ w ∧ keys <+: index' := by
        intro hp he
        obtain ⟨rfl, _⟩ := Prod.mk.inj he
        exact ⟨index, by rw [Nat.sub_self, List.getElem?_cons_zero], le_refl _, isPrefix_iff.mp hp⟩
      -- it wins over the best so far, loses to it, or does not have the prefix
      unfold findIndexLoop at h
      by_cases hp : isPrefix index keys = true
      · rw [if_neg (not_not.mpr hp)] at h
        cases winner with
        | none =>
            rcases ih h with he | hex
            · exact Or.inr (hhere hp (Option.some.inj he))
            · exact Or.inr (hlater hex)
        | some best =>
            dsimp only at h
            split at h
            · rcases ih h with he | hex
              · exact Or.inr (hhere hp (Option.some.inj he))
              · exact Or.inr (hlater hex)
            · exact (ih h).imp_right hlater
      · rw [if_pos hp] at h
        exact (ih h).imp_right hlater

/-- **The index that is found** is one of the table's, and starts with the columns. -/
theorem Sound.findIndex_tree (h : tdef.Sound) {keys : List Bytes} {indexNo : Option Nat}
    (hfind : findIndex tdef keys = .ok indexNo) :
    ∃ p cols, scannedTree tdef indexNo = .ok (p, cols) ∧ keys <+: cols := by
  unfold findIndex at hfind
  by_cases hp : isPrefix tdef.keyCols keys = true
  · rw [if_pos hp] at hfind
    obtain rfl := Except.ok.inj hfind
    exact ⟨tdef.keyPrefix, tdef.keyCols, rfl, isPrefix_iff.mp hp⟩
  · rw [if_neg hp] at hfind
    cases hloop : findIndexLoop keys tdef.indexes 0 none with
    | none => simp [hloop] at hfind
    | some best =>
        obtain ⟨i, size⟩ := best
        simp only [hloop, Except.ok.injEq] at hfind
        subst hfind
        rcases findIndexLoop_spec hloop with he | hex
        · cases he
        · obtain ⟨index, hget, _, hp⟩ := hex
          rw [Nat.sub_zero] at hget
          have hi := (List.getElem?_eq_some_iff.mp hget).1
          rw [← h.parallel] at hi
          exact ⟨_, index, scannedTree_some.mpr ⟨List.getElem?_eq_getElem hi, hget⟩, hp⟩

theorem findIndex_keyCols (tdef : TableDef) : findIndex tdef tdef.keyCols = .ok none := by
  rw [findIndex, if_pos (isPrefix_iff.mpr (List.prefix_refl _))]

end TableDef

/-! ## Scans that are accepted -/

/-- What `db_scan` accepts, and the tree it scans. -/
structure ScanReq.Fits (req : ScanReq) (tdef : TableDef) (indexNo : Option Nat) (p : Nat)
    (cols : List Bytes) : Prop where
  dir : req.cmp2.positive = !req.cmp1.positive
  index : findIndex tdef req.key1.cols = .ok indexNo
  tree : scannedTree tdef indexNo = .ok (p, cols)
  key1 : tdef.Bound cols req.key1
  key2 : tdef.Bound cols req.key2

/-- A bound as `encode_key_partial` encodes it. -/
def TableDef.boundKey (tdef : TableDef) (p : Nat) (cols : List Bytes) (key : Record) (cmp : CMP) :
    Bytes :=
  keyOf p key.vals ++ if cmp ≠ .gt ∧ cmp ≠ .le then []
    else padding ((tdef.typesOf cols).drop key.vals.length)

section Scans

variable {σ : Type} [PageManager σ] {t : BTree σ} {m : Contents} {tdef : TableDef}

/-- The types of a bound are the first ones of its tree. -/
theorem TableDef.Bound.take {cols : List Bytes} {key : Record} (h : tdef.Bound cols key) :
    key.vals.map Value.type = (tdef.typesOf cols).take key.vals.length := by
  obtain ⟨rest, hrest⟩ := h.cols
  have hlen : (key.cols.map fun col => (cellAt tdef.cols tdef.types col).getD .error).length =
      key.vals.length := by
    rw [List.length_map, key.length_vals]
  rw [h.types, ← hrest, TableDef.typesOf, TableDef.typesOf, List.map_append,
    List.take_append_of_le_length (le_of_eq hlen.symm), List.take_of_length_le (le_of_eq hlen)]

theorem TableDef.Sound.plain_tree (h : tdef.Sound) (hplain : Plain tdef.types)
    {indexNo : Option Nat} {p : Nat} {cols : List Bytes}
    (ht : scannedTree tdef indexNo = .ok (p, cols)) : Plain (tdef.typesOf cols) :=
  TableDef.plain_typesOf hplain h.checked.types (h.tree_cols ht).2.2.1

theorem encodeKeyPartial_eq (h : tdef.Sound) (hplain : Plain tdef.types) {indexNo : Option Nat}
    {p : Nat} {cols : List Bytes} (ht : scannedTree tdef indexNo = .ok (p, cols)) {key : Record}
    (hb : tdef.Bound cols key) (cmp : CMP) :
    encodeKeyPartial p key.vals tdef cols cmp = .ok (tdef.boundKey p cols key cmp) := by
  exact encodeKeyPartial_keyOf h.checked.types (h.tree_cols ht).2.2.1 (h.plain_tree hplain ht) hb.take
    p cmp

theorem positive_opposite {a b : CMP} : ¬ (¬ (a.positive ∧ ¬ b.positive) ∧
    ¬ (¬ a.positive ∧ b.positive)) ↔ b.positive = !a.positive := by
  cases a <;> cases b <;> simp [CMP.positive]

theorem BTree.Readable.seek (h : t.Readable m) (key : Bytes) (cmp : CMP) :
    ∃ iter, t.seek key cmp = .ok iter ∧
      AtPos (PageManager.get t.pages) m iter (seekPos m key cmp) := by
  obtain ⟨ps, ht, hne, hcount⟩ := h
  exact BTree.seek_spec (shows_get t.pages) ht hne hcount key cmp

theorem BTree.Readable.key_ne_nil (h : t.Readable m) : ∀ r ∈ m, r.1 ≠ [] := by
  obtain ⟨ps, ht, _⟩ := h
  exact ht.key_ne_nil

/-- A request that fits is encoded and sought. -/
theorem dbScan_eq (h : tdef.Sound) {req : ScanReq} {indexNo : Option Nat} {p : Nat}
    {cols : List Bytes} (hfits : req.Fits tdef indexNo p cols) : dbScan t tdef req = (do
      let keyEnd ← encodeKeyPartial p req.key2.vals tdef cols req.cmp2
      let key ← encodeKeyPartial p req.key1.vals tdef cols req.cmp1
      let iter ← t.seek key req.cmp1
      return .ok { req with indexNo := indexNo, iter := iter, keyEnd := keyEnd }) := by
  obtain ⟨hdir, hindex, htree, hkey1, hkey2⟩ := hfits
  obtain ⟨r1, hr1, hiff1⟩ := TableDef.checkBound_eq h.checked.types (h.tree_cols htree).2.2.1 req.key1
  obtain ⟨r2, hr2, hiff2⟩ := TableDef.checkBound_eq h.checked.types (h.tree_cols htree).2.2.1 req.key2
  rw [hiff1.mpr hkey1] at hr1
  rw [hiff2.mpr hkey2] at hr2
  unfold dbScan
  rw [if_neg (positive_opposite.mpr hdir), hindex]
  dsimp only
  rw [htree, ok_bind]
  dsimp only
  rw [hr1, ok_bind]
  dsimp only
  rw [hr2, ok_bind]

/-- **`db_scan` accepts** a request that fits, and is where its range begins. -/
theorem dbScan_fits (h : tdef.Sound) (hread : t.Readable m) {req : ScanReq} {indexNo : Option Nat}
    {p : Nat} {cols : List Bytes} (hfits : req.Fits tdef indexNo p cols) {key keyEnd : Bytes}
    (hkey : encodeKeyPartial p req.key1.vals tdef cols req.cmp1 = .ok key)
    (hend : encodeKeyPartial p req.key2.vals tdef cols req.cmp2 = .ok keyEnd) :
    ∃ sc : Scanner, dbScan t tdef req = .ok (.ok sc) ∧ sc.toScanReq = req ∧ sc.indexNo = indexNo ∧
      sc.keyEnd = keyEnd ∧ ScansAt t m sc (seekPos m key req.cmp1) := by
  obtain ⟨iter, hseek, hpos⟩ := hread.seek key req.cmp1
  refine ⟨{ req with indexNo := indexNo, iter := iter, keyEnd := keyEnd }, ?_, rfl, rfl, rfl,
    ⟨hpos, hread.key_ne_nil, onWay_seek m _ _⟩⟩
  rw [dbScan_eq h hfits, hend, ok_bind, hkey, ok_bind, hseek]
  rfl

/-- With plain columns the bounds are as they should be. -/
theorem dbScan_plain (h : tdef.Sound) (hplain : Plain tdef.types) (hread : t.Readable m)
    {req : ScanReq} {indexNo : Option Nat} {p : Nat} {cols : List Bytes}
    (hfits : req.Fits tdef indexNo p cols) :
    ∃ sc : Scanner, dbScan t tdef req = .ok (.ok sc) ∧ sc.toScanReq = req ∧ sc.indexNo = indexNo ∧
      sc.keyEnd = tdef.boundKey p cols req.key2 req.cmp2 ∧
      ScansAt t m sc (seekPos m (tdef.boundKey p cols req.key1 req.cmp1) req.cmp1) :=
  dbScan_fits h hread hfits (encodeKeyPartial_eq h hplain hfits.tree hfits.key1 req.cmp1)
    (encodeKeyPartial_eq h hplain hfits.tree hfits.key2 req.cmp2)

/-- **`db_scan` answers** no to any other. -/
theorem dbScan_unfit (h : tdef.Sound) {req : ScanReq}
    (hno : ∀ indexNo p cols, ¬ req.Fits tdef indexNo p cols) :
    ∃ err, dbScan t tdef req = .ok (.error err) := by
  unfold dbScan
  by_cases hdir : req.cmp2.positive = !req.cmp1.positive
  · rw [if_neg (positive_opposite.mpr hdir)]
    cases hindex : findIndex tdef req.key1.cols with
    | error err => exact ⟨err, rfl⟩
    | ok indexNo =>
        dsimp only
        obtain ⟨p, cols, htree, _⟩ := h.findIndex_tree hindex
        obtain ⟨r1, hr1, hiff1⟩ :=
          TableDef.checkBound_eq h.checked.types (h.tree_cols htree).2.2.1 req.key1
        obtain ⟨r2, hr2, hiff2⟩ :=
          TableDef.checkBound_eq h.checked.types (h.tree_cols htree).2.2.1 req.key2
        rw [htree, ok_bind]
        dsimp only
        rw [hr1, ok_bind]
        cases r1 with
        | error err => exact ⟨err, rfl⟩
        | ok _ =>
            dsimp only
            rw [hr2, ok_bind]
            cases r2 with
            | error err => exact ⟨err, rfl⟩
            | ok _ =>
                -- every check passed, so the request fits
                exact absurd ⟨hdir, hindex, htree, hiff1.mp rfl, hiff2.mp rfl⟩ (hno indexNo p cols)
  · rw [if_pos (by_contra fun hc => hdir (positive_opposite.mp hc))]
    exact ⟨_, rfl⟩

end Scans

end SqlDb
