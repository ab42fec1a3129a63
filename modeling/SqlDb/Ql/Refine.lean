import SqlDb.Ql.Writes

/-!
# Statements do what they mean

The loops of INSERT, UPDATE and DELETE, row by row. Each says how far it came and what it
left, the rows before the one it stopped at being as they are to be.
-/

namespace SqlDb

open Outcome OrdMap

/-- The spaces that a statement gave out. -/
def QLStatement.given (stmt : QLStatement) (map map' : Contents) : Nat :=
  match stmt with
  | .createTable stmt => DB.given (.tableNew stmt.tdef) map map'
  | _ => 0

/-- The rows of a scan are rows of its table, each once. -/
theorem Relations.Scans.once {D : Relations} {req : QLScan} {tbl : Table} {S : List (List Value)}
    (h : D.Scans req tbl S) : S.Nodup ∧ ∀ row ∈ S, ∃ pk, tbl.rows pk = some row := by
  obtain ⟨cols, K, _, hkeeps, rfl⟩ := h.rows
  have hcut : (req.cut K).Sublist K := by
    unfold QLScan.cut
    dsimp only
    split
    · exact (List.take_sublist _ _).trans (List.drop_sublist _ _)
    · exact List.drop_sublist _ _
  have hnodup : K.Nodup := by
    refine hkeeps.order.imp ?_
    rintro a b hlt rfl
    rw [compareValues_self] at hlt
    cases hlt
  exact ⟨hnodup.sublist hcut, fun row hrow => ((hkeeps.mem row).mp (hcut.subset hrow)).1⟩

namespace DBTX

open TableTx (answer andThen compute scanRows)

section Loops

variable {I : FreeList TxPages → Multiset Nat → Prop} {n : Nat} {tx tx' : DBTX (FreeList TxPages)}
  {m : Contents} {D : Relations}

/-! ## INSERT -/

/-- The result of an INSERT that has written `done`, with these rows still to come. -/
inductive Inserting (D0 : Relations) (req : QLInsert) (done rows : List (List QLNode)) :
    Except Bytes Nat → Relations → Prop where
  | all {D' : Relations} : D0.Wrote req (done ++ rows) D' →
      Inserting D0 req done rows (.ok (done.length + rows.length)) D'
  | stops {D' : Relations} {before rest : List (List QLNode)} {values : List QLNode} {err : Bytes} :
      rows = before ++ values :: rest → D0.Wrote req (done ++ before) D' →
        D'.Refuses req values err →
      Inserting D0 req done rows (.error err) D'

/-- One row more was written. -/
theorem Inserting.cons {D0 D' : Relations} {req : QLInsert} {done rows : List (List QLNode)}
    {values : List QLNode} {r : Except Bytes Nat} (h : Inserting D0 req (done ++ [values]) rows r D') :
    Inserting D0 req done (values :: rows) r D' := by
  have happ : ∀ rest, done ++ [values] ++ rest = done ++ values :: rest := fun rest => by simp
  cases h with
  | all hwrote =>
      rw [happ] at hwrote
      rw [List.length_append, List.length_singleton, Nat.add_assoc,
        Nat.add_comm 1, ← List.length_cons]
      exact .all hwrote
  | @stops _ before rest values' err hrows hwrote hrefuses =>
      rw [happ] at hwrote
      exact .stops (by rw [hrows]; rfl) hwrote hrefuses

/-- **INSERT, row by row.** -/
theorem Sees.insertRows (hI : LawfulPages I Stops) (hn : n < 2 ^ 32 - 3) {req : QLInsert}
    {D0 : Relations} {rows done : List (List QLNode)} {r : Except Bytes Nat} (h : tx.Sees I n m D)
    (hdone : D0.Wrote req done D)
    (hrun : DBTX.insertRows req rows done.length tx = .ok (.ok r, tx')) :
    ∃ m' D', tx'.Sees I n m' D' ∧ Inserting D0 req done rows r D' := by
  induction rows generalizing tx m D done with
  | nil =>
      obtain ⟨rfl, rfl⟩ := answer_returned hrun
      exact ⟨m, D, h, .all (by rw [List.append_nil]; exact hdone)⟩
  | cons values rows ih =>
      have hstops : ∀ {D' err}, D0.Wrote req done D' → D'.Refuses req values err →
          Inserting D0 req done (values :: rows) (.error err) D' :=
        fun hwrote hrefuses =>
          .stops (List.nil_append _).symm (by rw [List.append_nil]; exact hwrote) hrefuses
      rw [DBTX.insertRows] at hrun
      by_cases hlen : values.length = req.names.length
      · rw [if_neg (not_not.mpr hlen)] at hrun
        rcases andThen_returned hrun with ⟨err, hanswer, rfl⟩ | ⟨vals, tx1, hanswer, hrun1⟩
        · obtain ⟨hvals, rfl⟩ := answer_returned hanswer
          exact ⟨m, D, h, hstops hdone (.value hlen hvals.symm)⟩
        obtain ⟨hvals, rfl⟩ := answer_returned hanswer
        cases htbl : D req.table with
        | none =>
            rcases andThen_returned hrun1 with ⟨err, hwrite, rfl⟩ | ⟨_, tx2, hwrite, _⟩
            · obtain ⟨he, m', hsees⟩ := h.write_missing hI hn htbl hwrite
              rw [Except.error.inj he]
              exact ⟨m', D, hsees, hstops hdone (.missing hlen htbl)⟩
            · obtain ⟨he, _⟩ := h.write_missing hI hn htbl hwrite
              cases he
        | some tbl =>
            rcases andThen_returned hrun1 with ⟨err, hwrite, rfl⟩ | ⟨_, tx2, hwrite, hrun2⟩
            · rcases h.write hI hn req.mode htbl hwrite with ⟨he, _⟩ | ⟨err', m', he, _, herr, hsees⟩
              · cases he
              · rw [← Except.error.inj he] at herr
                exact ⟨m', D, hsees, hstops hdone (.row hlen hvals.symm htbl herr)⟩
            · rcases h.write hI hn req.mode htbl hwrite with
                ⟨_, row, m', hnames, hallow, hsees⟩ | ⟨_, _, he, _⟩
              · have hwrote := hdone.snoc htbl ⟨hlen, vals, hvals.symm, hnames⟩ hallow
                have hcount : done.length + 1 = (done ++ [values]).length := by
                  rw [List.length_append, List.length_singleton]
                rw [hcount] at hrun2
                obtain ⟨m2, D', hsees', hinserting⟩ := ih hsees hwrote hrun2
                exact ⟨m2, D', hsees', hinserting.cons⟩
              · cases he
      · rw [if_pos hlen] at hrun
        obtain ⟨rfl, rfl⟩ := answer_returned hrun
        exact ⟨m, D, h, hstops hdone (.count hlen)⟩

/-- **INSERT does what it means.** -/
theorem Sees.qlInsert (hI : LawfulPages I Stops) (hn : n < 2 ^ 32 - 3) {req : QLInsert}
    {r : Except Bytes Nat} (h : tx.Sees I n m D) (hrun : DBTX.qlInsert req tx = .ok (.ok r, tx')) :
    ∃ m' D', tx'.Sees I n m' D' ∧ D.Inserts req r D' := by
  obtain ⟨m', D', hsees, hinserting⟩ := h.insertRows hI hn .nil hrun
  refine ⟨m', D', hsees, ?_⟩
  cases hinserting with
  | all hwrote =>
      rw [List.length_nil, Nat.zero_add]
      exact .all hwrote
  | stops hrows hwrote hrefuses => exact .stops hrows hwrote hrefuses

/-! ## UPDATE -/

/-- The result of an UPDATE that has updated `count` rows, with these still to come. -/
inductive Updating (req : QLUpdate) (tbl : Table) (count : Nat) (S : List (List Value)) :
    Except Bytes Nat → Rows → Prop where
  | all {rows : Rows} : req.Updated tbl S rows → Updating req tbl count S (.ok (count + S.length)) rows
  | stops {done rest : List (List Value)} {row : List Value} {rows : Rows} {err : Bytes} :
      S = done ++ row :: rest → req.Updated tbl done rows → req.Refuses tbl.tdef row err →
      Updating req tbl count S (.error err) rows

/-- A row that is refused is the first one. -/
theorem Updating.refused {req : QLUpdate} {tbl : Table} {count : Nat} {S : List (List Value)}
    {row : List Value} {err : Bytes} (h : req.Refuses tbl.tdef row err) :
    Updating req tbl count (row :: S) (.error err) tbl.rows :=
  .stops (List.nil_append _).symm .nil h

/-- One row more was updated. -/
theorem Updating.cons {req : QLUpdate} {tbl : Table} {count : Nat} {S : List (List Value)}
    {row row' pk : List Value} {rows : Rows} {r : Except Bytes Nat} (hfit : tbl.rows.Fit tbl.tdef)
    (hrow : tbl.rows pk = some row) (hnew : req.NewRow tbl.tdef row row')
    (hpk : row'.take tbl.tdef.npkeys = pk) (hnot : row ∉ S)
    (hS : ∀ row ∈ S, ∃ pk, tbl.rows pk = some row)
    (h : Updating req { tbl with rows := Function.update tbl.rows pk (some row') } (count + 1) S r
      rows) :
    Updating req tbl count (row :: S) r rows := by
  have hcons : ∀ {done}, (∀ r ∈ done, r ∈ S) →
      req.Updated { tbl with rows := Function.update tbl.rows pk (some row') } done rows →
      req.Updated tbl (row :: done) rows := by
    intro done hsub hupdated
    refine Rows.Changed.row hfit hrow ⟨row', rfl, hnew⟩ (fun r he => ?_)
      (fun hmem => hnot (hsub row hmem)) (fun r hr => hS r (hsub r hr)) hupdated
    rw [← Option.some.inj he]
    exact hpk
  cases h with
  | all hupdated =>
      rw [Nat.add_assoc, Nat.add_comm 1, ← List.length_cons]
      exact .all (hcons (fun r hr => hr) hupdated)
  | stops he hupdated hrefuses =>
      refine .stops (by rw [he]; rfl) (hcons (fun r hr => ?_) hupdated) hrefuses
      rw [he]
      exact List.mem_append_left _ hr

/-- **UPDATE, row by row.** -/
theorem Sees.updateRows (hI : LawfulPages I Stops) (hn : n < 2 ^ 32 - 3)
    {req : QLUpdate} {tbl : Table}
    {S : List (List Value)} {count : Nat} {r : Except Bytes Nat} (h : tx.Sees I n m D)
    (htbl : D req.scan.table = some tbl)
    (hnames : ∀ name ∈ req.names, name ∈ tbl.tdef.cols ∧ name ∉ tbl.tdef.keyCols) (hnodup : S.Nodup)
    (hS : ∀ row ∈ S, ∃ pk, tbl.rows pk = some row)
    (hrun : DBTX.updateRows req (S.map (Record.ofCols tbl.tdef.cols)) count tx =
      .ok (.ok r, tx')) :
    ∃ m' rows, tx'.Sees I n m' (D.withRows req.scan.table rows) ∧
      Updating req tbl count S r rows := by
  induction S generalizing tx m D tbl count with
  | nil =>
      obtain ⟨rfl, rfl⟩ := answer_returned hrun
      refine ⟨m, tbl.rows, ?_, .all .nil⟩
      rw [Relations.withRows_rows htbl]
      exact h
  | cons row S ih =>
      obtain ⟨⟨pk, hrow⟩, hS⟩ := List.forall_mem_cons.mp hS
      obtain ⟨hnot, hnodup⟩ := List.nodup_cons.mp hnodup
      have hs := h.stands.sound _ _ htbl
      have hfit := (h.stands.represents _ _ htbl).fit
      have hlen := hfit.length hs.checked.types hrow
      have hsame : D.withRows req.scan.table tbl.rows = D := Relations.withRows_rows htbl
      rw [List.map_cons, DBTX.updateRows] at hrun
      rcases andThen_returned hrun with ⟨err, hanswer, rfl⟩ | ⟨next, tx1, hanswer, hrun1⟩
      · obtain ⟨hvals, rfl⟩ := answer_returned hanswer
        exact ⟨m, tbl.rows, hsame.symm ▸ h, .refused (.value hvals.symm)⟩
      obtain ⟨hnext, rfl⟩ := answer_returned hanswer
      rcases andThen_returned hrun1 with ⟨err, hcompute, rfl⟩ | ⟨rec, tx2, hcompute, hrun2⟩
      · obtain ⟨_, _, he, _⟩ := compute_returned hcompute
        cases he
      obtain ⟨hassign, rfl⟩ := compute_ok hcompute
      obtain ⟨row', rfl, hassigned⟩ :=
        assigned_of_assign (fun name hn => (hnames name hn).1) hlen hnext.symm hassign
      have hpk : row'.take tbl.tdef.npkeys = pk := by
        rw [hfit.key hrow]
        exact hassigned.key hs hlen hnames
      have hlen' := hlen.trans hassigned.length.symm
      rcases andThen_returned hrun2 with ⟨err, hupdate, rfl⟩ | ⟨_, tx3, hupdate, hrun3⟩
      · rcases h.write hI hn .updateOnly htbl hupdate with
          ⟨he, _⟩ | ⟨err', m', he, hno, herr, hsees⟩
        · cases he
        · have htypes : row'.map Value.type ≠ tbl.tdef.types := fun htypes => by
            have hallow := hno row' ((names_ofCols hs hlen').mpr ⟨rfl, htypes⟩)
            rw [hpk, hrow] at hallow
            cases hallow
          rw [← Except.error.inj he] at herr
          refine ⟨m', tbl.rows, hsame.symm ▸ hsees,
            .refused (.type hassigned htypes (TableDef.put_error (fun row hcheck => ?_) herr))⟩
          exact htypes ((names_ofCols hs hlen').mp ((checkRecord_eq_ok hs.checked.types).mp hcheck)).2
      · rcases h.write hI hn .updateOnly htbl hupdate with
          ⟨_, row'', m', hnames', _, hsees⟩ | ⟨_, _, he, _⟩
        · obtain ⟨rfl, htypes⟩ := (names_ofCols hs hlen').mp hnames'
          rw [hpk] at hsees
          have htbl' := Relations.withRows_table htbl (Function.update tbl.rows pk (some row''))
          obtain ⟨m2, rows, hsees', hupdating⟩ :=
            ih hsees htbl' hnames hnodup (Rows.still hrow hnot hS) hrun3
          rw [Relations.withRows_withRows] at hsees'
          exact ⟨m2, rows, hsees', hupdating.cons hfit hrow ⟨hassigned, htypes⟩ hpk hnot hS⟩
        · cases he

/-! ## DELETE -/

/-- A row has all the columns of its primary key. -/
theorem primaryKey_ofCols {cols pk : List Bytes} {row : List Value} {out : Record}
    (hcols : ∀ col ∈ pk, col ∈ cols) (hlen : cols.length ≤ row.length) :
    ∃ key, primaryKey (.ofCols cols row) pk out = .ok key := by
  induction pk generalizing out with
  | nil => exact ⟨out, rfl⟩
  | cons col pk ih =>
      obtain ⟨hcol, hcols⟩ := List.forall_mem_cons.mp hcols
      obtain ⟨v, hv⟩ := Option.isSome_iff_exists.mp ((cellAt_isSome hlen).mpr hcol)
      rw [primaryKey, get_ofCols, hv]
      exact ih hcols

/-- **DELETE, row by row.** -/
theorem Sees.deleteRows (hI : LawfulPages I Stops) (hn : n < 2 ^ 32 - 3)
    {req : QLDelete} {tbl : Table}
    {S : List (List Value)} {count : Nat} {r : Answer Nat} (h : tx.Sees I n m D)
    (htbl : D req.scan.table = some tbl) (hnodup : S.Nodup)
    (hS : ∀ row ∈ S, ∃ pk, tbl.rows pk = some row)
    (hrun : DBTX.deleteRows req tbl.tdef.keyCols (S.map (Record.ofCols tbl.tdef.cols)) count tx =
      .ok (.ok r, tx')) :
    ∃ m' rows, tx'.Sees I n m' (D.withRows req.scan.table rows) ∧ r = .ok (count + S.length) ∧
      Rows.Changed S (fun _ r => r = none) tbl.rows rows := by
  induction S generalizing tx m D tbl count with
  | nil =>
      obtain ⟨rfl, rfl⟩ := answer_returned hrun
      refine ⟨m, tbl.rows, ?_, rfl, .nil⟩
      rw [Relations.withRows_rows htbl]
      exact h
  | cons row S ih =>
      obtain ⟨⟨pk, hrow⟩, hS⟩ := List.forall_mem_cons.mp hS
      obtain ⟨hnot, hnodup⟩ := List.nodup_cons.mp hnodup
      have hs := h.stands.sound _ _ htbl
      have hfit := (h.stands.represents _ _ htbl).fit
      have hlen := hfit.length hs.checked.types hrow
      rw [List.map_cons, DBTX.deleteRows] at hrun
      obtain ⟨key, hkey⟩ : ∃ key, primaryKey (.ofCols tbl.tdef.cols row) tbl.tdef.keyCols {} = .ok key :=
        primaryKey_ofCols (fun col hcol => List.mem_of_mem_take hcol) (le_of_eq hlen)
      -- the record of the row's own key
      have hnamed : key.Names tbl.tdef tbl.tdef.npkeys pk := by
        rw [primaryKey_cells hkey, List.nil_append, hs.key_cells hlen, hfit.key hrow]
        exact hfit.names_key hs hrow
      rw [hkey] at hrun
      rcases andThen_returned hrun with ⟨err, hanswer, rfl⟩ | ⟨key', tx1, hanswer, hrun1⟩
      · obtain ⟨he, _⟩ := answer_returned hanswer
        cases he
      obtain ⟨he, rfl⟩ := answer_returned hanswer
      obtain rfl := Except.ok.inj he
      rcases andThen_returned hrun1 with ⟨err, hdel, rfl⟩ | ⟨_, tx2, hdel, hrun2⟩
      · rcases h.del hI hn htbl hdel with ⟨he, _⟩ | ⟨_, _, _, hno, _⟩
        · cases he
        · rw [hno pk hnamed] at hrow
          cases hrow
      · rcases h.del hI hn htbl hdel with ⟨_, pk', _, m', hnames, _, hsees⟩ | ⟨_, _, he, _⟩
        · obtain rfl := hnames.unique hnamed
          have htbl' := Relations.withRows_table htbl (Function.update tbl.rows pk' none)
          obtain ⟨m2, rows, hsees', hr, hchanged⟩ :=
            ih hsees htbl' hnodup (Rows.still hrow hnot hS) hrun2
          rw [Relations.withRows_withRows] at hsees'
          refine ⟨m2, rows, hsees', ?_, ?_⟩
          · rw [hr, List.length_cons, Nat.add_assoc, Nat.add_comm 1]
          · refine Rows.Changed.row hfit hrow rfl (fun r he => ?_) hnot hS hchanged
            cases he
        · cases he

/-! ## Statements -/

/-- A call that answers, and returned. -/
theorem Sees.answered {α : Type} (h : tx.Sees I n m D) {c : Call (FreeList TxPages) α}
    {table : Bytes} {Q : α → Prop} (hc : Answers tx.tree m c (ThrewOr table Q)) {a : α}
    (hrun : c tx = .ok (.ok a, tx')) : tx'.Sees I n m D ∧ Q a := by
  obtain ⟨r, tx1, hrun1, hserves, hQ⟩ := hc tx h.serves
  obtain ⟨hr, rfl⟩ := Prod.mk.inj (Except.ok.inj (hrun1.symm.trans hrun))
  rw [hr] at hQ
  exact ⟨h.looked hserves, hQ.ok⟩

theorem Sees.tableDef (hI : LawfulPages I Stops) (h : tx.Sees I n m D) {table : Bytes}
    {r : Except Bytes TableDef} (hrun : DBTX.tableDef table tx = .ok (.ok r, tx')) :
    tx'.Sees I n m D ∧ D.Defines table r :=
  h.answered (tableDef_answers (h.readable hI) h.stands table) hrun

/-- **The rows that a statement is about.** -/
theorem Sees.scanRows (hI : LawfulPages I Stops) (h : tx.Sees I n m D)
    (hplain : D.Plain) {fuel : Nat}
    (hfuel : m.length ≤ fuel) {req : QLScan} {r : Except Bytes (List Record)}
    (hrun : TableTx.scanRows fuel req tx = .ok (.ok r, tx')) :
    tx'.Sees I n m D ∧ D.ScanAnswers req r := by
  exact h.answered (scanRows_answers (h.readable hI) h.stands hplain hfuel req) hrun

/-- **UPDATE does what it means.** -/
theorem Sees.qlUpdate (hI : LawfulPages I Stops) (hn : n < 2 ^ 32 - 3) (h : tx.Sees I n m D)
    (hplain : D.Plain) {fuel : Nat} (hfuel : m.length ≤ fuel) {req : QLUpdate}
    {r : Except Bytes Nat} (hrun : DBTX.qlUpdate fuel req tx = .ok (.ok r, tx')) :
    ∃ m' D', tx'.Sees I n m' D' ∧ D.Updates req r D' := by
  rcases andThen_returned hrun with ⟨err, htable, rfl⟩ | ⟨tdef, tx1, htable, hrun1⟩
  · obtain ⟨hsees, hnone, rfl⟩ := h.tableDef hI htable
    exact ⟨m, D, hsees, .missing hnone⟩
  obtain ⟨h1, tbl, htbl, rfl⟩ := h.tableDef hI htable
  rcases andThen_returned hrun1 with ⟨err, hanswer, rfl⟩ | ⟨_, tx2, hanswer, hrun2⟩
  · obtain ⟨hnames, rfl⟩ := answer_returned hanswer
    exact ⟨m, D, h1, .names htbl hnames.symm⟩
  obtain ⟨hnames, rfl⟩ := answer_returned hanswer
  rcases andThen_returned hrun2 with ⟨err, hscan, rfl⟩ | ⟨recs, tx3, hscan, hrun3⟩
  · obtain ⟨hsees, hfails⟩ := h1.scanRows hI hplain hfuel hscan
    exact ⟨m, D, hsees, .scan htbl hnames.symm hfails⟩
  obtain ⟨h3, tbl', S, hscans, rfl⟩ := h1.scanRows hI hplain hfuel hscan
  obtain rfl := Option.some.inj (htbl.symm.trans hscans.table)
  obtain ⟨hnodup, hexist⟩ := hscans.once
  obtain ⟨m', rows, hsees, hupdating⟩ :=
    h3.updateRows hI hn htbl (checkNames_ok hnames.symm) hnodup hexist hrun3
  refine ⟨m', _, hsees, ?_⟩
  cases hupdating with
  | all hupdated =>
      rw [Nat.zero_add]
      exact .all hnames.symm hscans hupdated
  | stops he hupdated hrefuses => exact .stops hnames.symm (he ▸ hscans) hupdated hrefuses

/-- **DELETE does what it means.** -/
theorem Sees.qlDelete (hI : LawfulPages I Stops) (hn : n < 2 ^ 32 - 3) (h : tx.Sees I n m D)
    (hplain : D.Plain) {fuel : Nat} (hfuel : m.length ≤ fuel) {req : QLDelete} {r : Answer Nat}
    (hrun : DBTX.qlDelete fuel req tx = .ok (.ok r, tx')) :
    ∃ m' D' r', tx'.Sees I n m' D' ∧ D.Deletes req r' D' ∧ r = r'.mapError some := by
  rcases andThen_returned hrun with ⟨err, htable, rfl⟩ | ⟨tdef, tx1, htable, hrun1⟩
  · obtain ⟨hsees, hnone, rfl⟩ := h.tableDef hI htable
    exact ⟨m, D, _, hsees, .missing hnone, rfl⟩
  obtain ⟨h1, tbl, htbl, rfl⟩ := h.tableDef hI htable
  rcases andThen_returned hrun1 with ⟨err, hscan, rfl⟩ | ⟨recs, tx2, hscan, hrun2⟩
  · obtain ⟨hsees, hfails⟩ := h1.scanRows hI hplain hfuel hscan
    exact ⟨m, D, _, hsees, .scan htbl hfails, rfl⟩
  obtain ⟨h2, tbl', S, hscans, rfl⟩ := h1.scanRows hI hplain hfuel hscan
  obtain rfl := Option.some.inj (htbl.symm.trans hscans.table)
  obtain ⟨hnodup, hexist⟩ := hscans.once
  obtain ⟨m', rows, hsees, rfl, hchanged⟩ := h2.deleteRows hI hn htbl hnodup hexist hrun2
  rw [Nat.zero_add]
  exact ⟨m', _, _, hsees, .all hscans hchanged, rfl⟩

/-- What a statement produced, from what its part of the executor returned. -/
theorem andThen_produced {α : Type} {c : Call (FreeList TxPages) (Except Bytes α)}
    {f : α → QLResult} {r : Answer QLResult}
    (h : andThen some c (fun a => answer (.ok (f a))) tx = .ok (.ok r, tx')) :
    ∃ r0, c tx = .ok (.ok r0, tx') ∧ r = produced f r0 := by
  rcases andThen_returned h with ⟨err, hc, rfl⟩ | ⟨a, tx1, hc, hanswer⟩
  · exact ⟨.error err, hc, rfl⟩
  · obtain ⟨rfl, rfl⟩ := answer_returned hanswer
    exact ⟨.ok a, hc, rfl⟩

/-- **CREATE TABLE does what it means.** -/
theorem Sees.qlCreateTable (hI : LawfulPages I Stops) (h : tx.Sees I n m D) {stmt : QLCreateTable}
    (hproper : DBOp.Proper (.tableNew stmt.tdef)) (hn : ∀ m', tx'.tree.Readable m' →
      n + DB.given (.tableNew stmt.tdef) m m' < 2 ^ 32 - 3) {r : Except Bytes Unit}
    (hrun : DBTX.qlCreateTable stmt tx = .ok (.ok r, tx')) : ∃ m' D', tx'.tree.Readable m' ∧
      D.Exec (.createTable stmt) (produced (fun _ => {}) r) D' ∧
      tx'.Sees I (n + DB.given (.tableNew stmt.tdef) m m') m' D' := by
  have hcall : DBTX.call (.tableNew stmt.tdef) tx = .ok (.ok (.done r), tx') := reply_run hrun
  obtain ⟨m', D', hread, hstep, hsees⟩ := h.call hI hproper hn hcall
  refine ⟨m', D', hread, ?_, hsees⟩
  generalize hop : DBOp.tableNew stmt.tdef = op at hstep
  generalize hreply : DBReply.done r = reply at hstep
  cases hstep with
  | created first haccepts =>
      obtain rfl := DBOp.tableNew.inj hop
      obtain rfl := DBReply.done.inj hreply
      exact .created first haccepts
  | refused hno hrefused =>
      obtain rfl := DBOp.tableNew.inj hop
      obtain rfl := DBReply.done.inj hreply
      exact .refused hno hrefused
  | missing _ hmissing =>
      rw [← hop] at hmissing
      cases hmissing
  | rows _ =>
      have hrow := congrArg DBOp.row? hop
      rw [RowOp.row?_call] at hrow
      cases hrow
  | _ => cases hop

/-- **A statement does what it means.** -/
theorem Sees.qlExec (hI : LawfulPages I Stops) (h : tx.Sees I n m D) (hplain : D.Plain) {fuel : Nat}
    (hfuel : m.length ≤ fuel) {stmt : QLStatement} (hproper : stmt.Proper) (hn : n < 2 ^ 32 - 3)
    (hgiven : ∀ m', tx'.tree.Readable m' → n + stmt.given m m' < 2 ^ 32 - 3)
    {r : Answer QLResult} (hrun : DBTX.qlExec fuel stmt tx = .ok (.ok r, tx')) :
    ∃ m' D', tx'.tree.Readable m' ∧ D.Exec stmt r D' ∧ tx'.Sees I (n + stmt.given m m') m' D' := by
  cases stmt with
  | createTable stmt =>
      obtain ⟨r0, hrun0, rfl⟩ := andThen_produced hrun
      exact h.qlCreateTable hI hproper.1 hgiven hrun0
  | select stmt =>
      obtain ⟨r0, hrun0, rfl⟩ := andThen_produced hrun
      obtain ⟨hsees, hselects⟩ := h.answered
        (selectRows_answers (h.readable hI) h.stands hplain hfuel hproper) hrun0
      exact ⟨m, D, hsees.readable hI, .select hselects, hsees⟩
  | insert stmt =>
      obtain ⟨r0, hrun0, rfl⟩ := andThen_produced hrun
      obtain ⟨m', D', hsees, hinserts⟩ := h.qlInsert hI hn hrun0
      exact ⟨m', D', hsees.readable hI, .insert hinserts, hsees⟩
  | update stmt =>
      obtain ⟨r0, hrun0, rfl⟩ := andThen_produced hrun
      obtain ⟨m', D', hsees, hupdates⟩ := h.qlUpdate hI hn hplain hfuel hrun0
      exact ⟨m', D', hsees.readable hI, .update hupdates, hsees⟩
  | delete stmt =>
      rcases andThen_returned hrun with ⟨err, hrun0, rfl⟩ | ⟨count, tx1, hrun0, hanswer⟩
      · obtain ⟨m', D', r', hsees, hdeletes, he⟩ := h.qlDelete hI hn hplain hfuel hrun0
        refine ⟨m', D', hsees.readable hI, ?_, hsees⟩
        cases r' with
        | ok count => cases he
        | error err' =>
            obtain rfl := Except.error.inj he
            exact .delete hdeletes
      · obtain ⟨rfl, rfl⟩ := answer_returned hanswer
        obtain ⟨m', D', r', hsees, hdeletes, he⟩ := h.qlDelete hI hn hplain hfuel hrun0
        refine ⟨m', D', hsees.readable hI, ?_, hsees⟩
        cases r' with
        | ok count' =>
            obtain rfl := Except.ok.inj he
            exact .delete hdeletes
        | error err' => cases he

end Loops

end DBTX

/-! ## Types that are stored -/

section Plain

variable {D D' : Relations}

theorem Relations.Plain.withRows (h : D.Plain) (table : Bytes) (rows : Rows) :
    (D.withRows table rows).Plain := by
  intro name tbl htbl
  by_cases he : name = table
  · rw [he, withRows_self, Option.map_eq_some_iff] at htbl
    obtain ⟨tbl', htbl', rfl⟩ := htbl
    exact h table tbl' htbl'
  · rw [withRows_of_ne he] at htbl
    exact h name tbl htbl

/-- **A statement leaves columns that are stored.** -/
theorem Relations.Exec.plain {stmt : QLStatement} {r : Answer QLResult} (h : D.Exec stmt r D')
    (hproper : stmt.Proper) (hplain : D.Plain) : D'.Plain := by
  cases h with
  | @created stmt accepted first haccepts =>
      intro name tbl htbl
      rcases of_add htbl with ⟨_, rfl⟩ | ⟨_, htbl⟩
      · show SqlDb.Plain accepted.types
        rw [(tableDefCheck_checked haccepts.checked).2]
        exact hproper.2
      · exact hplain name tbl htbl
  | refused => exact hplain
  | select _ => exact hplain
  | insert hinserts =>
      have hwrote : ∀ {req done D'}, D.Wrote req done D' → D'.Plain := by
        intro req done D' h
        induction h with
        | nil => exact hplain
        | snoc _ _ _ _ ih => exact ih.withRows _ _
      cases hinserts with
      | all h => exact hwrote h
      | stops _ h _ => exact hwrote h
  | update hupdates =>
      cases hupdates with
      | all _ _ _ => exact hplain.withRows _ _
      | stops _ _ _ _ => exact hplain.withRows _ _
      | _ => exact hplain
  | delete hdeletes =>
      cases hdeletes with
      | all _ _ => exact hplain.withRows _ _
      | _ => exact hplain

end Plain

end SqlDb
