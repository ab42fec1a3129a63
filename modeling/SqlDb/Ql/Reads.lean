import SqlDb.Ql.Selection

/-!
# SELECT on a reader and on a transaction

What the templates rest on is the same for both: they read one tree, and what they have at
hand of the catalog is in its bindings. `Answers` says of a call that it returns or throws,
never fails an assertion, leaves all that as it is, and what it returns or throws. The rules
are those of the templates; SELECT then answers what it means, whichever transaction runs it.
-/

namespace SqlDb

open Outcome OrdMap

/-! ## What the two have in common -/

/-- What a call that only reads returns or throws. -/
def looked {τ α : Type} (r : Except Fault α) : TableCall τ α := fun tx =>
  match r with
  | .ok a => .ok (.ok a, tx)
  | .error (.throws what) => .ok (.error what, tx)
  | .error f => .error f

/-- Looks a table up in the bindings and reads on. A name that is too long for a key throws. -/
def onDefinition {α : Type} (m : Contents) (table : Bytes)
    (f : TableDef → Except Fault (Except Bytes α)) : Except Fault (Except Bytes α) :=
  if ValidKey (tableKey table) then
    match definition m table with
    | none => .ok (.error (DBTX.notFound table))
    | some tdef => f tdef
  else .error (.throws (limitText (tableKey table)))

/-- A `TX` reads a tree, and looks tables up in its bindings. -/
class LawfulTableTx (τ : Type) {σ : Type} [PageManager σ] [TableTx τ σ] where
  /-- The tree it reads, and bindings that what it has at hand is in. -/
  Serves : τ → BTree σ → Contents → Prop
  look {tx : τ} {t : BTree σ} {m : Contents} : Serves tx t m →
    ∀ {α : Type} (f : BTree σ → Except Fault α), TableTx.look f tx = looked (f t) tx
  tableDef {tx : τ} {t : BTree σ} {m : Contents} : Serves tx t m → t.Readable m →
    ∀ table, ∃ tx', Serves tx' t m ∧
      TableTx.tableDef table tx = looked (onDefinition m table fun tdef => .ok (.ok tdef)) tx'
  scan {tx : τ} {t : BTree σ} {m : Contents} : Serves tx t m → t.Readable m →
    ∀ table req, ∃ tx', Serves tx' t m ∧
      TableTx.scan table req tx = looked (onDefinition m table fun tdef => dbScan t tdef req) tx'

section Instances

variable {σ α ε : Type} [PageManager σ] {t : BTree σ} {m : Contents}

/-- The transaction's tree, and bindings for its cache. -/
def DBTX.Serves (tx : DBTX σ) (t : BTree σ) (m : Contents) : Prop :=
  tx.tree = t ∧ tx.catalog.Good m

omit [PageManager σ] in
theorem DBTX.onTree_looked (f : BTree σ → Except Fault α) (tx : DBTX σ) :
    onTree (Tx.look f) tx = looked (f tx.tree) tx := by
  unfold onTree Tx.look Tx.call
  beta_reduce
  cases f tx.tree with
  | ok a => rfl
  | error e => cases e <;> rfl

/-- **A call that only reads a table**, on a transaction. -/
theorem DBTX.onTable_looked {tx : DBTX σ} (h : tx.Serves t m) (hread : t.Readable m) (table : Bytes)
    (f : TableDef → BTree σ → Except Fault (Except Bytes α)) : ∃ tx' : DBTX σ, tx'.Serves t m ∧
      onTable table id (fun tdef => Tx.look (f tdef)) tx =
        looked (onDefinition m table fun tdef => f tdef t) tx' := by
  obtain ⟨rfl, hgood⟩ := h
  unfold onTable findTable onDefinition
  by_cases hk : ValidKey (tableKey table)
  · obtain ⟨catalog, hgood', hget⟩ := hgood.getTableDef hread hk
    refine ⟨{ tx with catalog := catalog }, ⟨rfl, hgood'⟩, ?_⟩
    rw [hget, if_pos hk]
    cases definition m table with
    | none => rfl
    | some tdef => exact onTree_looked (f tdef) _
  · refine ⟨tx, ⟨rfl, hgood⟩, ?_⟩
    rw [hgood.getTableDef_invalid hread hk, if_neg hk]
    rfl

instance : LawfulTableTx (DBTX σ) where
  Serves := DBTX.Serves
  look := by
    intro tx t m h α f
    rw [← h.1]
    exact DBTX.onTree_looked f tx
  tableDef := by
    intro tx t m h hread table
    exact DBTX.onTable_looked h hread table fun tdef _ => .ok (.ok tdef)
  scan := by
    intro tx t m h hread table req
    exact DBTX.onTable_looked h hread table fun tdef t => dbScan t tdef req

omit [PageManager σ] in
/-- What the transaction reads, the reader reads. -/
theorem DBReader.Mirrors.looked {c : DBReader.Call σ α} {c' : DBTX.Call σ α}
    (h : DBReader.Mirrors c c') {rd : DBReader σ} (hs : rd.asTx.Serves t m) {r : Except Fault α}
    (hlooked : ∃ tx' : DBTX σ, tx'.Serves t m ∧ c' rd.asTx = SqlDb.looked r tx') :
    ∃ rd' : DBReader σ, rd'.asTx.Serves t m ∧ c rd = SqlDb.looked r rd' := by
  obtain ⟨tx', hs', hrun⟩ := hlooked
  have hreturned : ∀ {r' : Except String α}, c' rd.asTx = .ok (r', tx') →
      ∃ rd', rd'.asTx.Serves t m ∧ c rd = .ok (r', rd') := by
    intro r' hr'
    obtain ⟨rd', hc, rfl⟩ := h.exists_ok hr'
    exact ⟨rd', hs', hc⟩
  have hfailed : ∀ {f : Fault}, c' rd.asTx = .error f → c rd = .error f := by
    intro f hf
    rw [h rd] at hf
    cases hc : c rd with
    | error e =>
        rw [hc] at hf
        exact congrArg Except.error (Except.error.inj hf)
    | ok out =>
        rw [hc] at hf
        cases hf
  cases r with
  | ok a => exact hreturned hrun
  | error e =>
      cases e with
      | throws what => exact hreturned hrun
      | _ => exact ⟨rd, hs, hfailed hrun⟩

instance : LawfulTableTx (DBReader σ) where
  Serves rd := rd.asTx.Serves
  look := by
    intro rd t m h α f
    rw [← show rd.tree = t from h.1]
    rfl
  tableDef := by
    intro rd t m h hread table
    refine DBReader.Mirrors.looked (fun rd => ?_) h
      (DBTX.onTable_looked h hread table fun tdef _ => .ok (.ok tdef))
    exact DBReader.mirrors_tableDef table rd
  scan := by
    intro rd t m h hread table req
    exact (DBReader.mirrors_onTable table id fun tdef t => dbScan t tdef req).looked h
      (DBTX.onTable_looked h hread table fun tdef t => dbScan t tdef req)

end Instances

/-! ## Calls that answer -/

/-- From any transaction on this tree the call returns or throws such a result, and leaves it so. -/
def Answers {τ σ α : Type} [PageManager σ] [TableTx τ σ] [LawfulTableTx τ] (t : BTree σ)
    (m : Contents) (c : TableCall τ α) (Q : Except String α → Prop) : Prop :=
  ∀ tx, LawfulTableTx.Serves tx t m → ∃ r tx', c tx = .ok (r, tx') ∧
    LawfulTableTx.Serves tx' t m ∧ Q r

namespace Answers

variable {τ σ α β ε ε' : Type} [PageManager σ] [TableTx τ σ] [LawfulTableTx τ] {t : BTree σ}
  {m : Contents}

theorem answer {r : Except ε α} {Q : Except String (Except ε α) → Prop} (h : Q (.ok r)) :
    Answers t m (TableTx.answer r : TableCall τ _) Q := fun tx hs => ⟨.ok r, tx, rfl, hs, h⟩

theorem andThen {say : ε → ε'} {c : TableCall τ (Except ε α)}
    {f : α → TableCall τ (Except ε' β)} {P : Except String (Except ε α) → Prop}
    {Q : Except String (Except ε' β) → Prop} (hc : Answers t m c P)
    (hthrew : ∀ what, P (.error what) → Q (.error what))
    (hno : ∀ err, P (.ok (.error err)) → Q (.ok (.error (say err))))
    (hf : ∀ a, P (.ok (.ok a)) → Answers t m (f a) Q) :
    Answers t m (TableTx.andThen say c f) Q := by
  intro tx hs
  obtain ⟨r, tx1, hrun, hs1, hP⟩ := hc tx hs
  unfold TableTx.andThen
  rw [hrun]
  cases r with
  | error what => exact ⟨_, tx1, rfl, hs1, hthrew what hP⟩
  | ok r =>
      cases r with
      | error err => exact ⟨_, tx1, rfl, hs1, hno err hP⟩
      | ok a => exact hf a hP tx1 hs1

/-- What is computed is what the rest goes on with. -/
theorem look {f : BTree σ → Except Fault α} {a : α} (h : f t = .ok a)
    {Q : Except String α → Prop} (hQ : Q (.ok a)) :
    Answers t m (TableTx.look f : TableCall τ α) Q := by
  intro tx hs
  refine ⟨.ok a, tx, ?_, hs, hQ⟩
  rw [LawfulTableTx.look hs, h]
  rfl

theorem compute {r : Except Fault α} {a : α} (h : r = .ok a)
    {Q : Except String (Except ε α) → Prop} (hQ : Q (.ok (.ok a))) :
    Answers t m (TableTx.compute r : TableCall τ (Except ε α)) Q :=
  look (a := Except.ok a) (by rw [h]; rfl) hQ

/-- A table that is looked up, and what is read of it. -/
theorem onDefinition {c : TableCall τ (Except Bytes α)} {table : Bytes}
    {f : TableDef → Except Fault (Except Bytes α)} {Q : Except String (Except Bytes α) → Prop}
    (hc : ∀ tx, LawfulTableTx.Serves tx t m → ∃ tx', LawfulTableTx.Serves tx' t m ∧
      c tx = looked (SqlDb.onDefinition m table f) tx')
    (hlong : ¬ ValidKey (tableKey table) → Q (.error (limitText (tableKey table))))
    (hmissing : ValidKey (tableKey table) → definition m table = none →
      Q (.ok (.error (DBTX.notFound table))))
    (hfound : ∀ tdef, ValidKey (tableKey table) → definition m table = some tdef →
      ∃ r, f tdef = .ok r ∧ Q (.ok r)) : Answers t m c Q := by
  intro tx hs
  obtain ⟨tx', hs', hrun⟩ := hc tx hs
  rw [hrun]
  unfold SqlDb.onDefinition
  by_cases hk : ValidKey (tableKey table)
  · rw [if_pos hk]
    cases hdef : definition m table with
    | none => exact ⟨_, tx', rfl, hs', hmissing hk hdef⟩
    | some tdef =>
        obtain ⟨r, hr, hQ⟩ := hfound tdef hk hdef
        dsimp only
        rw [hr]
        exact ⟨_, tx', rfl, hs', hQ⟩
  · rw [if_neg hk]
    exact ⟨_, tx', rfl, hs', hlong hk⟩

end Answers

/-! ## Scans -/

/-- A call on a table whose name is too long for a key threw, or the answer is such. -/
def ThrewOr {α : Type} (table : Bytes) (Q : α → Prop) (r : Except String α) : Prop :=
  (¬ ValidKey (tableKey table) ∧ r = .error (limitText (tableKey table))) ∨ ∃ a, r = .ok a ∧ Q a

/-- The tables' columns are of types that are stored. -/
def Relations.Plain (D : Relations) : Prop := ∀ name tbl, D name = some tbl →
    SqlDb.Plain tbl.tdef.types

theorem Relations.Plain.none : Relations.Plain fun _ => none := fun _ _ he => nomatch he

/-- What looking a table up answers. -/
def Relations.Defines (D : Relations) (table : Bytes) : Except Bytes TableDef → Prop
  | .ok tdef => ∃ tbl, D table = some tbl ∧ tbl.tdef = tdef
  | .error err => D table = none ∧ err = DBTX.notFound table

/-- What a scan answers. -/
def Relations.ScanAnswers (D : Relations) (req : QLScan) : Except Bytes (List Record) → Prop
  | .ok recs => ∃ tbl S, D.Scans req tbl S ∧ recs = S.map (Record.ofCols tbl.tdef.cols)
  | .error err => D.ScanFails req err

/-- **A scan has one answer.** -/
theorem Relations.ScanAnswers.unique {D : Relations} {req : QLScan}
    {r r' : Except Bytes (List Record)} (h : D.ScanAnswers req r) (h' : D.ScanAnswers req r') :
    r = r' := by
  cases r with
  | ok recs =>
      obtain ⟨tbl, S, hscans, rfl⟩ := h
      cases r' with
      | ok recs' =>
          obtain ⟨tbl', S', hscans', rfl⟩ := h'
          obtain ⟨rfl, rfl⟩ := hscans.unique hscans'
          rfl
      | error err => exact absurd h' hscans.not_fails
  | error err =>
      cases r' with
      | ok recs =>
          obtain ⟨tbl, S, hscans, _⟩ := h'
          exact absurd h hscans.not_fails
      | error err' => exact congrArg Except.error (Relations.ScanFails.unique h h')

section Scan

variable {τ σ α β ε ε' : Type} [PageManager σ] [TableTx τ σ] [LawfulTableTx τ] {t : BTree σ}
  {m : Contents} {D : Relations} {table : Bytes}

theorem ThrewOr.ok {Q : α → Prop} {a : α} (h : ThrewOr table Q (.ok a)) : Q a := by
  rcases h with ⟨_, h⟩ | ⟨b, hb, h⟩
  · cases h
  · rw [Except.ok.inj hb]
    exact h

/-- After a throw nothing else is run. -/
theorem Answers.threwOr {say : ε → ε'} {c : TableCall τ (Except ε α)}
    {f : α → TableCall τ (Except ε' β)} {P : Except ε α → Prop} {Q : Except ε' β → Prop}
    (hc : Answers t m c (ThrewOr table P)) (hno : ∀ err, P (.error err) → Q (.error (say err)))
    (hf : ∀ a, P (.ok a) → Answers t m (f a) (ThrewOr table Q)) :
    Answers t m (TableTx.andThen say c f) (ThrewOr table Q) := by
  refine Answers.andThen hc (fun what hP => ?_) (fun err hP => Or.inr ⟨_, rfl, hno err hP.ok⟩)
    fun a hP => hf a hP.ok
  rcases hP with ⟨hlong, he⟩ | ⟨_, he, _⟩
  · exact Or.inl ⟨hlong, congrArg Except.error (Except.error.inj he)⟩
  · cases he

/-- A call that looks the table up and reads. -/
theorem Answers.reads (hstands : Stands m D) {c : TableCall τ (Except Bytes α)}
    {f : TableDef → Except Fault (Except Bytes α)} {Q : Except Bytes α → Prop}
    (hc : ∀ tx, LawfulTableTx.Serves tx t m → ∃ tx', LawfulTableTx.Serves tx' t m ∧
      c tx = looked (SqlDb.onDefinition m table f) tx')
    (hmissing : D table = none → Q (.error (DBTX.notFound table)))
    (hfound : ∀ tbl, D table = some tbl → ∃ r, f tbl.tdef = .ok r ∧ Q r) :
    Answers t m c (ThrewOr table Q) := by
  refine Answers.onDefinition hc (fun hlong => Or.inl ⟨hlong, rfl⟩) (fun _ hdef => ?_)
    fun tdef _ hdef => ?_
  · rw [hstands.definition] at hdef
    exact Or.inr ⟨_, rfl, hmissing (Relations.defs_eq_none.mp hdef)⟩
  · rw [hstands.definition] at hdef
    obtain ⟨tbl, htbl, rfl⟩ := Relations.defs_eq_some.mp hdef
    obtain ⟨r, hr, hQ⟩ := hfound tbl htbl
    exact ⟨r, hr, Or.inr ⟨r, rfl, hQ⟩⟩

theorem tableDef_answers (hread : t.Readable m) (hstands : Stands m D) (table : Bytes) :
    Answers t m (TableTx.tableDef table : TableCall τ (Except Bytes TableDef))
      (ThrewOr table (D.Defines table)) :=
  Answers.reads hstands (fun _ hs => LawfulTableTx.tableDef hs hread table)
    (fun hnone => ⟨hnone, rfl⟩)
    fun tbl htbl => ⟨_, rfl, tbl, htbl, rfl⟩

/-- **A scan answers what it means.** -/
theorem scanRows_answers (hread : t.Readable m) (hstands : Stands m D)
    (hplain : D.Plain) {fuel : Nat} (hfuel : m.length ≤ fuel) (req : QLScan) :
    Answers t m (TableTx.scanRows fuel req : TableCall τ (Except Bytes (List Record)))
      (ThrewOr req.table (D.ScanAnswers req)) := by
  unfold TableTx.scanRows
  split
  · rename_i hno
    refine .answer (Or.inr ⟨_, rfl, .indexBy fun (h : req.Filters) => ?_⟩)
    exact hno.elim (fun h1 => h1 h.1) fun h2 => h2 h.2
  · rename_i hyes
    have hfilters : req.Filters := by
      unfold QLScan.Filters
      simpa only [not_or, not_not] using hyes
    refine Answers.threwOr (tableDef_answers hread hstands req.table) ?_ fun tdef htdef => ?_
    · rintro err ⟨hnone, rfl⟩
      exact .missing hfilters hnone
    obtain ⟨tbl, htbl, rfl⟩ := htdef
    obtain ⟨range, hrange, houtcome⟩ := req.outcome (hstands.sound _ _ htbl) (hplain _ _ htbl) hread
      (hstands.represents _ _ htbl) hfuel
    refine Answers.threwOr (P := fun r => r = .ok range) (.compute hrange (Or.inr ⟨_, rfl, rfl⟩))
      (fun _ he => nomatch he) fun range' he => ?_
    obtain rfl := Except.ok.inj he
    -- the range is refused, or walked
    rcases houtcome with ⟨hstrays, hrefused⟩ | ⟨hplanned, sc, r, L, hscan, hreads, hloop, hok, herr⟩
    · refine Answers.threwOr (P := fun r => ∃ err, r = .error err ∧ D.ScanFails req err)
        (Answers.reads hstands (fun _ hs => LawfulTableTx.scan hs hread req.table _) ?_ ?_) ?_ ?_
      · intro hnone
        rw [htbl] at hnone
        cases hnone
      · intro tbl' htbl'
        obtain rfl := Option.some.inj (htbl.symm.trans htbl')
        exact ⟨_, hrefused, _, rfl, .strays hfilters htbl hstrays⟩
      · rintro err ⟨_, he, hfails⟩
        rw [Except.error.inj he]
        exact hfails
      · rintro sc ⟨_, he, _⟩
        cases he
    · refine Answers.threwOr (P := fun r => r = .ok sc)
        (Answers.reads hstands (fun _ hs => LawfulTableTx.scan hs hread req.table _) ?_ ?_)
        (fun _ he => nomatch he) fun sc' he => ?_
      · intro hnone
        rw [htbl] at hnone
        cases hnone
      · intro tbl' htbl'
        obtain rfl := Option.some.inj (htbl.symm.trans htbl')
        exact ⟨_, hscan, rfl⟩
      · obtain rfl := Except.ok.inj he
        refine .look hloop (Or.inr ⟨r, rfl, ?_⟩)
        cases r with
        | error err => exact .keeps hfilters htbl hplanned hreads (herr err rfl)
        | ok recs =>
            obtain ⟨hdecided, cols, K, hordered, hkeeps, hrecs⟩ := hok recs rfl
            exact ⟨tbl, _, ⟨hfilters, htbl, hplanned, ⟨L, hreads, hdecided⟩,
              cols, K, hordered, hkeeps, rfl⟩, hrecs⟩

end Scan

/-! ## SELECT lists -/

section Output

theorem QLNode.eq_star {expr : QLNode} (h : expr.isStar = true) : expr = .star := by
  cases expr with
  | star => rfl
  | _ => cases h

/-- One output record: the cells of every item, or the error of the first that has no value. -/
theorem outputRow_spec {output : List QLNode} {names : List Bytes} (row orec : Record)
    (hlen : names.length = output.length) : ∃ r, outputRow row output names orec = .ok r ∧
      (∀ orec', r = .ok orec' → ∃ parts, List.Forall₂ (ItemCells row) (names.zip output) parts ∧
        orec'.cells = orec.cells ++ parts.flatten) ∧
      ∀ err, r = .error err → ∃ before name expr after parts,
        names.zip output = before ++ (name, expr) :: after ∧
          List.Forall₂ (ItemCells row) before parts ∧ expr.isStar = false ∧
          qlEval expr row = .error err := by
  induction output generalizing names orec with
  | nil =>
      refine ⟨.ok orec, by rw [outputRow], fun orec' he => ⟨[], ?_, ?_⟩, fun _ he => nomatch he⟩
      · rw [List.zip_nil_right]
        exact .nil
      · rw [← Except.ok.inj he, List.flatten_nil, List.append_nil]
  | cons expr output ih =>
      cases names with
      | nil => cases hlen
      | cons name names =>
          have hlen' : names.length = output.length := Nat.succ.inj hlen
          -- an item, and then the others
          have hitem : ∀ {cells}, ItemCells row (name, expr) cells →
              ∃ r, outputRow row output names ⟨orec.cells ++ cells⟩ = .ok r ∧
              (∀ orec', r = .ok orec' → ∃ parts,
                List.Forall₂ (ItemCells row) ((name :: names).zip (expr :: output)) parts ∧
                orec'.cells = orec.cells ++ parts.flatten) ∧
              ∀ err, r = .error err → ∃ before name' expr' after parts,
                (name :: names).zip (expr :: output) = before ++ (name', expr') :: after ∧
                  List.Forall₂ (ItemCells row) before parts ∧ expr'.isStar = false ∧
                  qlEval expr' row = .error err := by
            intro cells hcells
            obtain ⟨r, hr, hok, herr⟩ := ih ⟨orec.cells ++ cells⟩ hlen'
            refine ⟨r, hr, fun orec' he => ?_, fun err he => ?_⟩
            · obtain ⟨parts, hparts, hcells'⟩ := hok orec' he
              refine ⟨cells :: parts, .cons hcells hparts, ?_⟩
              rw [hcells', List.flatten_cons, List.append_assoc]
            · obtain ⟨before, name', expr', after, parts, hzip, hparts, hrest⟩ := herr err he
              refine ⟨(name, expr) :: before, name', expr', after, cells :: parts, ?_,
                .cons hcells hparts, hrest⟩
              rw [List.zip_cons_cons, hzip]
              rfl
          rw [outputRow]
          by_cases hstar : expr.isStar = true
          · rw [if_pos hstar]
            obtain rfl := QLNode.eq_star hstar
            exact hitem .star
          · rw [if_neg hstar]
            cases heval : qlEval expr row with
            | error err =>
                refine ⟨_, rfl, fun _ he => (nomatch he), fun err' he => ?_⟩
                refine ⟨[], name, expr, names.zip output, [], rfl, .nil,
                  Bool.eq_false_of_not_eq_true hstar, ?_⟩
                rw [heval, Except.error.inj he]
            | ok v => exact hitem (.value heval)

theorem outputRows_spec {req : QLSelect} (hlen : req.names.length = req.output.length)
    (rows : List Record) : ∃ r, outputRows req rows = .ok r ∧
      (∀ orecs, r = .ok orecs → List.Forall₂ req.Outputs rows orecs) ∧
      ∀ err, r = .error err → ∃ done row rest, rows = done ++ row :: rest ∧
        (∀ row ∈ done, ∃ orec, req.Outputs row orec) ∧ req.FailsOn row err := by
  induction rows with
  | nil =>
      refine ⟨.ok [], rfl, fun orecs he => ?_, fun _ he => nomatch he⟩
      rw [← Except.ok.inj he]
      exact .nil
  | cons row rows ih =>
      obtain ⟨r1, hr1, hok1, herr1⟩ := outputRow_spec row {} hlen
      rw [outputRows, hr1, ok_bind]
      cases r1 with
      | error err =>
          refine ⟨_, rfl, fun _ he => (nomatch he), fun err' he => ?_⟩
          refine ⟨[], row, rows, rfl, fun _ hrow => absurd hrow List.not_mem_nil, ?_⟩
          exact herr1 err' (congrArg Except.error (Except.error.inj he))
      | ok orec =>
          obtain ⟨r2, hr2, hok2, herr2⟩ := ih
          obtain ⟨parts, hparts, hcells⟩ := hok1 orec rfl
          dsimp only
          rw [hr2, ok_bind]
          cases r2 with
          | error err =>
              refine ⟨_, rfl, fun _ he => (nomatch he), fun err' he => ?_⟩
              obtain ⟨done, row', rest, rfl, hdone, hfails⟩ :=
                herr2 err' (congrArg Except.error (Except.error.inj he))
              refine ⟨row :: done, row', rest, rfl, fun r hr => ?_, hfails⟩
              rcases List.mem_cons.mp hr with rfl | hr
              · exact ⟨orec, parts, hparts, hcells⟩
              · exact hdone r hr
          | ok orecs =>
              refine ⟨_, rfl, fun orecs' he => ?_, fun _ he => nomatch he⟩
              rw [← Except.ok.inj he]
              exact .cons ⟨parts, hparts, hcells⟩ (hok2 orecs rfl)

end Output

section Select

variable {σ : Type} [PageManager σ] {t : BTree σ} {m : Contents} {D : Relations} {fuel : Nat}

/-- **SELECT answers what it means.** -/
theorem selectRows_answers {τ : Type} [TableTx τ σ] [LawfulTableTx τ] (hread : t.Readable m)
    (hstands : Stands m D) (hplain : D.Plain) (hfuel : m.length ≤ fuel) {req : QLSelect}
    (hlen : req.names.length = req.output.length) :
    Answers t m (TableTx.selectRows fuel req : TableCall τ (Except Bytes (List Record)))
      (ThrewOr req.scan.table (D.Selects req)) := by
  refine Answers.threwOr (scanRows_answers hread hstands hplain hfuel req.scan)
    (fun err hfails => .scan hfails) fun recs hrecs => ?_
  obtain ⟨tbl, S, hscans, rfl⟩ := hrecs
  obtain ⟨r, hr, hok, herr⟩ := outputRows_spec hlen (S.map (Record.ofCols tbl.tdef.cols))
  refine .look hr (Or.inr ⟨r, rfl, ?_⟩)
  cases r with
  | ok orecs => exact .rows hscans (List.forall₂_map_left_iff.mp (hok orecs rfl))
  | error err =>
      obtain ⟨done, rec, rest, hsplit, hdone, hfails⟩ := herr err rfl
      obtain ⟨done, tail, rfl, rfl, htail⟩ := List.map_eq_append_iff.mp hsplit
      obtain ⟨row, rest, rfl, rfl, rfl⟩ := List.map_eq_cons_iff.mp htail
      exact .item hscans (fun r hr => hdone _ (List.mem_map_of_mem hr)) hfails

end Select

end SqlDb
