import SqlDb.Db.Durability
import SqlDb.Db.Transactions
import SqlDb.Ql.Calls

/-!
# Texts, one after the other

`ql_run` on the write transaction and on readers, anywhere in a run of the database. What the
application sent and what came of it is the journal: it is what the texts mean, statement by
statement, with whole transactions between the versions.
-/

namespace SqlDb

open Outcome OrdMap

/-! ## What a text means -/

namespace Relations

variable (D : Relations)

/-- What a text answers and leaves. -/
inductive Ran (sql : Bytes) : Option (Answer QLResult) → Relations → Prop where
  | unparsed : parseStatement sql = none → Ran sql none D
  | parsed {stmt : QLStatement} {r : Answer QLResult} {D' : Relations} :
      parseStatement sql = some stmt → D.Exec stmt r D' → Ran sql (some r) D'

/-- What it answers on a reader. -/
inductive Read (sql : Bytes) : Option (Answer QLResult) → Prop where
  | unparsed : parseStatement sql = none → Read sql none
  | select {req : QLSelect} {r : Except Bytes (List Record)} :
      parseStatement sql = some (.select req) → D.Selects req r →
      Read sql (some (produced (fun rows => { rows := rows }) r))
  | writes {stmt : QLStatement} : parseStatement sql = some stmt → (∀ req, stmt ≠ .select req) →
      Read sql (some (.error (some
        (.ofString "only SELECT can run on a reader; this statement needs a write transaction"))))

end Relations

/-- What the parser builds can be run. -/
theorem QLStatement.WellFormed.proper {stmt : QLStatement} (h : stmt.WellFormed) : stmt.Proper := by
  cases stmt with
  | createTable stmt =>
      refine ⟨⟨fun tdef accepted he _ => ?_, fun tdef he => ?_⟩, h.types⟩
      · obtain rfl := DBOp.tableNew.inj he
        refine ⟨fun hnl => ?_, fun col hcol =>
          ⟨(h.cols col hcol).ident.ne_nil, (h.cols col hcol).ident.isSpace⟩⟩
        cases (h.name.ident.isSpace newline hnl : isSpace newline = false)
      · obtain rfl := DBOp.tableNew.inj he
        exact h.distinct
  | select stmt => exact h.parallel
  | insert => trivial
  | update => trivial
  | delete => trivial

/-! ## On the write transaction -/

namespace DB

/-- What the call of CREATE TABLE answered. -/
def tableReply : Option (Answer QLResult) → DBReply
  | some (.ok _) => .done (.ok ())
  | some (.error (some err)) => .done (.error err)
  | _ => .done (.error [])

/-- The database after a text that returned or threw. -/
def ran (db : DB) (tx : KVTX) (map : Contents) (sql : Bytes)
    (r : Except String (Option (Answer QLResult))) (tx' : DBTX (FreeList TxPages))
    (map' : Contents) :
    DB :=
  match parseStatement sql with
  | some (.createTable stmt) => db.called tx map (.tableNew stmt.tdef) (r.map tableReply) tx' map'
  | _ => db.left tx tx' map'

/-- A text on the write transaction, and the database after it. -/
def Running (db : DB) (sql : Bytes) (r : Except String (Option (Answer QLResult)))
    (db' : DB) : Prop :=
  ∃ fuel tx map tx' map', db.world.stage = .running tx map ∧ map.length ≤ fuel ∧
    DBTX.qlRun fuel sql (db.session tx) = .ok (r, tx') ∧ tx'.tree.Readable map' ∧
    db' = db.ran tx map sql r tx' map'

/-- The texts of transactions. -/
def texts : Acts (Bytes × Option (Answer QLResult)) where
  returned db e db' := db.Running e.1 (.ok e.2) db'
  threw db db' := ∃ sql what, db.Running sql (.error what) db'

section Texts

variable {db db' : DB} {sql : Bytes} {tx : KVTX} {map map' : Contents}
  {tx' : DBTX (FreeList TxPages)}

/-- A text that is run is not parsed, or is run as a statement. -/
theorem qlRun_cases {σ : Type} [PageManager σ] {fuel : Nat} {tx tx' : DBTX σ}
    {r : Except String (Option (Answer QLResult))} (h : DBTX.qlRun fuel sql tx = .ok (r, tx')) :
    (parseStatement sql = none ∧ r = .ok none ∧ tx' = tx) ∨
      ∃ stmt r0, parseStatement sql = some stmt ∧ DBTX.qlExec fuel stmt tx = .ok (r0, tx') ∧
        r = r0.map some := by
  unfold DBTX.qlRun at h
  cases hparse : parseStatement sql with
  | none =>
      rw [hparse] at h
      obtain ⟨rfl, rfl⟩ := Prod.mk.inj (Except.ok.inj h)
      exact Or.inl ⟨rfl, rfl, rfl⟩
  | some stmt =>
      rw [hparse] at h
      dsimp only at h
      cases hexec : DBTX.qlExec fuel stmt tx with
      | error e =>
          rw [hexec] at h
          cases h
      | ok out =>
          obtain ⟨r0, tx1⟩ := out
          rw [hexec] at h
          cases r0 with
          | error what =>
              obtain ⟨rfl, rfl⟩ := Prod.mk.inj (Except.ok.inj h)
              exact Or.inr ⟨stmt, _, rfl, hexec, rfl⟩
          | ok r0 =>
              obtain ⟨rfl, rfl⟩ := Prod.mk.inj (Except.ok.inj h)
              exact Or.inr ⟨stmt, _, rfl, hexec, rfl⟩

theorem call_tableNew {σ : Type} [PageManager σ] (tdef : TableDef) :
    (DBTX.call (.tableNew tdef) : DBTX.Call σ DBReply) = DBTX.reply .done (DBTX.tableNew tdef) := rfl

/-- CREATE TABLE is one call. -/
theorem qlExec_createTable {σ : Type} [PageManager σ] {fuel : Nat} {stmt : QLCreateTable}
    {tx tx' : DBTX σ} {r : Except String (Answer QLResult)}
    (h : DBTX.qlExec fuel (.createTable stmt) tx = .ok (r, tx')) :
    DBTX.call (.tableNew stmt.tdef) tx = .ok ((r.map some).map tableReply, tx') := by
  have h : TableTx.andThen some (DBTX.tableNew stmt.tdef) (fun _ => TableTx.answer (.ok {})) tx =
      .ok (r, tx') := h
  rw [call_tableNew]
  unfold DBTX.reply
  rcases DBTX.andThen_cases h with ⟨_, hnew, rfl⟩ | ⟨_, hnew, rfl⟩ | ⟨_, _, hnew, hanswer⟩
  · rw [hnew]
    rfl
  · rw [hnew]
    rfl
  · obtain ⟨rfl, rfl⟩ := Prod.mk.inj (Except.ok.inj hanswer)
    rw [hnew]
    rfl

theorem qlRun_createTable {σ : Type} [PageManager σ] (fuel : Nat) {stmt : QLCreateTable}
    {tx tx' : DBTX σ} (hparse : parseStatement sql = some (.createTable stmt))
    (h : DBTX.tableNew stmt.tdef tx = .ok (.ok (.ok ()), tx')) :
    DBTX.qlRun fuel sql tx = .ok (.ok (some (.ok {})), tx') := by
  have hexec : DBTX.qlExec fuel (.createTable stmt) tx = .ok (.ok (.ok {}), tx') := DBTX.andThen_run h
  unfold DBTX.qlRun
  rw [hparse]
  dsimp only
  rw [hexec]

theorem ran_of_ne (hno : ∀ req, parseStatement sql ≠ some (.createTable req))
    (r : Except String (Option (Answer QLResult))) :
    db.ran tx map sql r tx' map' = db.left tx tx' map' := by
  unfold ran
  split
  · rename_i stmt hparse
    exact absurd hparse (hno stmt)
  · rfl

theorem ran_createTable {stmt : QLCreateTable} (hparse : parseStatement sql = some (.createTable stmt))
    (r : Except String (Option (Answer QLResult))) : db.ran tx map sql r tx' map' =
      db.called tx map (.tableNew stmt.tdef) (r.map tableReply) tx' map' := by
  unfold ran
  rw [hparse]

theorem ran_stage (r : Except String (Option (Answer QLResult))) :
    (db.ran tx map sql r tx' map').world.stage = .running { tx with tree := tx'.tree } map' := by
  unfold ran
  split <;> rfl

theorem ran_allocated {stmt : QLStatement} (hparse : parseStatement sql = some stmt)
    (r : Except String (Option (Answer QLResult))) :
    (db.ran tx map sql r tx' map').allocated = db.allocated + stmt.given map map' := by
  unfold ran
  rw [hparse]
  cases stmt <;> rfl

/-- **A text is calls**, one after the other. -/
theorem Running.calls {r : Except String (Option (Answer QLResult))} (hr : Reachable DBOp.Proper db)
    (h : db.Running sql r db') : db.world.stage.Running ∧ Calls DBOp.Proper db db' := by
  obtain ⟨fuel, tx, map, tx', map', hst, _, hrun, hread, rfl⟩ := h
  refine ⟨⟨tx, map, hst⟩, ?_⟩
  have hmade : (db.session tx).Made tx' → Calls DBOp.Proper db (db.left tx tx' map') := by
    intro hmade
    obtain ⟨map1, hread1, hcalls⟩ := Calls.made hr hst hmade
    rwa [hread1.unique hread] at hcalls
  rcases qlRun_cases hrun with ⟨hparse, _, rfl⟩ | ⟨stmt, r0, hparse, hexec, rfl⟩
  · rw [ran_of_ne fun req => by rw [hparse]; exact nofun]
    exact hmade .refl
  · by_cases hcreate : ∃ req, stmt = .createTable req
    · obtain ⟨req, rfl⟩ := hcreate
      rw [ran_createTable hparse]
      have hproper : DBOp.Proper (.tableNew req.tdef) := (parseStatement_wellFormed hparse).proper.1
      exact .call .refl hst hproper (qlExec_createTable hexec) hread
    · have hno : ∀ req, stmt ≠ .createTable req := fun req he => hcreate ⟨req, he⟩
      rw [ran_of_ne fun req he => hno req (Option.some.inj (hparse.symm.trans he))]
      exact hmade (DBTX.makes_qlExec fuel stmt hno _ _ _ hexec)

/-- **Texts do to the relations what they mean.** -/
theorem texts_lawful : texts.Lawful Relations.Plain fun D e D' => D.Ran e.1 e.2 D' where
  returned hr h := h.calls hr
  threw hr h := by
    obtain ⟨sql, what, hrunning⟩ := h
    exact hrunning.calls hr
  refines := by
    rintro db ⟨sql, r⟩ db' pages tx map D hrunning hsound hinv hn hst hstands hplain
    obtain ⟨fuel, tx1, map1, tx', map', hst1, hfuel, hrun, hread, rfl⟩ := hrunning
    obtain ⟨rfl, rfl⟩ := Stage.running.inj (hst.symm.trans hst1)
    have hstage := hinv.stage
    rw [hst] at hstage
    obtain ⟨b, hbegan, _, ps, ht⟩ := hstage
    have hI : LawfulPages (TxOwns b) Stops := (TxPages.lawful hbegan.sound).stops
    have hmap : db.world.stage.map? = some map := by
      rw [hst]
      rfl
    -- what the transaction sees when the text comes
    have hsees : (db.session tx).Sees (TxOwns b) db.allocated map D :=
      ⟨⟨ps, ht⟩, (hsound.cached.running tx map hst).1, hsound.views map (Or.inr hmap), hstands⟩
    have hn' : db.allocated < 2 ^ 32 - 3 := by
      refine lt_of_le_of_lt ?_ hn
      unfold ran
      split
      · exact Nat.le_add_right _ _
      · exact le_refl _
    rcases qlRun_cases hrun with ⟨hparse, he, rfl⟩ | ⟨stmt, r0, hparse, hexec, he⟩
    · obtain rfl := Except.ok.inj he
      obtain rfl := (hsees.readable hI).unique hread
      exact ⟨_, map, D, ran_stage _, .unparsed hparse, hstands, hplain⟩
    · cases r0 with
      | error what => cases he
      | ok a =>
          obtain rfl := Except.ok.inj he
          have hproper := (parseStatement_wellFormed hparse).proper
          rw [ran_allocated hparse] at hn
          obtain ⟨m', D', hread', hstep, hsees'⟩ := hsees.qlExec hI hplain hfuel hproper hn'
            (fun m' hread' => by rwa [hread'.unique hread]) hexec
          obtain rfl := hread'.unique hread
          exact ⟨_, m', D', ran_stage _, .parsed hparse hstep, hsees'.stands,
            hstep.plain hproper hplain⟩

end Texts

end DB

/-! ## On readers -/

section Keeps

variable {τ σ α β ε ε' : Type} [PageManager σ] [TableTx τ σ] [LawfulTableTx τ] {t : BTree σ}
  {m : Contents}

/-- Whatever it returns, the tree and what is at hand of the catalog stay as good as they were. -/
def Keeps (t : BTree σ) (m : Contents) (c : TableCall τ α) : Prop :=
  ∀ tx r tx', LawfulTableTx.Serves tx t m → c tx = .ok (r, tx') → LawfulTableTx.Serves tx' t m

theorem Keeps.answer (r : Except ε α) : Keeps t m (TableTx.answer r : TableCall τ (Except ε α)) := by
  intro tx r' tx' hs h
  obtain ⟨_, rfl⟩ := Prod.mk.inj (Except.ok.inj h)
  exact hs

theorem Keeps.looked {c : TableCall τ α} {r0 : Except Fault α}
    (hc : ∀ tx, LawfulTableTx.Serves tx t m → ∃ tx', LawfulTableTx.Serves tx' t m ∧
      c tx = SqlDb.looked r0 tx') : Keeps t m c := by
  intro tx r tx' hs h
  obtain ⟨tx1, hs1, hrun⟩ := hc tx hs
  rw [hrun] at h
  cases r0 with
  | ok a =>
      obtain ⟨_, rfl⟩ := Prod.mk.inj (Except.ok.inj h)
      exact hs1
  | error f =>
      cases f with
      | throws what =>
          obtain ⟨_, rfl⟩ := Prod.mk.inj (Except.ok.inj h)
          exact hs1
      | _ => cases h

theorem Keeps.look (f : BTree σ → Except Fault α) : Keeps t m (TableTx.look f : TableCall τ α) :=
  .looked fun tx hs => ⟨tx, hs, LawfulTableTx.look hs f⟩

theorem Keeps.andThen {say : ε → ε'} {c : TableCall τ (Except ε α)}
    {f : α → TableCall τ (Except ε' β)} (hc : Keeps t m c) (hf : ∀ a, Keeps t m (f a)) :
    Keeps t m (TableTx.andThen say c f) := by
  intro tx r tx' hs h
  unfold TableTx.andThen at h
  cases hrun : c tx with
  | error e =>
      rw [hrun] at h
      cases h
  | ok out =>
      obtain ⟨r1, tx1⟩ := out
      have hs1 := hc tx r1 tx1 hs hrun
      rw [hrun] at h
      cases r1 with
      | error what =>
          obtain ⟨_, rfl⟩ := Prod.mk.inj (Except.ok.inj h)
          exact hs1
      | ok r1 =>
          cases r1 with
          | error err =>
              obtain ⟨_, rfl⟩ := Prod.mk.inj (Except.ok.inj h)
              exact hs1
          | ok a => exact hf a tx1 r tx' hs1 h

theorem keeps_selectRows (hread : t.Readable m) (fuel : Nat) (req : QLSelect) :
    Keeps t m (TableTx.selectRows fuel req : TableCall τ (Except Bytes (List Record))) := by
  have htable : ∀ table, Keeps t m (TableTx.tableDef table : TableCall τ (Except Bytes TableDef)) :=
    fun table => .looked fun tx hs => LawfulTableTx.tableDef hs hread table
  have hscan : ∀ table scan, Keeps t m (TableTx.scan table scan : TableCall τ (Except Bytes Scanner)) :=
    fun table scan => .looked fun tx hs => LawfulTableTx.scan hs hread table scan
  refine .andThen ?_ fun rows => .look _
  unfold TableTx.scanRows
  split
  · exact .answer _
  · refine .andThen (htable _) fun tdef => .andThen (.look _) fun range => ?_
    exact .andThen (hscan _ _) fun sc => .look _

end Keeps

namespace DBReader

variable {σ : Type} [PageManager σ] {m : Contents} {D : Relations} {rd rd' : DBReader σ} {fuel : Nat}
  {sql : Bytes}

/-- A text leaves what the reader has of the catalog in the bindings. -/
theorem qlRun_good {r : Except String (Option (Answer QLResult))} (hread : rd.tree.Readable m)
    (hgood : rd.asTx.catalog.Good m) (hrun : qlRun fuel sql rd = .ok (r, rd')) :
    rd'.asTx.catalog.Good m := by
  have hexec : ∀ {stmt r}, qlExec fuel stmt rd = .ok (r, rd') → rd'.asTx.catalog.Good m := by
    intro stmt r h
    have hkeeps : Keeps rd.tree m (qlExec fuel stmt : Call σ (Answer QLResult)) := by
      cases stmt with
      | select req => exact .andThen (keeps_selectRows hread fuel req) fun rows => .answer _
      | _ => exact .answer _
    exact (hkeeps rd r rd' ⟨rfl, hgood⟩ h).2
  unfold qlRun at hrun
  cases hparse : parseStatement sql with
  | none =>
      rw [hparse] at hrun
      obtain ⟨_, rfl⟩ := Prod.mk.inj (Except.ok.inj hrun)
      exact hgood
  | some stmt =>
      rw [hparse] at hrun
      dsimp only at hrun
      cases h : qlExec fuel stmt rd with
      | error e =>
          rw [h] at hrun
          cases hrun
      | ok out =>
          obtain ⟨r0, rd1⟩ := out
          rw [h] at hrun
          cases r0 with
          | error what =>
              obtain ⟨_, rfl⟩ := Prod.mk.inj (Except.ok.inj hrun)
              exact hexec h
          | ok r0 =>
              obtain ⟨_, rfl⟩ := Prod.mk.inj (Except.ok.inj hrun)
              exact hexec h

/-- **A text on a reader** always answers, and as it means; but a table's name that is too long for
a key throws. -/
theorem qlRun_answers (hread : rd.tree.Readable m) (hgood : rd.asTx.catalog.Good m)
    (hstands : Stands m D) (hplain : D.Plain) (hfuel : m.length ≤ fuel) (sql : Bytes) :
    ∃ r rd', qlRun fuel sql rd = .ok (r, rd') ∧ ((∃ a, r = .ok a ∧ D.Read sql a) ∨
      ∃ req, parseStatement sql = some (.select req) ∧ ¬ ValidKey (tableKey req.scan.table) ∧
        r = .error (limitText (tableKey req.scan.table))) := by
  unfold qlRun
  cases hparse : parseStatement sql with
  | none => exact ⟨_, rd, rfl, Or.inl ⟨_, rfl, .unparsed hparse⟩⟩
  | some stmt =>
      cases stmt with
      | select req =>
          have hselect : Answers rd.tree m (qlSelect fuel req : Call σ (Except Bytes (List Record)))
              (ThrewOr req.scan.table (D.Selects req)) :=
            selectRows_answers hread hstands hplain hfuel (parseStatement_wellFormed hparse).proper
          have hexec : Answers rd.tree m (qlExec fuel (.select req) : Call σ (Answer QLResult))
              (ThrewOr req.scan.table fun a => D.Read sql (some a)) :=
            .threwOr hselect (fun err h => .select hparse h) fun rows h =>
              .answer (Or.inr ⟨_, rfl, .select hparse h⟩)
          obtain ⟨r, rd', hrun, _, hanswers⟩ := hexec rd ⟨rfl, hgood⟩
          dsimp only
          rw [hrun]
          rcases hanswers with ⟨hlong, rfl⟩ | ⟨a, rfl, hread⟩
          · exact ⟨_, rd', rfl, Or.inr ⟨req, rfl, hlong, rfl⟩⟩
          · exact ⟨_, rd', rfl, Or.inl ⟨_, rfl, hread⟩⟩
      | _ => exact ⟨_, rd, rfl, Or.inl ⟨_, rfl, .writes hparse nofun⟩⟩

end DBReader

/-! ## Runs -/

namespace DB

/-- The texts of readers. -/
def readTexts : Uses := fun rd rd' => ∃ fuel sql r, DBReader.qlRun fuel sql rd = .ok (r, rd')

theorem readTexts_good : readTexts.Good := by
  rintro rd rd' m ⟨fuel, sql, r, hrun⟩ hread hgood
  exact DBReader.qlRun_good hread hgood hrun

/-- **Texts are serial**, in every state of a run in which a transaction is not committed if a text
of it threw: each version's relations come from those of the version before it by what the texts of
one transaction mean, with the answers that they gave, and those that the write transaction sees
come from the latest version's. A text on a reader always answers, from the relations of the version
that the reader began on. -/
theorem texts_serial {db : DB} {j : Journal (Bytes × Option (Answer QLResult))}
    (h : Orderly texts db j) (hn : db.allocated < 2 ^ 32 - 3) :
    ∃ Ds, Serial Relations.Plain (fun D e D' => D.Ran e.1 e.2 D') db j Ds ∧
      ∀ id tables, Reading DBOp.Proper readTexts id db tables →
        ∃ D, Ds[(db.world.reader id).version]? = some D ∧
          ∀ fuel sql, (db.world.seen id).length ≤ fuel →
            ∃ r rd', DBReader.qlRun fuel sql (db.opened id tables) = .ok (r, rd') ∧
              ((∃ a, r = .ok a ∧ D.Read sql a) ∨ ∃ req, parseStatement sql = some (.select req) ∧
                ¬ ValidKey (tableKey req.scan.table) ∧
                r = .error (limitText (tableKey req.scan.table))) := by
  obtain ⟨Ds, hserial⟩ := h.serial texts_lawful .none hn
  refine ⟨Ds, hserial, fun id tables hreading => ?_⟩
  obtain ⟨hr, hid, hgood⟩ := hreading.good readTexts_good
  obtain ⟨pages, hinv⟩ := hr.world
  obtain ⟨D, hD, hstands, hplain, hread, _⟩ := hserial.version hinv hid
  exact ⟨D, hD, fun fuel sql hfuel =>
    DBReader.qlRun_answers hread hgood hstands hplain hfuel sql⟩

def createPlain : QLStatement := .createTable ⟨plainTable⟩

theorem createPlain_wellFormed : createPlain.WellFormed := by
  have hname : ∀ {name}, name = .ofString "t" ∨ name = .ofString "k" → Name name := by
    rintro name (rfl | rfl) <;> exact ⟨ident_of_lower (by decide) (by decide), by decide⟩
  refine ⟨hname (Or.inl rfl), rfl, fun col hcol => ?_, List.nodup_singleton _, by decide, by decide,
    rfl, rfl, rfl⟩
  exact hname (Or.inr (List.mem_singleton.mp hcol))

/-- What the first transaction did, and the table it made. -/
def createdPlain : Journal (Bytes × Option (Answer QLResult)) where
  current := [(createPlain.text, some (.ok {}))]

/-- A table is made in the first transaction, by its text. -/
theorem orderly_createPlain : ∃ db tx map, Orderly texts db createdPlain ∧
    db.world.stage = .running tx map ∧ tx.tree.Readable map ∧ map ≠ [] ∧ db.world.kv = .fresh ∧
    db.allocated = 1 := by
  have hparse := parseStatement_text createPlain_wellFormed
    ((by decide : createPlain.text.length ≤ 100).trans_lt (by decide))
  obtain ⟨t', created', hcall, hroomy⟩ :=
    tableNew_plain 10 (KV.fresh.begin .empty).tree false (roomy_begin (by decide))
  rw [call_tableNew] at hcall
  obtain ⟨a, hnew, ha⟩ := DBTX.reply_ok hcall
  obtain rfl := DBReply.done.inj ha
  have hreturned : texts.returned begun (createPlain.text, some (.ok {})) _ :=
    ⟨0, KV.fresh.begin .empty, [], ⟨t', {}, created'⟩, _, rfl, Nat.le_refl _,
      qlRun_createTable 0 hparse hnew, hroomy.readable, rfl⟩
  have horderly : Orderly texts _ _ := .next (orderly_begun texts) (.returned hreturned)
  refine ⟨_, _, _, horderly, ran_stage _, hroomy.readable, by decide, ?_, ?_⟩
  · rw [ran_createTable hparse]
    rfl
  · rw [ran_allocated hparse]
    decide

/-- The transaction is committed. -/
theorem committed_createPlain : ∃ db, Orderly texts db { committed := [createdPlain.current] } ∧
    db.world.stage = .rooted ∧ db.world.kv.version = 1 ∧ db.allocated = 1 := by
  obtain ⟨db0, tx, map, horderly, hst, hread, hne, hkv, halloc0⟩ := orderly_createPlain
  obtain ⟨db, hcommitted, hrooted, hversion, halloc⟩ := Orderly.first_commit texts_lawful .none
    horderly hst hread hne hkv (by rw [halloc0]; decide)
  exact ⟨db, hcommitted, hrooted, hversion, halloc.trans halloc0⟩

/-- A reader is on the version that it left. -/
theorem texts_serial_create : ∃ db Ds id, Orderly texts db { committed := [createdPlain.current] } ∧
    Serial Relations.Plain (fun D e D' => D.Ran e.1 e.2 D') db
      { committed := [createdPlain.current] } Ds ∧
    Reading DBOp.Proper readTexts id db (fun _ => none) ∧
    ∃ D, Ds[1]? = some D ∧ ∀ fuel sql, (db.world.seen id).length ≤ fuel →
      ∃ r rd', DBReader.qlRun fuel sql (db.opened id fun _ => none) = .ok (r, rd') ∧
        ((∃ a, r = .ok a ∧ D.Read sql a) ∨ ∃ req, parseStatement sql = some (.select req) ∧
          ¬ ValidKey (tableKey req.scan.table) ∧
          r = .error (limitText (tableKey req.scan.table))) := by
  obtain ⟨db1, horderly1, hrooted, hversion, halloc1⟩ := committed_createPlain
  obtain ⟨db, id, horderly, hreading, hversion', halloc⟩ :=
    Orderly.first_read texts_lawful readTexts horderly1 hrooted hversion
  obtain ⟨Ds, hserial, hreads⟩ := texts_serial horderly (by rw [halloc, halloc1]; decide)
  have hread := hreads id _ hreading
  rw [hversion'] at hread
  exact ⟨db, Ds, id, horderly, hserial, hreading, hread⟩

end DB

end SqlDb
