import SqlDb.Access.RowKey
import SqlDb.Db.FirstRun
import SqlDb.Db.Tables

/-!
# The catalog across runs

What the invariant says to those who use the catalog: a definition that was accepted is
read back as it was stored, in its transaction and wherever it is published; no space of
keys reaches into another; and the cache cannot be told from the store.

Each of them fails once a table is accepted whose names are not tidy.
-/

namespace SqlDb

open Outcome OrdMap

/-! ## Reading through the store -/

namespace World

variable {w : World} {pages : Nat → Multiset Nat}

theorem Inv.running_readable (h : w.Inv pages) {tx : KVTX} {map : Contents}
    (hst : w.stage = .running tx map) : tx.tree.Readable map := by
  have hstage := h.stage
  rw [hst] at hstage
  obtain ⟨b, hbegan, _, ps, ht⟩ := hstage
  exact ht.readable (TxPages.lawful hbegan.sound)

/-- **An open reader** can read its version. -/
theorem Inv.reader_readable (h : w.Inv pages) {id : Nat} (hid : id ∈ w.readers) :
    ∃ V ∈ w.history, (w.reader id).version = V.version ∧
      ((w.reader id).tree w.file).Readable V.map := by
  obtain ⟨V, hV⟩ := h.base.reads id hid
  obtain ⟨ps, hview, _⟩ := h.view hid
  refine ⟨V, hV.mem, hV.version, ps, ?_, fun p hp => (hview.page p hp).1, hview.count⟩
  rw [← hV.seen]
  exact hview.tree.congr fun p hp => (hview.page p hp).2

end World

namespace DB

variable {ok : DBOp → Prop} {db : DB}

theorem Reachable.mono {ok' : DBOp → Prop} (h : Reachable ok db) (hok : ∀ op, ok op → ok' op) :
    Reachable ok' db := by
  induction h with
  | start => exact .start
  | step _ hstep ih =>
      refine .step ih ?_
      cases hstep with
      | beginRead h1 => exact .beginRead h1
      | endRead h1 h2 => exact .endRead h1 h2
      | begin h1 => exact .begin h1
      | call h1 h2 h3 h4 => exact .call h1 (hok _ h2) h3 h4
      | stop h1 => exact .stop h1
      | commit h1 h2 => exact .commit h1 h2
      | phase h1 h2 h3 h4 => exact .phase h1 h2 h3 h4
      | writeFails h1 h2 => exact .writeFails h1 h2
      | publish h1 h2 => exact .publish h1 h2
      | rootFails h1 => exact .rootFails h1
      | settle h1 => exact .settle h1
      | powerLoss h1 h2 => exact .powerLoss h1 h2

/-! ## Definitions -/

theorem Recorded.reads {σ : Type} [PageManager σ] {t : BTree σ} {m : Contents} {tdef : TableDef}
    (h : Recorded tdef m) (hread : t.Readable m) :
    getTableDefFromKv t tdef.name = .ok (some tdef) := by
  rw [getTableDefFromKv_eq hread, if_pos h.key]
  exact congrArg Except.ok (h.storable.definition h.stored)

/-- What `table_new` stored is read back in the transaction exactly when its names are tidy. -/
theorem Reachable.tableNew_reads_back (h : Reachable ok db) {tx : KVTX} {map : Contents}
    {tdef : TableDef} {tx' : DBTX (FreeList TxPages)} (hst : db.world.stage = .running tx map)
    (hcall : DBTX.call (.tableNew tdef) (db.session tx) = .ok (.ok (.done (.ok ())), tx')) :
    ∃ accepted, tableDefCheck tdef = .ok accepted ∧
      (getTableDefFromKv tx'.tree tdef.name = .ok (some (accepted.created map)) ↔ tdef.Tidy) := by
  obtain ⟨pages, hinv⟩ := h.world
  have hstage := hinv.stage
  rw [hst] at hstage
  obtain ⟨b, hbegan, _, ps, ht⟩ := hstage
  have hI : LawfulPages (TxOwns b) Stops := (TxPages.lawful hbegan.sound).stops
  have hdoes := DBTX.call_does hI (show (db.session tx).tree.Denotes _ map ps from ht)
    (.tableNew tdef)
  unfold DBTX.Does at hdoes
  rw [hcall] at hdoes
  obtain ⟨m', ps', hd, r0, hnew, hr, _⟩ := hdoes
  have hr0 : r0 = .ok (.ok ()) := by
    cases r0 with
    | error what => cases hr
    | ok r => exact congrArg Except.ok (DBReply.done.inj (Except.ok.inj hr)).symm
  rw [hr0] at hnew
  cases hnew with
  | @created accepted hcheck _ hkey hval =>
      have hname : accepted.name = tdef.name := by
        rw [(tableDefCheck_checked hcheck).2]
      refine ⟨accepted, hcheck, ?_⟩
      rw [getTableDefFromKv_eq (hd.readable hI), ← hname, if_pos hkey, Except.ok.injEq]
      exact (definition_created_iff ht.tree.sorted (tableDefCheck_checked hcheck).1 hval _).trans
        (tidy_tableDefCheck hcheck)

/-- **Every accepted definition reads back as written** exactly when its names are tidy: at once in
its transaction; and in a run of such tables, in every state, in the transaction and in every reader
of a version that has it. -/
theorem reads_back (h : Reachable ok db) :
    (∀ tx map tdef tx', db.world.stage = .running tx map →
      DBTX.call (.tableNew tdef) (db.session tx) = .ok (.ok (.done (.ok ())), tx') →
      ∃ accepted, tableDefCheck tdef = .ok accepted ∧
        (getTableDefFromKv tx'.tree tdef.name = .ok (some (accepted.created map)) ↔ tdef.Tidy)) ∧
    ((∀ op, ok op → op.Tidy) → db.allocated < 2 ^ 32 - 3 →
      (∀ tx map, db.world.stage = .running tx map →
        ∀ tdef, tdef ∈ db.created ∨ (∃ v, (v, tdef) ∈ db.tables) →
          getTableDefFromKv tx.tree tdef.name = .ok (some tdef)) ∧
      ∀ id ∈ db.world.readers, ∀ v tdef, (v, tdef) ∈ db.tables → v ≤ (db.world.reader id).version →
        getTableDefFromKv ((db.world.reader id).tree db.world.file) tdef.name = .ok (some tdef)) := by
  refine ⟨fun tx map tdef tx' hst hcall => h.tableNew_reads_back hst hcall, fun htidy hn => ?_⟩
  have hsound := (h.mono htidy).sound hn
  obtain ⟨pages, hinv⟩ := h.world
  refine ⟨fun tx map hst tdef hmem => ?_, fun id hid v tdef hmem hle => ?_⟩
  · have hmap : db.world.stage.map? = some map := by
      rw [hst]
      rfl
    -- made by this transaction or published before, it is recorded in what the tree holds
    have hrec : Recorded tdef map := by
      rcases hmem with hmem | hmem
      · obtain ⟨map', hm, hrec⟩ := hsound.created tdef hmem
        rw [hmap] at hm
        exact Option.some.inj hm ▸ hrec
      · obtain ⟨v, hmem⟩ := hmem
        exact (hsound.tables v tdef hmem).2 map hmap
    exact hrec.reads (hinv.running_readable hst)
  · obtain ⟨V, hV, hversion, hread⟩ := hinv.reader_readable hid
    exact ((hsound.tables v tdef hmem).1 V hV (hversion ▸ hle)).reads hread

/-! ### On a new file -/

/-- A table of one column. -/
def oneColumn (name col : Bytes) : TableDef where
  name := name
  cols := [col]
  types := [.bytes]
  pkeys := 1

def plainTable : TableDef := oneColumn (.ofString "t") (.ofString "k")

theorem plainTable_tidy : DBOp.Tidy (.tableNew plainTable) := by
  intro tdef accepted he _
  obtain rfl := DBOp.tableNew.inj he
  decide

theorem tableNew_plain : DBTX.Goes 2 (DBTX.call (.tableNew plainTable)) {} [] (.done (.ok ())) {}
    (stored (counted [] 1) (plainTable.created [])) :=
  .reply (.tableNew (.tableNew (show tableDefCheck plainTable = .ok plainTable by decide) rfl rfl rfl
    (by decide) ((by decide : _ ≤ 100).trans (by decide)))) .done

/-- A first table. -/
theorem first_plain : ∃ db, First DBOp.Tidy 10 db {} (stored (counted [] 1) (plainTable.created [])) ∧
    db.allocated = 1 ∧ db.created = [plainTable.created []] := by
  obtain ⟨db, hfirst, halloc, hcreated⟩ :=
    (first_begun (n := 12) DBOp.Tidy (by decide)).call (n := 10) plainTable_tidy tableNew_plain
  exact ⟨db, hfirst, halloc.trans (by decide), hcreated.trans (by decide)⟩

theorem reads_back_plain : ∃ db tx map, Reachable DBOp.Tidy db ∧ db.world.stage = .running tx map ∧
    getTableDefFromKv tx.tree plainTable.name = .ok (some (plainTable.created [])) := by
  obtain ⟨db, hfirst, halloc, hcreated⟩ := first_plain
  obtain ⟨tx, hst, _⟩ := hfirst.running
  have hmem : plainTable.created [] ∈ db.created := by
    rw [hcreated]
    exact List.mem_singleton.mpr rfl
  exact ⟨db, tx, _, hfirst.reachable, hst, ((reads_back hfirst.reachable).2 (fun _ h => h)
    (by rw [halloc]; decide)).1 tx _ hst _ (Or.inl hmem)⟩

/-- A column's name with a blank in it is two words when it is read. -/
def blankColumn : TableDef := oneColumn (.ofString "t") (.ofString "a b")

/-- A table is accepted that does not read back. -/
theorem reads_back_not_blank : ¬ ∀ db, Reachable (fun _ => True) db → ∀ tx map tdef tx',
    db.world.stage = .running tx map →
    DBTX.call (.tableNew tdef) (db.session tx) = .ok (.ok (.done (.ok ())), tx') →
    ∃ accepted, tableDefCheck tdef = .ok accepted ∧
      getTableDefFromKv tx'.tree tdef.name = .ok (some (accepted.created map)) := by
  intro hall
  have hfirst := first_begun (n := 2) (fun _ => True) (by decide)
  obtain ⟨tx, hst, hroomy⟩ := hfirst.running
  have hnew : DBTX.Goes 2 (DBTX.call (.tableNew blankColumn)) {} [] (.done (.ok ())) {}
      (stored (counted [] 1) (blankColumn.created [])) :=
    .reply (.tableNew (.tableNew (show tableDefCheck blankColumn = .ok blankColumn by decide) rfl rfl rfl
      (by decide) ((by decide : _ ≤ 100).trans (by decide)))) .done
  obtain ⟨t', created', hcall, _⟩ := hnew 0 tx.tree false hroomy
  obtain ⟨accepted, hcheck, hread⟩ := hall _ hfirst.reachable tx [] blankColumn _ hst hcall
  obtain ⟨accepted', hcheck', hiff⟩ := hfirst.reachable.tableNew_reads_back hst hcall
  rw [hcheck, Except.ok.injEq] at hcheck'
  rw [← hcheck'] at hiff
  exact absurd (hiff.mp hread) (by decide)

/-! ## Spaces -/

/-- The space is the catalog's, or some table's. -/
def Taken (m : Contents) (p : Nat) : Prop :=
  p = tdefMeta.keyPrefix ∨ p = tdefTable.keyPrefix ∨
    ∃ name tdef, definition m name = some tdef ∧ p ∈ tdef.spaces

/-- **Key spaces never collide** in a run of tables with tidy names: in every version and in the
transaction, the spaces of the tables are different, none is the catalog's, all were given out,
and no key of one lies between two keys of another. -/
theorem spaces_apart (h : Reachable DBOp.Tidy db) (hn : db.allocated < 2 ^ 32 - 3) {m : Contents}
    (hm : db.world.Shows m) :
    (∀ name tdef, definition m name = some tdef →
      tdef.spaces.Nodup ∧ ∀ p ∈ tdef.spaces, tablePrefixMin ≤ p ∧ p < nextPrefix m) ∧
    (∀ name name' tdef tdef', definition m name = some tdef → definition m name' = some tdef' →
      name ≠ name' → ∀ p ∈ tdef.spaces, p ∉ tdef'.spaces) ∧
    ∀ p q, Taken m p → Taken m q → p ≠ q → ∀ key first last, InSpace p key → InSpace q first →
      InSpace q last → ¬ (first ≤ key ∧ key ≤ last) := by
  have hcoh := (h.sound hn).views m hm
  have hsmall : ∀ p, Taken m p → p < 2 ^ 32 := by
    intro p hp
    rcases hp with rfl | rfl | ⟨name, tdef, hd, hp⟩
    · decide
    · decide
    · exact lt_trans (hcoh.range name tdef hd p hp).2 (nextPrefix_lt m)
  refine ⟨fun name tdef hd => ⟨hcoh.nodup name tdef hd, hcoh.range name tdef hd⟩, hcoh.apart,
    fun p q hp hq hne key first last hkey hfirst hlast hbetween => ?_⟩
  obtain ⟨s, rfl⟩ := hfirst
  obtain ⟨t, rfl⟩ := hlast
  exact hne (InSpace.unique (hsmall p hp) (hsmall q hq) hkey (inSpace_of_between hbetween.1 hbetween.2))

theorem spaces_apart_plain : ∃ db m, Reachable DBOp.Tidy db ∧
    definition m plainTable.name = some (plainTable.created []) ∧
    ∀ p ∈ (plainTable.created []).spaces, tablePrefixMin ≤ p ∧ p < nextPrefix m := by
  obtain ⟨db, hfirst, halloc, _⟩ := first_plain
  obtain ⟨tx, hst, _⟩ := hfirst.running
  have hdef : definition (stored (counted [] 1) (plainTable.created [])) plainTable.name =
      some (plainTable.created []) := by decide
  have hshow : db.world.Shows (stored (counted [] 1) (plainTable.created [])) := by
    refine Or.inr ?_
    rw [hst]
    rfl
  exact ⟨db, _, hfirst.reachable, hdef,
    ((spaces_apart hfirst.reachable (by rw [halloc]; decide) hshow).1 _ _ hdef).2⟩

/-- A name whose text starts with a definition of its own, in the catalog's space. -/
def nestedName : TableDef := oneColumn (.ofString "x\n1\n2\n2\nk 2\nv 2\n0\n0") (.ofString "c")

/-- What is read under that name. -/
def nestedRead : TableDef where
  name := .ofString "x"
  cols := [.ofString "k", .ofString "v"]
  types := [.bytes, .bytes]
  pkeys := 1
  keyPrefix := 2

theorem tableNew_nested : DBTX.Goes 2 (DBTX.call (.tableNew nestedName)) {} [] (.done (.ok ())) {}
    (stored (counted [] 1) (nestedName.created [])) :=
  .reply (.tableNew (.tableNew (show tableDefCheck nestedName = .ok nestedName by decide) rfl rfl rfl
    (by decide) ((by decide : _ ≤ 100).trans (by decide)))) .done

/-- A table is accepted whose rows are to go where the catalog keeps its definitions. -/
theorem spaces_apart_not_nested : ¬ ∀ db, Reachable (fun _ => True) db → db.allocated < 2 ^ 32 - 3 →
    ∀ m, db.world.Shows m → ∀ name tdef, definition m name = some tdef →
      tdef.spaces.Nodup ∧ ∀ p ∈ tdef.spaces, tablePrefixMin ≤ p ∧ p < nextPrefix m := by
  intro hall
  obtain ⟨db, hfirst, halloc, _⟩ :=
    (first_begun (n := 2) (fun _ => True) (by decide)).call (n := 0) trivial tableNew_nested
  obtain ⟨tx, hst, _⟩ := hfirst.running
  have hshow : db.world.Shows (stored (counted [] 1) (nestedName.created [])) := by
    refine Or.inr ?_
    rw [hst]
    rfl
  have hdef : definition (stored (counted [] 1) (nestedName.created [])) nestedName.name =
      some nestedRead := by decide
  have hrange := (hall db hfirst.reachable (by rw [halloc]; decide) _ hshow _ _ hdef).2
    2 (by decide)
  exact absurd hrange.1 (by decide)

/-! ## The cache -/

/-- **The cache is transparent** in a run of tables with tidy names: in every state, a lookup
returns or throws what reading through the transaction does, and a definition it returns was created
by the transaction or is published. -/
theorem cache_transparent (h : Reachable DBOp.Tidy db) (hn : db.allocated < 2 ^ 32 - 3) {tx : KVTX}
    {map : Contents} (hst : db.world.stage = .running tx map) (name : Bytes) :
    ∃ r, (Tx.look fun t => getTableDefFromKv t name) tx.tree = .ok (r.map Prod.fst, tx.tree) ∧
      db.catalog.getTableDef name tx.tree = .ok (r, tx.tree) ∧
      ∀ tdef catalog, r = .ok (some tdef, catalog) →
        tdef ∈ db.created ∨ ∃ v, (v, tdef) ∈ db.tables := by
  have hsound := h.sound hn
  obtain ⟨pages, hinv⟩ := h.world
  have hread := hinv.running_readable hst
  have hgood := (hsound.cached.running tx map hst).1
  have hkv := getTableDefFromKv_eq hread name
  have hmap : db.world.stage.map? = some map := by
    rw [hst]
    rfl
  unfold Tx.look Tx.call
  beta_reduce
  rw [hkv]
  by_cases hk : ValidKey (tableKey name)
  · obtain ⟨catalog, _, hget⟩ := hgood.getTableDef hread hk
    refine ⟨_, ?_, hget, fun tdef catalog' he => ?_⟩
    · rw [if_pos hk]
      rfl
    · exact hsound.origin map hmap name tdef (Prod.mk.inj (Except.ok.inj he)).1
  · refine ⟨_, ?_, hgood.getTableDef_invalid hread hk, fun _ _ he => nomatch he⟩
    rw [if_neg hk, limitFault_eq]
    rfl

theorem cache_transparent_plain : ∃ db tx map r, Reachable DBOp.Tidy db ∧
    db.world.stage = .running tx map ∧
    db.catalog.getTableDef plainTable.name tx.tree = .ok (r, tx.tree) := by
  obtain ⟨db, hfirst, halloc, _⟩ := first_plain
  obtain ⟨tx, hst, _⟩ := hfirst.running
  obtain ⟨r, _, hget, _⟩ :=
    cache_transparent hfirst.reachable (by rw [halloc]; decide) hst plainTable.name
  exact ⟨db, tx, _, r, hfirst.reachable, hst, hget⟩

/-- A table whose definition has the key of a row of `nestedRead`. -/
def rowNamed : TableDef := oneColumn (.ofString "T\x00") (.ofString "c")

/-- That row. -/
def nestedRow : Record :=
  ⟨[(.ofString "k", .bytes (.ofString "T")), (.ofString "v", .bytes (.ofString "V"))]⟩

/-- The bindings once both tables are there. -/
def twoTables : Contents :=
  let m := stored (counted [] 1) (rowNamed.created [])
  stored (counted m 1) (nestedName.created m)

theorem upsert_nestedRow : DBTX.Goes 1 (DBTX.call (.upsert nestedName.name nestedRow))
    (({} : Catalog).remember rowNamed.name (some (rowNamed.created []))) twoTables (.done (.ok ()))
    ((({} : Catalog).remember rowNamed.name (some (rowNamed.created []))).remember nestedName.name
      (some nestedRead)) (OrdMap.insert twoTables (tableKey rowNamed.name) [86, 0]) :=
  .reply (.onTable (by decide) (by decide) (by decide)
    (.dbUpdate (show checkRecord nestedRead nestedRow _ =
      .ok [.bytes (.ofString "T"), .bytes (.ofString "V")] by decide) (by decide)
      (by decide) rfl (by decide) (by decide) rfl)) .done

/-- The two tables, a lookup of the first, and a row in the second that takes its definition's
place. -/
theorem first_overwritten : ∃ db, First (fun _ => True) 0 db
    ((({} : Catalog).remember rowNamed.name (some (rowNamed.created []))).remember nestedName.name
      (some nestedRead)) (OrdMap.insert twoTables (tableKey rowNamed.name) [86, 0]) := by
  have hrow : DBTX.Goes 2 (DBTX.call (.tableNew rowNamed)) {} [] (.done (.ok ())) {}
      (stored (counted [] 1) (rowNamed.created [])) :=
    .reply (.tableNew (.tableNew (show tableDefCheck rowNamed = .ok rowNamed by decide) rfl rfl rfl
      (by decide) ((by decide : _ ≤ 100).trans (by decide)))) .done
  have hnested : DBTX.Goes 2 (DBTX.call (.tableNew nestedName)) {}
      (stored (counted [] 1) (rowNamed.created [])) (.done (.ok ())) {} twoTables :=
    .reply (.tableNew (.tableNew (show tableDefCheck nestedName = .ok nestedName by decide) rfl rfl
      (by decide) (by decide) ((by decide : _ ≤ 100).trans (by decide)))) .done
  have hlookup : DBTX.Goes 0 (DBTX.call (.tableDef rowNamed.name)) {} twoTables
      (.tableDef (.ok (rowNamed.created [])))
      (({} : Catalog).remember rowNamed.name (some (rowNamed.created []))) twoTables :=
    .reply (.onTable rfl (by decide) (by decide) (.pure _ _)) .tableDef
  obtain ⟨_, h1, _⟩ := (first_begun (n := 5) (fun _ => True) (by decide)).call (n := 3) trivial hrow
  obtain ⟨_, h2, _⟩ := h1.call (n := 1) trivial hnested
  obtain ⟨_, h3, _⟩ := h2.call (n := 1) trivial hlookup
  obtain ⟨db, h4, _⟩ := h3.call (n := 0) trivial upsert_nestedRow
  exact ⟨db, h4⟩

/-- The cache still has the definition, and the store has it no more. -/
theorem cache_transparent_not_nested : ¬ ∀ db, Reachable (fun _ => True) db → ∀ tx map,
    db.world.stage = .running tx map → ∀ name, ∃ r,
      (Tx.look fun t => getTableDefFromKv t name) tx.tree = .ok (r.map Prod.fst, tx.tree) ∧
      db.catalog.getTableDef name tx.tree = .ok (r, tx.tree) := by
  intro hall
  obtain ⟨db, hfirst⟩ := first_overwritten
  obtain ⟨tx, hst, hroomy⟩ := hfirst.running
  obtain ⟨r, hkv, hget⟩ := hall db hfirst.reachable tx _ hst rowNamed.name
  have hcached : ((({} : Catalog).remember rowNamed.name (some (rowNamed.created []))).remember
      nestedName.name (some nestedRead)).cache rowNamed.name = some (rowNamed.created []) := by decide
  rw [hfirst.catalog, Catalog.getTableDef_cached hcached] at hget
  obtain ⟨he, _⟩ := Prod.mk.inj (Except.ok.inj hget)
  have hnone : getTableDefFromKv tx.tree rowNamed.name = .ok none := by
    rw [getTableDefFromKv_eq hroomy.readable, if_pos (by decide)]
    decide
  unfold Tx.look Tx.call at hkv
  beta_reduce at hkv
  rw [hnone, ← he] at hkv
  cases hkv

end DB

end SqlDb
