import SqlDb.Db.TableMaps

/-!
# The database as its users see it

Tables by name, each with its definition and its rows. `Relations.Call` is what a call
answers and what it leaves of them; it knows nothing of keys, trees or spaces. The bindings
of a store stand for one such database, and each call on the store does what it does on the
relations.
-/

namespace SqlDb

open Outcome OrdMap

/-! ## Relations -/

structure Table where
  tdef : TableDef
  rows : Rows

/-- The tables, by name. -/
abbrev Relations := Bytes → Option Table

namespace Relations

variable (D : Relations)

def defs (name : Bytes) : Option TableDef := (D name).map Table.tdef

/-- The rows of each table; where there is none, no rows. -/
def maps (name : Bytes) : Rows :=
  match D name with
  | some tbl => tbl.rows
  | none => fun _ => none

/-- The same tables with other rows. -/
def withMaps (maps : Bytes → Rows) : Relations := fun name =>
  (D name).map fun tbl => { tbl with rows := maps name }

/-- With one table more, which has no rows. -/
def add (tdef : TableDef) : Relations := Function.update D tdef.name (some ⟨tdef, fun _ => none⟩)

/-- A definition that a table can be made from. -/
structure Accepts (tdef accepted : TableDef) : Prop where
  checked : tableDefCheck tdef = .ok accepted
  bare : accepted.keyPrefix = 0 ∧ accepted.indexPrefixes = []
  fresh : D accepted.name = none

end Relations

/-- The calls that only read, which are those of a reader. -/
inductive ReadOp where
  | get (table : Bytes) (rec : Record)
  | scan (table : Bytes) (req : ScanReq)
  | tableDef (table : Bytes)

/-- Such a call, of a transaction. -/
def ReadOp.toOp : ReadOp → DBOp
  | .get table rec => .get table rec
  | .scan table req => .scan table req
  | .tableDef table => .tableDef table

/-- The table that a call is on, and what it answers if there is no such table. -/
def DBOp.missing : DBOp → Option (Bytes × DBReply)
  | .tableNew _ => none
  | .get table _ => some (table, .row (.error (some (DBTX.notFound table))))
  | .insert table _ => some (table, .done (.error (DBTX.notFound table)))
  | .update table _ => some (table, .done (.error (DBTX.notFound table)))
  | .upsert table _ => some (table, .done (.error (DBTX.notFound table)))
  | .del table _ => some (table, .deleted (.error (some (DBTX.notFound table))))
  | .scan table _ => some (table, .scanner (.error (DBTX.notFound table)))
  | .tableDef table => some (table, .tableDef (.error (DBTX.notFound table)))

/-- **What a call answers, and what it leaves.** A scanner is where its scan begins; reading it is
not a call. -/
inductive Relations.Call (D : Relations) : DBOp → DBReply → Relations → Prop where
  | created {tdef accepted : TableDef} (first : Nat) : D.Accepts tdef accepted →
      Call D (.tableNew tdef) (.done (.ok ())) (D.add (accepted.numbered first))
  | refused {tdef : TableDef} {err : Bytes} : (∀ accepted, ¬ D.Accepts tdef accepted) →
      tdef.Refused (fun name => D name ≠ none) err →
      Call D (.tableNew tdef) (.done (.error err)) D
  | missing {op : DBOp} {table : Bytes} {reply : DBReply} : D table = none →
      op.missing = some (table, reply) → Call D op reply D
  | rows {c : RowCall} {maps : Bytes → Rows} : MapStep D.defs D.maps c maps →
      Call D (c.op.call c.table) c.reply (D.withMaps maps)
  | scanned {table : Bytes} {tbl : Table} {req : ScanReq} {r : Except Bytes Scanner} :
      D table = some tbl → Call D (.scan table req) (.scanner r) D
  | defined {table : Bytes} {tbl : Table} : D table = some tbl →
      Call D (.tableDef table) (.tableDef (.ok tbl.tdef)) D

/-! ## Bindings that stand for relations -/

/-- Names are tidy, and a table's columns are different. -/
def DBOp.Proper (op : DBOp) : Prop := op.Tidy ∧ ∀ tdef, op = .tableNew tdef → tdef.cols.Nodup

/-- A call that makes no table is proper. -/
theorem DBOp.proper_of_missing {op : DBOp} (h : op.missing ≠ none) : op.Proper := by
  cases op with
  | tableNew => exact absurd rfl h
  | _ => exact ⟨fun _ _ he => (nomatch he), fun _ he => nomatch he⟩

/-- And gives out no space. -/
theorem DB.given_of_missing {op : DBOp} (h : op.missing ≠ none) (m m' : Contents) :
    given op m m' = 0 := by
  cases op with
  | tableNew => exact absurd rfl h
  | _ => rfl

/-- So does a call on rows. -/
theorem RowOp.call_missing (op : RowOp) (table : Bytes) : (op.call table).missing ≠ none := by
  cases op with
  | write mode => cases mode <;> exact Option.some_ne_none _
  | _ => exact Option.some_ne_none _

/-- The bindings are the tables' and the catalog's, and there are none in spaces not given out. -/
structure Stands (m : Contents) (D : Relations) : Prop where
  definition : ∀ name, definition m name = D.defs name
  sound : ∀ name tbl, D name = some tbl → tbl.tdef.Sound
  represents : ∀ name tbl, D name = some tbl → tbl.tdef.Represents m tbl.rows
  free : ∀ p, nextPrefix m ≤ p → p < 2 ^ 32 → ∀ key, InSpace p key → lookup m key = none

section Unique

variable {m : Contents} {tdef : TableDef} {rows rows' : Rows}

theorem TableDef.Represents.subset (h : tdef.Represents m rows) (h' : tdef.Represents m rows')
    (hs : tdef.Sound) {pk row : List Value} (hrow : rows pk = some row) : rows' pk = some row := by
  have htyped := h.fit.typed hrow
  have hpk := h.fit.key hrow
  have hplain : Plain (pk.map Value.type) := by
    rw [hpk, List.map_take, htyped.types]
    exact fun type htype => htyped.plain type (List.mem_of_mem_take htype)
  have htypes : pk.map Value.type = tdef.types.take tdef.npkeys := by
    rw [hpk, List.map_take, htyped.types]
  -- the other table binds the same key to the same value
  have hlook := h.lookup_row hs htypes hplain
  rw [h'.lookup_row hs htypes hplain, hrow, Option.map_some, Option.map_eq_some_iff] at hlook
  obtain ⟨row', hrow', hval⟩ := hlook
  have htyped' := h'.fit.typed hrow'
  have hdrop : (row.drop tdef.npkeys).map Value.type = (row'.drop tdef.npkeys).map Value.type := by
    rw [List.map_drop, List.map_drop, htyped.types, htyped'.types]
  have hrest := (keyOf_inj (p := 0) (q := 0) (by decide) (by decide) hdrop (by
    rw [List.map_drop, htyped.types]
    exact fun type htype => htyped.plain type (List.mem_of_mem_drop htype))
    (by rw [keyOf, keyOf, hval])).2
  rw [hrow', ← List.take_append_drop tdef.npkeys row', ← h'.fit.key hrow', ← hrest, hpk,
    List.take_append_drop]

/-- **Bindings are of one map only.** -/
theorem TableDef.Represents.unique (h : tdef.Represents m rows) (h' : tdef.Represents m rows')
    (hs : tdef.Sound) : rows = rows' := by
  funext pk
  refine Option.ext fun row => ?_
  exact ⟨fun hrow => h.subset h' hs hrow, fun hrow => h'.subset h hs hrow⟩

theorem Stands.unique {D D' : Relations} (h : Stands m D) (h' : Stands m D') : D = D' := by
  have hsub : ∀ {D D' : Relations}, Stands m D → Stands m D' → ∀ name tbl, D name = some tbl →
      D' name = some tbl := by
    intro D D' h h' name tbl htbl
    have hd := (h'.definition name).symm.trans (h.definition name)
    rw [Relations.defs, Relations.defs, htbl, Option.map_some, Option.map_eq_some_iff] at hd
    obtain ⟨tbl', htbl', he⟩ := hd
    have hrep' := h'.represents name tbl' htbl'
    rw [he] at hrep'
    have hrows := (h.represents name tbl htbl).unique hrep' (h.sound name tbl htbl)
    rw [htbl']
    obtain ⟨_, _⟩ := tbl
    obtain ⟨_, _⟩ := tbl'
    cases he
    cases hrows
    rfl
  funext name
  exact Option.ext fun tbl => ⟨hsub h h' name tbl, hsub h' h name tbl⟩

end Unique

theorem stands_empty : Stands [] fun _ => none :=
  ⟨fun _ => rfl, (fun _ _ h => nomatch h), (fun _ _ h => nomatch h), fun _ _ _ _ _ => rfl⟩

/-! ## A table that is made -/

section Create

variable {σ : Type} [PageManager σ] {I : σ → Multiset Nat → Prop} {E : Fault → Prop}

/-- **`table_new` returns true** exactly for a definition that passes the check, has no numbers of
its own and no table's name. -/
theorem tableNew_accepts (hI : LawfulPages I E) (hE : ∀ what, ¬ E (.throws what)) {m : Contents}
    (tdef : TableDef) : Spec I E (tableNew tdef : Tx σ (Except Bytes Unit)) m fun r _ =>
      ∀ ans, r = .ok ans → (ans = .ok () ↔ ∃ accepted, tableDefCheck tdef = .ok accepted ∧
        (accepted.keyPrefix = 0 ∧ accepted.indexPrefixes = []) ∧
          tableText m accepted.name = none) := by
  unfold tableNew
  cases hcheck : tableDefCheck tdef with
  | error err =>
      refine Spec.pure fun ans he => ?_
      rw [← Except.ok.inj he]
      exact ⟨fun h => (nomatch h), fun ⟨_, h, _⟩ => nomatch h⟩
  | ok d =>
      have honly : ∀ {P : TableDef → Prop}, (∃ accepted, (Except.ok d : Except Bytes TableDef) =
          .ok accepted ∧ P accepted) ↔ P d := by
        intro P
        exact ⟨fun ⟨_, he, h⟩ => Except.ok.inj he ▸ h, fun h => ⟨d, rfl, h⟩⟩
      simp only [honly]
      by_cases hset : d.keyPrefix ≠ 0 ∨ d.indexPrefixes ≠ []
      · rw [if_pos hset]
        refine Spec.pure fun ans he => ?_
        rw [← Except.ok.inj he]
        exact ⟨fun h => (nomatch h), fun h => hset.elim (absurd h.1.1) (absurd h.1.2)⟩
      · rw [if_neg hset]
        have hbare : d.keyPrefix = 0 ∧ d.indexPrefixes = [] := by
          simpa only [not_or, not_not] using hset
        refine Spec.bind (Spec.look_internal hI tdefTable d.name) ?_ fun _ _ _ ans he => nomatch he
        rintro found _ ⟨rfl, hfound⟩
        have htext : found = tableText m d.name := hfound found rfl
        by_cases hsome : found.isSome = true
        · rw [if_pos hsome]
          refine Spec.pure fun ans he => ?_
          rw [← Except.ok.inj he]
          refine ⟨fun h => (nomatch h), fun h => ?_⟩
          rw [htext, h.2] at hsome
          cases hsome
        · rw [if_neg hsome]
          have hnone : tableText m d.name = none := by
            rw [← htext]
            exact Option.not_isSome_iff_eq_none.mp hsome
          refine Spec.bind ((allocPrefix_spec hI hE _).imp fun _ _ _ => trivial) (fun first m1 _ => ?_)
            fun _ _ _ ans he => nomatch he
          refine Spec.bind (Spec.set hI hE (Q := fun _ _ => True) (fun _ _ => trivial) fun _ => trivial)
            (fun _ m2 _ => ?_) fun _ _ _ ans he => nomatch he
          refine Spec.pure fun ans he => ?_
          rw [← Except.ok.inj he]
          exact ⟨fun _ => ⟨hbare, hnone⟩, fun _ => rfl⟩

end Create

/-! ## Calls on the store -/

section Calls

variable {m m' : Contents} {D : Relations} {n : Nat} {cat : Catalog}

theorem Relations.maps_of {name : Bytes} {tbl : Table} (h : D name = some tbl) :
    D.maps name = tbl.rows := by
  rw [maps, h]

theorem Relations.defs_eq_some {name : Bytes} {tdef : TableDef} :
    D.defs name = some tdef ↔ ∃ tbl, D name = some tbl ∧ tbl.tdef = tdef := Option.map_eq_some_iff

theorem Relations.defs_eq_none {name : Bytes} : D.defs name = none ↔ D name = none :=
  Option.map_eq_none_iff

theorem Relations.of_add {tdef : TableDef} {name : Bytes} {tbl : Table}
    (h : D.add tdef name = some tbl) :
    (name = tdef.name ∧ tbl = ⟨tdef, fun _ => none⟩) ∨ (name ≠ tdef.name ∧ D name = some tbl) := by
  by_cases he : name = tdef.name
  · rw [he, add, Function.update_self] at h
    exact Or.inl ⟨he, (Option.some.inj h).symm⟩
  · rw [add, Function.update_of_ne he] at h
    exact Or.inr ⟨he, h⟩

theorem Relations.withMaps_maps (D : Relations) : D.withMaps D.maps = D := by
  funext name
  cases h : D name with
  | none => rw [withMaps, h, Option.map_none]
  | some tbl => rw [withMaps, h, Option.map_some, maps_of h]

/-- The tables as the calls on rows find them. -/
theorem Stands.tables (h : Stands m D) (hcoh : Coherent n m) (hgood : cat.Good m) :
    Tables D.defs cat m D.maps where
  sound table tdef hd := by
    obtain ⟨tbl, htbl, rfl⟩ := Relations.defs_eq_some.mp hd
    exact h.sound table tbl htbl
  range table tdef hd p hp := (hcoh.range table tdef ((h.definition table).trans hd) p hp).1
  apart table table' tdef tdef' hd hd' := hcoh.apart table table' tdef tdef'
    ((h.definition table).trans hd) ((h.definition table').trans hd')
  found table tdef hd := by
    have hdef := (h.definition table).trans hd
    cases hc : cat.cache table with
    | none => exact Or.inr ⟨hc, hdef⟩
    | some tdef' =>
        have he := (hgood table tdef' hc).2.symm.trans hdef
        exact Or.inl (hc.trans he)
  rows table tdef hd := by
    obtain ⟨tbl, htbl, rfl⟩ := Relations.defs_eq_some.mp hd
    rw [Relations.maps_of htbl]
    exact h.represents table tbl htbl

/-- **After a write on a table** the catalog is the same, and so are the spaces not given out. -/
theorem Stands.wrote (h : Stands m D) (hcoh : Coherent n m) (hn : n < 2 ^ 32 - 3)
    (hw : DBTX.Wrote m m') {maps : Bytes → Rows}
    (hrows : ∀ name tbl, D name = some tbl → tbl.tdef.Represents m' (maps name)) :
    Stands m' (D.withMaps maps) := by
  have hsame := hcoh.wrote hn hw
  have htbl : ∀ {name tbl}, D.withMaps maps name = some tbl →
      ∃ tbl0, D name = some tbl0 ∧ tbl = { tbl0 with rows := maps name } := by
    intro name tbl htbl
    obtain ⟨tbl0, h0, rfl⟩ := Option.map_eq_some_iff.mp htbl
    exact ⟨tbl0, h0, rfl⟩
  refine ⟨fun name => ?_, fun name tbl ht => ?_, fun name tbl ht => ?_, fun p hp hlt key hkey => ?_⟩
  · rw [hsame.definition, h.definition, Relations.defs, Relations.defs, Relations.withMaps,
      Option.map_map]
    rfl
  · obtain ⟨tbl0, h0, rfl⟩ := htbl ht
    exact h.sound name tbl0 h0
  · obtain ⟨tbl0, h0, rfl⟩ := htbl ht
    exact hrows name tbl0 h0
  · rw [hsame.next] at hp
    rcases hw with rfl | ⟨name, tdef, hd, houtside⟩
    · exact h.free p hp hlt key hkey
    · rw [houtside key fun howns => ?_]
      · exact h.free p hp hlt key hkey
      · obtain ⟨q, hq, hspace⟩ := howns
        have hrange := (hcoh.range name tdef hd q hq).2
        have hpq := InSpace.unique hlt (hrange.trans (nextPrefix_lt m)) hkey hspace
        omega

/-- **After a table was made** it is there, without rows. -/
theorem Stands.created (h : Stands m D) (hcoh : Coherent n m) (hm : Sorted m) {d : TableDef}
    (hn : n + (1 + d.indexes.length) < 2 ^ 32 - 3) (hchecked : d.Checked) (htidy : d.Tidy)
    (hnodup : d.cols.Nodup) (hval : ValidVal (encodeTableDef (d.created m))) :
    Stands (stored (counted m d.width) (d.created m)) (D.add (d.created m)) := by
  have hnext := hcoh.next
  have hfirst := hcoh.first
  have hw : nextPrefix m + (1 + d.indexes.length) < 2 ^ 32 := by
    unfold tablePrefixMin at hnext
    omega
  rw [width_of_lt (by omega)]
  have hm' := sorted_counted hm (1 + d.indexes.length)
  obtain ⟨hcounted, hmoved⟩ := hcoh.count hm hn
  have hname : (d.created m).name = d.name := rfl
  -- only the counter and the definition are written, both in the catalog's spaces
  have hsame : ∀ p key, tablePrefixMin ≤ p → p < 2 ^ 32 → InSpace p key →
      lookup (stored (counted m (1 + d.indexes.length)) (d.created m)) key = lookup m key := by
    intro p key hp hlt hkey
    unfold tablePrefixMin at hp
    rw [stored, lookup_insert_of_ne hm', counted, lookup_insert_of_ne hm]
    · rintro rfl
      have := InSpace.unique hlt (by decide) hkey inSpace_counterKey
      omega
    · rintro rfl
      have := InSpace.unique hlt (by decide) hkey (inSpace_tableKey _)
      omega
  refine ⟨fun name => ?_, fun name tbl ht => ?_, fun name tbl ht => ?_, fun p hp hlt key hkey => ?_⟩
  · by_cases he : name = d.name
    · rw [he, (definition_created_iff hm hchecked hval _).mpr htidy, Relations.defs, Relations.add,
        hname, Function.update_self]
      rfl
    · have hother : (D.add (d.created m)).defs name = D.defs name := by
        rw [Relations.defs, Relations.defs, Relations.add, hname, Function.update_of_ne he]
      rw [hother, ← h.definition name, SqlDb.definition, SqlDb.definition,
        tableText_stored hm', hname,
        if_neg he, tableText_counted hm]
  · rcases Relations.of_add ht with ⟨_, rfl⟩ | ⟨_, ht⟩
    · exact ⟨hchecked.numbered _, hnodup, d.length_created m, TableDef.nodup_created hw,
        fun p hp => ((TableDef.mem_created hw).mp hp).2.trans hw⟩
    · exact h.sound name tbl ht
  · rcases Relations.of_add ht with ⟨_, rfl⟩ | ⟨_, ht⟩
    · -- its spaces were not given out before
      refine (TableDef.represents_empty _).congr fun key howns => ?_
      obtain ⟨p, hp, hkey⟩ := howns
      have hrange := (TableDef.mem_created hw).mp hp
      rw [hsame p key (hfirst.trans hrange.1) (hrange.2.trans hw) hkey]
      exact h.free p hrange.1 (hrange.2.trans hw) key hkey
    · refine (h.represents name tbl ht).congr fun key howns => ?_
      obtain ⟨p, hp, hkey⟩ := howns
      have hd : SqlDb.definition m name = some tbl.tdef :=
        (h.definition name).trans (Relations.defs_eq_some.mpr ⟨tbl, ht, rfl⟩)
      exact hsame p key (hcoh.range name _ hd p hp).1 ((h.sound name tbl ht).small p hp) hkey
  · rw [nextPrefix_stored hm', hmoved] at hp
    rw [hsame p key (by omega) hlt hkey]
    exact h.free p (by omega) hlt key hkey

variable {σ : Type} [PageManager σ] {I : σ → Multiset Nat → Prop} {tx tx' : DBTX σ}

/-- A call on a table that is not there answers so, and the tree stays. -/
theorem DBTX.call_missing {op : DBOp} {table : Bytes} {reply answer : DBReply}
    (hread : tx.tree.Readable m) (hgood : tx.catalog.Good m) (hnone : definition m table = none)
    (hop : op.missing = some (table, answer)) (hcall : DBTX.call op tx = .ok (.ok reply, tx')) :
    reply = answer ∧ tx'.tree = tx.tree := by
  obtain ⟨r, catalog, hfind, hdef⟩ := findTable_eq hread table
  have htable : ∀ {ε α : Type} {f : Except ε α → DBReply} {miss : Bytes → ε}
      {p : TableDef → Tx σ (Except ε α)},
      DBTX.reply f (onTable table miss p) tx = .ok (.ok reply, tx') →
      reply = f (.error (miss (notFound table))) ∧ tx'.tree = tx.tree := by
    intro ε α f miss p h
    obtain ⟨a, hrun, rfl⟩ := DBTX.reply_ok h
    unfold onTable at hrun
    rw [hfind] at hrun
    cases r with
    | error what => cases hrun
    | ok found =>
        obtain rfl : found = none := ((hdef hgood).2 found rfl).trans hnone
        obtain ⟨ha, rfl⟩ := Prod.mk.inj (Except.ok.inj hrun)
        rw [← Except.ok.inj ha]
        exact ⟨rfl, rfl⟩
  cases op with
  | tableNew => cases hop
  | _ =>
      obtain ⟨rfl, rfl⟩ := Prod.mk.inj (Option.some.inj hop)
      exact htable hcall

/-- A call that only looks leaves the tree as it is. -/
theorem DBTX.call_looks {ε α : Type} {f : Except ε α → DBReply} {table : Bytes} {miss : Bytes → ε}
    (look : TableDef → BTree σ → Except Fault (Except ε α)) {tdef : TableDef} {reply : DBReply}
    (hread : tx.tree.Readable m) (hfound : tx.catalog.Finds m table tdef)
    (hcall : DBTX.reply f (onTable table miss fun tdef => Tx.look (look tdef)) tx =
      .ok (.ok reply, tx')) :
    ∃ a, look tdef tx.tree = .ok a ∧ reply = f a ∧ tx'.tree = tx.tree := by
  obtain ⟨a, hrun, rfl⟩ := DBTX.reply_ok hcall
  obtain ⟨hrun, _⟩ := DBTX.onTable_found hfound hread hrun
  unfold Tx.look Tx.call at hrun
  beta_reduce at hrun
  cases hlook : look tdef tx.tree with
  | error e =>
      rw [hlook] at hrun
      cases e <;> cases hrun
  | ok ans =>
      rw [hlook] at hrun
      obtain ⟨hr, htree⟩ := Prod.mk.inj (Except.ok.inj hrun)
      exact ⟨ans, rfl, congrArg f (Except.ok.inj hr).symm, htree.symm⟩

/-- It leaves what is cached in the bindings too. -/
theorem DBTX.onTable_look {ε α : Type} {table : Bytes} {miss : Bytes → ε}
    {look : TableDef → BTree σ → Except Fault (Except ε α)} {r : Except String (Except ε α)}
    (hread : tx.tree.Readable m) (hgood : tx.catalog.Good m)
    (hcall : onTable table miss (fun tdef => Tx.look (look tdef)) tx = .ok (r, tx')) :
    tx'.tree = tx.tree ∧ tx'.catalog.Good m := by
  obtain ⟨found, catalog, hfind, hkeeps⟩ := findTable_eq hread table
  obtain ⟨hgood', _⟩ := hkeeps hgood
  unfold onTable at hcall
  rw [hfind] at hcall
  cases found with
  | error what =>
      obtain ⟨_, rfl⟩ := Prod.mk.inj (Except.ok.inj hcall)
      exact ⟨rfl, hgood'⟩
  | ok found =>
      cases found with
      | none =>
          obtain ⟨_, rfl⟩ := Prod.mk.inj (Except.ok.inj hcall)
          exact ⟨rfl, hgood'⟩
      | some tdef =>
          unfold onTree Tx.look Tx.call at hcall
          dsimp only at hcall
          cases hlook : look tdef tx.tree with
          | error f =>
              rw [hlook] at hcall
              cases f with
              | throws what =>
                  obtain ⟨_, rfl⟩ := Prod.mk.inj (Except.ok.inj hcall)
                  exact ⟨rfl, hgood'⟩
              | _ => cases hcall
          | ok a =>
              rw [hlook] at hcall
              obtain ⟨_, rfl⟩ := Prod.mk.inj (Except.ok.inj hcall)
              exact ⟨rfl, hgood'⟩

/-- The bindings after a call that is not `table_new`. -/
theorem DBTX.call_wrote (hI : LawfulPages I Stops) {ps : Multiset Nat} (hgood : tx.catalog.Good m)
    (hden : tx.tree.Denotes I m ps) {op : DBOp} (hop : op.missing ≠ none)
    {r : Except String DBReply}
    (hcall : DBTX.call op tx = .ok (r, tx')) (hread' : tx'.tree.Readable m') : Wrote m m' := by
  have hdoes := DBTX.call_does hI hden op
  unfold DBTX.Does at hdoes
  rw [hcall] at hdoes
  obtain ⟨m1, ps1, hden1, heff⟩ := hdoes
  obtain rfl := (hden1.readable hI).unique hread'
  cases op with
  | tableNew => exact absurd rfl hop
  | _ => exact (heff.2 hgood).1

theorem DBTX.tableNew_ok {tdef : TableDef} {a : Except Bytes Unit}
    (h : DBTX.tableNew tdef tx = .ok (.ok a, tx')) :
    SqlDb.tableNew tdef tx.tree = .ok (.ok a, tx'.tree) := by
  unfold DBTX.tableNew onTree at h
  cases hrun : SqlDb.tableNew tdef tx.tree with
  | error e =>
      rw [hrun] at h
      cases h
  | ok out =>
      obtain ⟨r, tree⟩ := out
      rw [hrun] at h
      cases r with
      | error what => cases h
      | ok r =>
          cases r with
          | error err =>
              obtain ⟨hr, rfl⟩ := Prod.mk.inj (Except.ok.inj h)
              rw [← Except.ok.inj hr]
          | ok u =>
              obtain ⟨hr, rfl⟩ := Prod.mk.inj (Except.ok.inj h)
              rw [← Except.ok.inj hr]

/-- **`table_new`** adds a table, or refuses to. -/
theorem Stands.callTableNew (hI : LawfulPages I Stops) {ps : Multiset Nat} (h : Stands m D)
    (hcoh : Coherent n m) (hden : tx.tree.Denotes I m ps) {tdef : TableDef}
    (hproper : DBOp.Proper (.tableNew tdef)) (hn : n + DB.given (.tableNew tdef) m m' < 2 ^ 32 - 3)
    {reply : DBReply} (hcall : DBTX.call (.tableNew tdef) tx = .ok (.ok reply, tx'))
    (hread' : tx'.tree.Readable m') : ∃ D', D.Call (.tableNew tdef) reply D' ∧ Stands m' D' := by
  have hm := hden.tree.sorted
  obtain ⟨a, hrun, rfl⟩ := DBTX.reply_ok hcall
  have hrun := DBTX.tableNew_ok hrun
  have hends := tableNew_spec hI not_stops_throws tdef tx.tree ps hden
  have haccepts := tableNew_accepts hI not_stops_throws tdef tx.tree ps hden
  rw [hrun] at hends haccepts
  obtain ⟨m1, ps1, hden1, hnew⟩ := hends
  obtain ⟨_, _, _, hiff⟩ := haccepts
  obtain rfl := (hden1.readable hI).unique hread'
  have hiff := hiff a rfl
  -- a name is free in the catalog exactly if it is free here
  have hfree : ∀ name, tableText m name = none ↔ D name = none := by
    intro name
    rw [← Relations.defs_eq_none, ← h.definition name]
    refine ⟨fun ht => by rw [SqlDb.definition, ht]; rfl, fun hd => ?_⟩
    cases ht : tableText m name with
    | none => rfl
    | some text =>
        obtain ⟨tdef', hs, rfl, rfl⟩ := hcoh.texts name text ht
        rw [hs.definition ht] at hd
        cases hd
  cases hnew with
  | refused hrefused =>
      simp only [ne_eq, hfree] at hrefused
      refine ⟨D, .refused (fun accepted hacc => ?_) hrefused, h⟩
      cases hiff.mpr ⟨accepted, hacc.checked, hacc.bare, (hfree _).mpr hacc.fresh⟩
  | @created d hcheck hnone hkey hval =>
      obtain ⟨accepted, hcheck', hbare, _⟩ := hiff.mp rfl
      obtain rfl := Except.ok.inj (hcheck.symm.trans hcheck')
      have hgiven : DB.given (.tableNew tdef) m (stored (counted m d.width) (d.created m)) =
          1 + d.indexes.length := by
        rw [length_tableDefCheck hcheck]
        exact if_neg (stored_ne hm hnone d.width)
      rw [hgiven] at hn
      refine ⟨_, .created (nextPrefix m) ⟨hcheck, hbare, (hfree _).mp hnone⟩, ?_⟩
      refine h.created hcoh hm hn (tableDefCheck_checked hcheck).1
        ((tidy_tableDefCheck hcheck).mpr (hproper.1 tdef d rfl hcheck)) ?_ hval
      rw [(tableDefCheck_checked hcheck).2]
      exact hproper.2 tdef rfl

/-- **A call that only reads** answers from the relations. -/
theorem Stands.read (h : Stands m D) (hcoh : Coherent n m) (hgood : tx.catalog.Good m)
    (hread : tx.tree.Readable m) {op : ReadOp} {reply : DBReply}
    (hcall : DBTX.call op.toOp tx = .ok (.ok reply, tx')) :
    D.Call op.toOp reply D ∧ tx'.tree = tx.tree := by
  have hmissing : ∀ {table answer}, op.toOp.missing = some (table, answer) → D table = none →
      D.Call op.toOp reply D ∧ tx'.tree = tx.tree := by
    intro table answer hop hnone
    obtain ⟨rfl, htree⟩ := DBTX.call_missing hread hgood
      ((h.definition table).trans (Relations.defs_eq_none.mpr hnone)) hop hcall
    exact ⟨.missing hnone hop, htree⟩
  have htables := h.tables hcoh hgood
  cases op with
  | get table rec =>
      cases htbl : D table with
      | none => exact hmissing rfl htbl
      | some tbl =>
          have hd := Relations.defs_eq_some.mpr ⟨tbl, htbl, rfl⟩
          obtain ⟨a, hget, rfl, htree⟩ := DBTX.call_looks (fun tdef t => dbGet t tdef rec) hread
            (htables.found _ _ hd) hcall
          have hspec := dbGet_spec (htables.sound _ _ hd) hread (htables.rows _ _ hd) rec
          rw [hget] at hspec
          obtain rfl : a = tbl.tdef.getAnswer (D.maps table) rec := hspec
          have hstep := Relations.Call.rows (D := D) (MapStep.answer hd (htables.sound _ _ hd) rec)
          rw [D.withMaps_maps] at hstep
          exact ⟨hstep, htree⟩
  | scan table req =>
      cases htbl : D table with
      | none => exact hmissing rfl htbl
      | some tbl =>
          obtain ⟨r, _, rfl, htree⟩ := DBTX.call_looks (fun tdef t => dbScan t tdef req) hread
            (htables.found _ _ (Relations.defs_eq_some.mpr ⟨tbl, htbl, rfl⟩)) hcall
          exact ⟨.scanned htbl, htree⟩
  | tableDef table =>
      cases htbl : D table with
      | none => exact hmissing rfl htbl
      | some tbl =>
          obtain ⟨r, hr, rfl, htree⟩ := DBTX.call_looks (fun tdef _ => .ok (.ok tdef)) hread
            (htables.found _ _ (Relations.defs_eq_some.mpr ⟨tbl, htbl, rfl⟩)) hcall
          obtain rfl := Except.ok.inj hr
          exact ⟨.defined htbl, htree⟩

/-- **A call on rows** is a step of the maps. -/
theorem Stands.callRows (hI : LawfulPages I Stops) {ps : Multiset Nat} (h : Stands m D)
    (hcoh : Coherent n m) (hn : n < 2 ^ 32 - 3) (hgood : tx.catalog.Good m)
    (hden : tx.tree.Denotes I m ps) {table : Bytes} {tbl : Table} (htbl : D table = some tbl)
    (op : RowOp) {reply : DBReply} (hcall : DBTX.call (op.call table) tx = .ok (.ok reply, tx'))
    (hread' : tx'.tree.Readable m') : ∃ D', D.Call (op.call table) reply D' ∧ Stands m' D' := by
  have hd : D.defs table = some tbl.tdef := Relations.defs_eq_some.mpr ⟨tbl, htbl, rfl⟩
  obtain ⟨maps, m1, ps1, hstep, hden1, htables, _⟩ := (h.tables hcoh hgood).step hI hden hd hcall
  obtain rfl := (hden1.readable hI).unique hread'
  have hw := DBTX.call_wrote hI hgood hden (op.call_missing table) hcall hread'
  refine ⟨_, .rows (c := ⟨table, op, reply⟩) hstep, h.wrote hcoh hn hw fun name tbl' htbl' => ?_⟩
  exact htables.rows name tbl'.tdef (Relations.defs_eq_some.mpr ⟨tbl', htbl', rfl⟩)

/-- **A call on the store does what it does on the relations**, if it returns. -/
theorem Stands.call (hI : LawfulPages I Stops) {ps : Multiset Nat} (h : Stands m D)
    (hcoh : Coherent n m) (hgood : tx.catalog.Good m) (hden : tx.tree.Denotes I m ps) {op : DBOp}
    (hproper : op.Proper) (hn : n + DB.given op m m' < 2 ^ 32 - 3) {reply : DBReply}
    (hcall : DBTX.call op tx = .ok (.ok reply, tx')) (hread' : tx'.tree.Readable m') :
    ∃ D', D.Call op reply D' ∧ Stands m' D' := by
  have hread := hden.readable hI
  have hn' : n < 2 ^ 32 - 3 := lt_of_le_of_lt (Nat.le_add_right _ _) hn
  have hmissing : ∀ {table answer}, op.missing = some (table, answer) → D table = none →
      ∃ D', D.Call op reply D' ∧ Stands m' D' := by
    intro table answer hop hnone
    obtain ⟨rfl, htree⟩ := DBTX.call_missing hread hgood
      ((h.definition table).trans (Relations.defs_eq_none.mpr hnone)) hop hcall
    obtain rfl := hread'.unique (htree ▸ hread)
    exact ⟨D, .missing hnone hop, h⟩
  have hlooks : ∀ op' : ReadOp, op'.toOp = op → ∃ D', D.Call op reply D' ∧ Stands m' D' := by
    rintro op' rfl
    obtain ⟨hstep, htree⟩ := h.read hcoh hgood hread hcall
    obtain rfl := hread'.unique (htree ▸ hread)
    exact ⟨D, hstep, h⟩
  cases op with
  | tableNew tdef => exact h.callTableNew hI hcoh hden hproper hn hcall hread'
  | get table rec => exact hlooks (.get table rec) rfl
  | insert table rec =>
      cases htbl : D table with
      | none => exact hmissing rfl htbl
      | some tbl =>
          exact h.callRows hI hcoh hn' hgood hden htbl (.write .insertOnly rec) hcall hread'
  | update table rec =>
      cases htbl : D table with
      | none => exact hmissing rfl htbl
      | some tbl =>
          exact h.callRows hI hcoh hn' hgood hden htbl (.write .updateOnly rec) hcall hread'
  | upsert table rec =>
      cases htbl : D table with
      | none => exact hmissing rfl htbl
      | some tbl =>
          exact h.callRows hI hcoh hn' hgood hden htbl (.write .upsert rec) hcall hread'
  | del table rec =>
      cases htbl : D table with
      | none => exact hmissing rfl htbl
      | some tbl => exact h.callRows hI hcoh hn' hgood hden htbl (.del rec) hcall hread'
  | scan table req => exact hlooks (.scan table req) rfl
  | tableDef table => exact hlooks (.tableDef table) rfl

end Calls

end SqlDb
