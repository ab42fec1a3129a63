import SqlDb.Access.InsertRows
import SqlDb.Db.Coherence

/-!
# Tables as independent maps

What a set of tables is for: a map from primary keys to rows for each of them, under one
transaction. `MapStep` is that machine, and knows nothing of bytes, trees or indexes. The
calls of a transaction do what it does, as long as no space of one table is another's or
the catalog's.
-/

namespace SqlDb

open Outcome OrdMap

/-! ## The maps -/

/-- A call on the rows of a table. -/
inductive RowOp where
  | write (mode : UpdateMode) (rec : Record)
  | del (rec : Record)
  | get (rec : Record)

/-- A call that was made, and what it returned. -/
structure RowCall where
  table : Bytes
  op : RowOp
  reply : DBReply

/-- One call on the maps. A record is well formed if it `Names` the columns; a row is kept, and
returned, in the table's column order. What a call that says no says is what it says on the map. -/
inductive MapStep (defs : Bytes → Option TableDef) (maps : Bytes → Rows) :
    RowCall → (Bytes → Rows) → Prop where
  | written {table : Bytes} {tdef : TableDef} {mode : UpdateMode} {rec : Record}
    {row : List Value} :
      defs table = some tdef → rec.Names tdef tdef.cols.length row →
      mode.allows (maps table (row.take tdef.npkeys)).isSome = true →
      MapStep defs maps ⟨table, .write mode rec, .done (.ok ())⟩
        (Function.update maps table (Function.update (maps table) (row.take tdef.npkeys) (some row)))
  | refused {table : Bytes} {tdef : TableDef} {mode : UpdateMode} {rec : Record} {err : Bytes} :
      defs table = some tdef → (∀ row, rec.Names tdef tdef.cols.length row →
        mode.allows (maps table (row.take tdef.npkeys)).isSome = false) →
      (tdef.put (maps table) rec mode).1 = .error err →
      MapStep defs maps ⟨table, .write mode rec, .done (.error err)⟩ maps
  | deleted {table : Bytes} {tdef : TableDef} {rec : Record} {pk row : List Value} :
      defs table = some tdef → rec.Names tdef tdef.npkeys pk → maps table pk = some row →
      MapStep defs maps ⟨table, .del rec, .deleted (.ok ())⟩
        (Function.update maps table (Function.update (maps table) pk none))
  | absent {table : Bytes} {tdef : TableDef} {rec : Record} {err : Option Bytes} :
      defs table = some tdef → (∀ pk, rec.Names tdef tdef.npkeys pk → maps table pk = none) →
      (tdef.remove (maps table) rec).1 = .error err →
      MapStep defs maps ⟨table, .del rec, .deleted (.error err)⟩ maps
  | found {table : Bytes} {tdef : TableDef} {rec : Record} {pk row : List Value} :
      defs table = some tdef → rec.Names tdef tdef.npkeys pk → maps table pk = some row →
      MapStep defs maps ⟨table, .get rec, .row (.ok (.ofCols tdef.cols row))⟩ maps
  | missing {table : Bytes} {tdef : TableDef} {rec : Record} {err : Option Bytes} :
      defs table = some tdef → (∀ pk, rec.Names tdef tdef.npkeys pk → maps table pk = none) →
      tdef.getAnswer (maps table) rec = .error err →
      MapStep defs maps ⟨table, .get rec, .row (.error err)⟩ maps

/-- Calls in a row. -/
inductive MapRun (defs : Bytes → Option TableDef) :
    (Bytes → Rows) → List RowCall → (Bytes → Rows) → Prop where
  | nil {maps : Bytes → Rows} : MapRun defs maps [] maps
  | cons {maps maps' maps'' : Bytes → Rows} {c : RowCall} {calls : List RowCall} :
      MapStep defs maps c maps' → MapRun defs maps' calls maps'' →
        MapRun defs maps (c :: calls) maps''

section Maps

variable {defs : Bytes → Option TableDef} {maps maps' : Bytes → Rows} {c : RowCall}

/-- A call changes its own table only. -/
theorem MapStep.other (h : MapStep defs maps c maps') {table : Bytes} (hne : table ≠ c.table) :
    maps' table = maps table := by
  cases h with
  | written => exact Function.update_of_ne hne _ _
  | deleted => exact Function.update_of_ne hne _ _
  | _ => rfl

/-- A call looks at its own table only. -/
theorem MapStep.local {maps2 : Bytes → Rows} (h : MapStep defs maps c maps')
    (hsame : maps2 c.table = maps c.table) :
    ∃ maps2', MapStep defs maps2 c maps2' ∧ maps2' c.table = maps' c.table := by
  cases h with
  | written hd hnames hallow =>
      refine ⟨_, .written hd hnames (by rw [hsame]; exact hallow), ?_⟩
      rw [Function.update_self, Function.update_self, hsame]
  | refused hd hno herr =>
      exact ⟨maps2, .refused hd (fun row hnames => by rw [hsame]; exact hno row hnames)
        (by rw [hsame]; exact herr), hsame⟩
  | deleted hd hnames hrow =>
      refine ⟨_, .deleted hd hnames (hsame ▸ hrow), ?_⟩
      rw [Function.update_self, Function.update_self, hsame]
  | absent hd hno herr =>
      exact ⟨maps2, .absent hd (fun pk hnames => by rw [hsame]; exact hno pk hnames)
        (by rw [hsame]; exact herr), hsame⟩
  | found hd hnames hrow => exact ⟨maps2, .found hd hnames (hsame ▸ hrow), hsame⟩
  | missing hd hno herr =>
      exact ⟨maps2, .missing hd (fun pk hnames => by rw [hsame]; exact hno pk hnames)
        (by rw [hsame]; exact herr), hsame⟩

/-- **Tables are independent**: what the calls on one return is what they return on their own. -/
theorem MapRun.alone {calls : List RowCall} (h : MapRun defs maps calls maps') (table : Bytes) :
    ∀ maps2 : Bytes → Rows, maps2 table = maps table → ∃ maps2',
      MapRun defs maps2 (calls.filter fun c => c.table = table) maps2' ∧
        maps2' table = maps' table := by
  induction h with
  | nil => exact fun maps2 hsame => ⟨maps2, .nil, hsame⟩
  | @cons maps maps1 maps' c calls hstep _ ih =>
      intro maps2 hsame
      by_cases hc : c.table = table
      · subst hc
        obtain ⟨maps3, hstep', hsame'⟩ := hstep.local hsame
        obtain ⟨maps2', hrun, hend⟩ := ih maps3 hsame'
        rw [List.filter_cons_of_pos (by simp)]
        exact ⟨maps2', .cons hstep' hrun, hend⟩
      · rw [List.filter_cons_of_neg (by simpa using hc)]
        exact ih maps2 (hsame.trans (hstep.other (Ne.symm hc)).symm)

/-- `db_update` on the map is a step. -/
theorem MapStep.put {table : Bytes} {tdef : TableDef} (hd : defs table = some tdef)
    (hs : tdef.Sound) (mode : UpdateMode) (rec : Record) :
    MapStep defs maps ⟨table, .write mode rec, .done (tdef.put (maps table) rec mode).1⟩
      (Function.update maps table (tdef.put (maps table) rec mode).2) := by
  generalize hput : tdef.put (maps table) rec mode = r
  have hput' := hput
  unfold TableDef.put at hput'
  cases hcheck : checkRecord tdef rec tdef.cols.length with
  | error err =>
      rw [hcheck] at hput'
      subst hput'
      dsimp only
      rw [Function.update_eq_self]
      refine .refused hd (fun row hnames => ?_) (congrArg Prod.fst hput)
      rw [(checkRecord_eq_ok hs.checked.types).mpr hnames] at hcheck
      cases hcheck
  | ok row =>
      rw [hcheck] at hput'
      dsimp only at hput'
      by_cases hallow : mode.allows (maps table (row.take tdef.npkeys)).isSome = true
      · rw [if_pos hallow] at hput'
        subst hput'
        exact .written hd ((checkRecord_eq_ok hs.checked.types).mp hcheck) hallow
      · rw [if_neg hallow] at hput'
        subst hput'
        dsimp only
        rw [Function.update_eq_self]
        refine .refused hd (fun row' hnames => ?_) (congrArg Prod.fst hput)
        rw [(checkRecord_eq_ok hs.checked.types).mpr hnames, Except.ok.injEq] at hcheck
        rw [hcheck]
        exact Bool.eq_false_of_not_eq_true hallow

/-- So is `db_delete`. -/
theorem MapStep.remove {table : Bytes} {tdef : TableDef} (hd : defs table = some tdef)
    (hs : tdef.Sound) (rec : Record) :
    MapStep defs maps ⟨table, .del rec, .deleted (tdef.remove (maps table) rec).1⟩
      (Function.update maps table (tdef.remove (maps table) rec).2) := by
  generalize hremove : tdef.remove (maps table) rec = r
  have hremove' := hremove
  unfold TableDef.remove at hremove'
  cases hcheck : checkRecord tdef rec tdef.npkeys with
  | error err =>
      rw [hcheck] at hremove'
      subst hremove'
      dsimp only
      rw [Function.update_eq_self]
      refine .absent hd (fun pk hnames => ?_) (congrArg Prod.fst hremove)
      rw [(checkRecord_eq_ok hs.checked.types).mpr hnames] at hcheck
      cases hcheck
  | ok pk =>
      rw [hcheck] at hremove'
      dsimp only at hremove'
      cases hrow : maps table pk with
      | some row =>
          rw [hrow, if_pos Option.isSome_some] at hremove'
          subst hremove'
          exact .deleted hd ((checkRecord_eq_ok hs.checked.types).mp hcheck) hrow
      | none =>
          rw [hrow, if_neg (by simp)] at hremove'
          subst hremove'
          dsimp only
          rw [Function.update_eq_self]
          refine .absent hd (fun pk' hnames => ?_) (congrArg Prod.fst hremove)
          rw [(checkRecord_eq_ok hs.checked.types).mpr hnames, Except.ok.injEq] at hcheck
          rw [hcheck]
          exact hrow

/-- And `db_get`. -/
theorem MapStep.answer {table : Bytes} {tdef : TableDef} (hd : defs table = some tdef)
    (hs : tdef.Sound) (rec : Record) :
    MapStep defs maps ⟨table, .get rec, .row (tdef.getAnswer (maps table) rec)⟩ maps := by
  generalize hget : tdef.getAnswer (maps table) rec = r
  have hget' := hget
  unfold TableDef.getAnswer at hget'
  cases hcheck : checkRecord tdef rec tdef.npkeys with
  | error err =>
      rw [hcheck] at hget'
      subst hget'
      refine .missing hd (fun pk hnames => ?_) hget
      rw [(checkRecord_eq_ok hs.checked.types).mpr hnames] at hcheck
      cases hcheck
  | ok pk =>
      rw [hcheck] at hget'
      dsimp only at hget'
      cases hrow : maps table pk with
      | some row =>
          rw [hrow] at hget'
          subst hget'
          exact .found hd ((checkRecord_eq_ok hs.checked.types).mp hcheck) hrow
      | none =>
          rw [hrow] at hget'
          subst hget'
          refine .missing hd (fun pk' hnames => ?_) hget
          rw [(checkRecord_eq_ok hs.checked.types).mpr hnames, Except.ok.injEq] at hcheck
          rw [hcheck]
          exact hrow

end Maps

/-! ## The calls -/

/-- The call of a transaction. -/
def RowOp.call (table : Bytes) : RowOp → DBOp
  | .write .insertOnly rec => .insert table rec
  | .write .updateOnly rec => .update table rec
  | .write .upsert rec => .upsert table rec
  | .del rec => .del table rec
  | .get rec => .get table rec

/-- The call wrote a row, or removed one. -/
def DBReply.Wrote (reply : DBReply) : Prop := reply = .done (.ok ()) ∨ reply = .deleted (.ok ())

/-- A table is found by its name. -/
def Catalog.Finds (cat : Catalog) (m : Contents) (table : Bytes) (tdef : TableDef) : Prop :=
  cat.cache table = some tdef ∨ cat.cache table = none ∧ definition m table = some tdef

/-- The tables can be found, their spaces are different and none of them is the catalog's, and
they hold the rows of the maps. -/
structure Tables (defs : Bytes → Option TableDef) (cat : Catalog) (m : Contents)
    (maps : Bytes → Rows) : Prop where
  sound : ∀ table tdef, defs table = some tdef → tdef.Sound
  range : ∀ table tdef, defs table = some tdef → ∀ p ∈ tdef.spaces, tablePrefixMin ≤ p
  apart : ∀ table table' tdef tdef', defs table = some tdef → defs table' = some tdef' →
    table ≠ table' → ∀ p ∈ tdef.spaces, p ∉ tdef'.spaces
  found : ∀ table tdef, defs table = some tdef → cat.Finds m table tdef
  rows : ∀ table tdef, defs table = some tdef → tdef.Represents m (maps table)

section Calls

variable {defs : Bytes → Option TableDef} {maps : Bytes → Rows} {m m' : Contents} {cat cat' : Catalog}
  {table : Bytes} {tdef : TableDef}

/-- The cache has this table, and is otherwise as it was. -/
def Catalog.Cached (cat cat' : Catalog) (table : Bytes) (tdef : TableDef) : Prop :=
  ∀ name, cat'.cache name = if name = table then some tdef else cat.cache name

/-- **A call on one table** leaves the others as they were. -/
theorem Tables.after (h : Tables defs cat m maps) (hd : defs table = some tdef)
    (hcat : cat.Cached cat' table tdef) (huntouched : tdef.Untouched m m') {rows : Rows}
    (hrep : tdef.Represents m' rows) : Tables defs cat' m' (Function.update maps table rows) := by
  have hsmall : ∀ {table tdef}, defs table = some tdef → ∀ p ∈ tdef.spaces, p < 2 ^ 32 :=
    fun hd => (h.sound _ _ hd).small
  refine ⟨h.sound, h.range, h.apart, fun name tdef' hd' => ?_, fun name tdef' hd' => ?_⟩
  · by_cases hname : name = table
    · rw [hname] at hd'
      rw [hd, Option.some.injEq] at hd'
      exact Or.inl (by rw [hcat, if_pos hname, hd'])
    · -- the definitions are in a space no table has
      have hno : ¬ tdef.Owns (tableKey name) := by
        intro ho
        obtain ⟨p, hp, hspace⟩ := ho
        have hrange := h.range table tdef hd p hp
        have := InSpace.unique (hsmall hd p hp) (by decide) hspace (inSpace_tableKey name)
        unfold tablePrefixMin at hrange
        omega
      unfold Catalog.Finds
      rw [hcat, if_neg hname, definition, tableText, huntouched _ hno]
      exact h.found name tdef' hd'
  · by_cases hname : name = table
    · rw [hname] at hd' ⊢
      rw [hd, Option.some.injEq] at hd'
      rw [Function.update_self, ← hd']
      exact hrep
    · rw [Function.update_of_ne hname]
      -- the spaces of two tables are apart
      refine (h.rows name tdef' hd').congr fun key hkey => huntouched key fun ho => ?_
      obtain ⟨p, hp, hspace⟩ := hkey
      obtain ⟨q, hq, hspace'⟩ := ho
      have he := InSpace.unique (hsmall hd' p hp) (hsmall hd q hq) hspace hspace'
      exact h.apart name table tdef' tdef hd' hd hname p hp (he ▸ hq)

variable {σ : Type} [PageManager σ] {tx tx' : DBTX σ}

omit [PageManager σ] in
theorem DBTX.reply_ok {α : Type} {f : α → DBReply} {c : Call σ α} {rep : DBReply}
    (h : reply f c tx = .ok (.ok rep, tx')) : ∃ a, c tx = .ok (.ok a, tx') ∧ f a = rep := by
  unfold reply at h
  cases hc : c tx with
  | error e =>
      rw [hc] at h
      cases h
  | ok out =>
      rw [hc] at h
      obtain ⟨r, tx1⟩ := out
      cases r with
      | error what => cases h
      | ok a =>
          obtain ⟨hr, rfl⟩ := Prod.mk.inj (Except.ok.inj h)
          exact ⟨a, rfl, Except.ok.inj hr⟩

/-- **A call on a table that is found** runs its program. -/
theorem DBTX.onTable_found {α ε : Type} {miss : Bytes → ε} {p : TableDef → Tx σ (Except ε α)}
    {r : Except ε α} (hfound : tx.catalog.Finds m table tdef) (hread : tx.tree.Readable m)
    (h : onTable table miss p tx = .ok (.ok r, tx')) :
    p tdef tx.tree = .ok (.ok r, tx'.tree) ∧ tx.catalog.Cached tx'.catalog table tdef := by
  have hprogram : ∀ cat : Catalog, onTree (p tdef) { tx with catalog := cat } = .ok (.ok r, tx') →
      p tdef tx.tree = .ok (.ok r, tx'.tree) ∧ tx'.catalog = cat := by
    intro cat hrun
    unfold onTree at hrun
    dsimp only at hrun
    cases hp : p tdef tx.tree with
    | error e =>
        rw [hp] at hrun
        cases hrun
    | ok out =>
        rw [hp] at hrun
        obtain ⟨hr, rfl⟩ := Prod.mk.inj (Except.ok.inj hrun)
        exact ⟨congrArg Except.ok (Prod.ext hr rfl), rfl⟩
  unfold onTable findTable at h
  -- from the cache, or read and cached
  rcases hfound with hcached | ⟨hmissed, hdef⟩
  · rw [Catalog.getTableDef_cached hcached] at h
    obtain ⟨hrun, hcat⟩ := hprogram tx.catalog h
    refine ⟨hrun, fun name => ?_⟩
    rw [hcat]
    by_cases hname : name = table
    · rw [if_pos hname, hname, hcached]
    · rw [if_neg hname]
  · rw [Catalog.getTableDef_missed hread hmissed, hdef] at h
    by_cases hk : ValidKey (tableKey table)
    · rw [if_pos hk] at h
      obtain ⟨hrun, hcat⟩ := hprogram _ h
      refine ⟨hrun, fun name => ?_⟩
      rw [hcat]
      exact Function.update_apply tx.catalog.cache table (some tdef) name
    · rw [if_neg hk] at h
      cases h

/-- **Each call does what the maps do.** One that writes no row leaves the store as it was. -/
theorem Tables.step {I : σ → Multiset Nat → Prop} (hI : LawfulPages I Stops) {ps : Multiset Nat}
    (h : Tables defs tx.catalog m maps) (ht : tx.tree.Denotes I m ps) (hd : defs table = some tdef)
    {op : RowOp} {rep : DBReply} (hcall : DBTX.call (op.call table) tx = .ok (.ok rep, tx')) :
    ∃ maps' m' ps', MapStep defs maps ⟨table, op, rep⟩ maps' ∧ tx'.tree.Denotes I m' ps' ∧
      Tables defs tx'.catalog m' maps' ∧ (¬ rep.Wrote → m' = m) := by
  have hs := h.sound table tdef hd
  have hfound := h.found table tdef hd
  have hrep := h.rows table tdef hd
  have hread := ht.readable hI
  cases op with
  | write mode rec =>
      have hcall' : DBTX.reply .done (DBTX.onTable table id fun tdef => dbUpdate tdef rec mode) tx =
          .ok (.ok rep, tx') := by
        cases mode <;> exact hcall
      obtain ⟨r, hrun, rfl⟩ := DBTX.reply_ok hcall'
      obtain ⟨hrun, hcat⟩ := DBTX.onTable_found hfound hread hrun
      have hspec := dbUpdate_spec hI not_stops_throws hs hrep rec mode tx.tree ps ht
      rw [hrun] at hspec
      obtain ⟨m', ps', hden, huntouched, hans⟩ := hspec
      obtain ⟨hr, hrep', hsame⟩ := hans r rfl
      refine ⟨_, m', ps', ?_, hden, h.after hd hcat huntouched hrep', fun hno => ?_⟩
      · rw [hr]
        exact .put hd hs mode rec
      · cases r with
        | error err => exact hsame err rfl
        | ok _ => exact absurd (Or.inl rfl) hno
  | del rec =>
      obtain ⟨r, hrun, rfl⟩ := DBTX.reply_ok hcall
      obtain ⟨hrun, hcat⟩ := DBTX.onTable_found hfound hread hrun
      have hspec := dbDelete_spec hI not_stops_throws hs hrep rec tx.tree ps ht
      rw [hrun] at hspec
      obtain ⟨m', ps', hden, huntouched, hans⟩ := hspec
      obtain ⟨hr, hrep', hsame⟩ := hans r rfl
      refine ⟨_, m', ps', ?_, hden, h.after hd hcat huntouched hrep', fun hno => ?_⟩
      · rw [hr]
        exact .remove hd hs rec
      · cases r with
        | error err => exact hsame err rfl
        | ok _ => exact absurd (Or.inr rfl) hno
  | get rec =>
      obtain ⟨r, hrun, rfl⟩ := DBTX.reply_ok hcall
      obtain ⟨hrun, hcat⟩ := DBTX.onTable_found hfound hread hrun
      have hspec := dbGet_spec hs hread hrep rec
      -- a read leaves the tree as it is
      unfold Tx.look Tx.call at hrun
      beta_reduce at hrun
      cases hget : dbGet tx.tree tdef rec with
      | error f =>
          rw [hget] at hspec hrun
          obtain ⟨⟨what, rfl⟩, _⟩ := hspec
          cases hrun
      | ok ans =>
          rw [hget] at hspec hrun
          obtain ⟨hr, htree⟩ := Prod.mk.inj (Except.ok.inj hrun)
          obtain rfl := Except.ok.inj hr
          refine ⟨maps, m, ps, ?_, htree ▸ ht, ?_, fun _ => rfl⟩
          · rw [show ans = tdef.getAnswer (maps table) rec from hspec]
            exact .answer hd hs rec
          · have hafter := h.after hd hcat (.refl tdef m) hrep
            rwa [Function.update_eq_self] at hafter

/-- Calls that all return, in a row. -/
inductive DBTX.Runs : DBTX σ → List RowCall → DBTX σ → Prop where
  | nil {tx : DBTX σ} : Runs tx [] tx
  | cons {tx tx' tx'' : DBTX σ} {c : RowCall} {calls : List RowCall} :
      DBTX.call (c.op.call c.table) tx = .ok (.ok c.reply, tx') → Runs tx' calls tx'' →
      Runs tx (c :: calls) tx''

/-- **So does a run of calls.** -/
theorem Tables.run {I : σ → Multiset Nat → Prop} (hI : LawfulPages I Stops) {calls : List RowCall}
    (hrun : DBTX.Runs tx calls tx') {ps : Multiset Nat} (h : Tables defs tx.catalog m maps)
    (ht : tx.tree.Denotes I m ps) (hdefs : ∀ c ∈ calls, (defs c.table).isSome) :
    ∃ maps' m' ps', MapRun defs maps calls maps' ∧ tx'.tree.Denotes I m' ps' ∧
      Tables defs tx'.catalog m' maps' ∧ ((∀ c ∈ calls, ¬ c.reply.Wrote) → m' = m) := by
  induction hrun generalizing m maps ps with
  | nil => exact ⟨maps, m, ps, .nil, ht, h, fun _ => rfl⟩
  | cons hcall _ ih =>
      obtain ⟨hdef, hdefs⟩ := List.forall_mem_cons.mp hdefs
      obtain ⟨tdef, hd⟩ := Option.isSome_iff_exists.mp hdef
      obtain ⟨maps1, m1, ps1, hstep, ht1, h1, hsame1⟩ := h.step hI ht hd hcall
      obtain ⟨maps2, m2, ps2, hrun2, ht2, h2, hsame2⟩ := ih h1 ht1 hdefs
      refine ⟨maps2, m2, ps2, .cons hstep hrun2, ht2, h2, fun hno => ?_⟩
      obtain ⟨hno1, hno2⟩ := List.forall_mem_cons.mp hno
      rw [hsame2 hno2, hsame1 hno1]

end Calls

/-- **Table operations refine independent keyed maps.** In a transaction of any reachable database,
on any tables that it finds, whose spaces are different: calls that return answer as the maps do and
leave the store standing for them; what the calls on one table return is what they return on their
own; and calls that write no row leave the store as it was. -/
theorem calls_refine_maps {ok : DBOp → Prop} {db : DB} {tx : KVTX} {map : Contents}
    {defs : Bytes → Option TableDef} {maps : Bytes → Rows} (h : DB.Reachable ok db)
    (hst : db.world.stage = .running tx map) (htables : Tables defs db.catalog map maps)
    {calls : List RowCall} {tx' : DBTX (FreeList TxPages)}
    (hdefs : ∀ c ∈ calls, (defs c.table).isSome) (hrun : DBTX.Runs (db.session tx) calls tx') :
    ∃ maps' map', MapRun defs maps calls maps' ∧ tx'.tree.Readable map' ∧
      Tables defs tx'.catalog map' maps' ∧
      (∀ table, ∃ alone, MapRun defs maps (calls.filter fun c => c.table = table) alone ∧
        alone table = maps' table) ∧
      ((∀ c ∈ calls, ¬ c.reply.Wrote) → map' = map) := by
  obtain ⟨pages, hinv⟩ := h.world
  have hstage := hinv.stage
  rw [hst] at hstage
  obtain ⟨b, hbegan, _, ps, ht⟩ := hstage
  have hI : LawfulPages (TxOwns b) Stops := (TxPages.lawful hbegan.sound).stops
  obtain ⟨maps', map', ps', hmaps, hden, htables', hsame⟩ := htables.run hI hrun ht hdefs
  exact ⟨maps', map', hmaps, hden.readable hI, htables', fun table => hmaps.alone table maps rfl, hsame⟩

/-! ### Rows in new tables -/

section Inserts

variable {defs : Bytes → Option TableDef} {maps : Bytes → Rows} {m : Contents}

/-- A program on a table that is found. -/
theorem DBTX.onTable_finds {σ α ε : Type} [PageManager σ] {tx : DBTX σ} {table : Bytes}
    {tdef : TableDef} (miss : Bytes → ε) (p : TableDef → Tx σ (Except ε α)) {r : Except ε α}
    {t' : BTree σ} (hfound : tx.catalog.Finds m table tdef) (hk : ValidKey (tableKey table))
    (hread : tx.tree.Readable m) (hrun : p tdef tx.tree = .ok (.ok r, t')) :
    ∃ cat', onTable table miss p tx = .ok (.ok r, { tx with tree := t', catalog := cat' }) := by
  have hprogram : ∀ cat', onTree (p tdef) { tx with catalog := cat' } =
      .ok (.ok r, { tx with tree := t', catalog := cat' }) := by
    intro cat'
    unfold onTree
    rw [hrun]
  unfold onTable findTable
  rcases hfound with hcached | ⟨hmissed, hdef⟩
  · rw [Catalog.getTableDef_cached hcached]
    exact ⟨_, hprogram tx.catalog⟩
  · rw [Catalog.getTableDef_missed hread hmissed, if_pos hk, hdef]
    exact ⟨_, hprogram _⟩

/-- A call that inserts a row. -/
def insertCall (e : TableDef × List Value) : RowCall :=
  ⟨e.1.name, .write .insertOnly (.ofCols e.1.cols e.2), .done (.ok ())⟩

/-- A new row for a table with one index at most. -/
structure NewRow (defs : Bytes → Option TableDef) (maps : Bytes → Rows)
    (e : TableDef × List Value) : Prop where
  def' : defs e.1.name = some e.1
  name : ValidKey (tableKey e.1.name)
  indexes : e.1.indexes.length ≤ 1
  typed : e.1.Typed e.2
  stores : e.1.Stores e.2
  none : maps e.1.name (e.2.take e.1.npkeys) = none

/-- **New rows go in** while there are page numbers, whichever table is next. -/
theorem Tables.inserts {L : List (TableDef × List Value)}
    (hdistinct : (L.map fun e => (e.1.name, e.2.take e.1.npkeys)).Nodup) :
    ∀ {n : Nat} {tx : DBTX (FreeList TxPages)} {m : Contents} {maps : Bytes → Rows},
      Tables defs tx.catalog m maps → Roomy (n + 2 * L.length) tx.tree m →
      (∀ e ∈ L, NewRow defs maps e) → ∃ tx', DBTX.Runs tx (L.map insertCall) tx' := by
  induction L with
  | nil => exact fun _ _ _ => ⟨_, .nil⟩
  | cons e L ih =>
      intro n tx m maps h hroomy hnew
      obtain ⟨tdef, row⟩ := e
      obtain ⟨hrow, hnew⟩ := List.forall_mem_cons.mp hnew
      obtain ⟨hnot, hdistinct⟩ := List.nodup_cons.mp hdistinct
      have hd : defs tdef.name = some tdef := hrow.def'
      have hs := h.sound _ _ hd
      have hrep := h.rows _ _ hd
      have hread := hroomy.readable
      have hrec : (Record.ofCols tdef.cols row).Names tdef tdef.cols.length row :=
        (names_ofCols hs (hrow.typed.length hs)).mpr ⟨rfl, hrow.typed.types⟩
      have hcost : tdef.indexes.length ≤ 1 := hrow.indexes
      obtain ⟨t', hrun, hroomy'⟩ :=
        Goes.insertRow hs hrep hrec hrow.typed hrow.none hrow.stores (n + 2 * L.length) tx.tree
          (hroomy.mono (by rw [List.length_cons]; omega))
      have hfound := h.found _ _ hd
      obtain ⟨cat', hcall⟩ := DBTX.onTable_finds id
        (fun tdef' => dbUpdate tdef' (.ofCols tdef.cols row) .insertOnly) hfound hrow.name hread hrun
      have hcached := (DBTX.onTable_found hfound hread hcall).2
      have hafter := h.after hd hcached (TableDef.untouched_withRow hread.sorted)
        (hrep.withRow hs hread.sorted hrow.typed hrow.none)
      -- the rows to come have other keys, or are another table's
      have hrest : ∀ e ∈ L, NewRow defs (Function.update maps tdef.name
          (Function.update (maps tdef.name) (row.take tdef.npkeys) (some row))) e := by
        intro e he
        have hnew' := hnew e he
        refine { hnew' with none := ?_ }
        by_cases hname : e.1.name = tdef.name
        · have htdef : e.1 = tdef := by
            have hd' := hnew'.def'
            rw [hname, hd, Option.some.injEq] at hd'
            exact hd'.symm
          have hne : e.2.take e.1.npkeys ≠ row.take tdef.npkeys := fun hk =>
            hnot (List.mem_map.mpr ⟨e, he, Prod.ext hname hk⟩)
          have hnone := hnew'.none
          rw [hname] at hnone ⊢
          rw [Function.update_self, Function.update_of_ne hne, hnone]
        · rw [Function.update_of_ne hname]
          exact hnew'.none
      obtain ⟨tx', hruns⟩ := ih hdistinct hafter hroomy' hrest
      refine ⟨tx', .cons ?_ hruns⟩
      show DBTX.reply .done (DBTX.onTable tdef.name id _) tx = _
      unfold DBTX.reply
      rw [hcall]
      rfl

end Inserts

/-- The second table of the file, with an index. -/
def secondTable : TableDef :=
  { indexed with
    name := .ofString "u"
    keyPrefix := 0
    indexPrefixes := [] }

/-- The bindings once the first table is there, and once both are. -/
def oneTable : Contents := stored (counted [] 1) (DB.plainTable.created [])

def bothTables : Contents := stored (counted oneTable 2) (secondTable.created oneTable)

/-- The two definitions, by name. -/
def bothDefs (table : Bytes) : Option TableDef :=
  [DB.plainTable.created [], secondTable.created oneTable].find? fun tdef => tdef.name = table

theorem bothDefs_eq_some {table : Bytes} {tdef : TableDef} (h : bothDefs table = some tdef) :
    tdef ∈ [DB.plainTable.created [], secondTable.created oneTable] ∧ tdef.name = table :=
  ⟨List.mem_of_find?_eq_some h, by simpa using List.find?_some h⟩

theorem tables_both : Tables bothDefs {} bothTables fun _ _ => none := by
  have hsound : ∀ tdef ∈ [DB.plainTable.created [], secondTable.created oneTable],
      tableDefCheck tdef = .ok tdef ∧ tdef.cols.Nodup ∧
        tdef.indexPrefixes.length = tdef.indexes.length ∧ tdef.spaces.Nodup ∧
        ∀ p ∈ tdef.spaces, p < 2 ^ 32 := by decide
  have hrange : ∀ tdef ∈ [DB.plainTable.created [], secondTable.created oneTable],
      definition bothTables tdef.name = some tdef ∧ ∀ p ∈ tdef.spaces, tablePrefixMin ≤ p ∧
        ∀ r ∈ bothTables, ¬ InSpace p r.1 := by decide
  have hapart : ∀ tdef ∈ [DB.plainTable.created [], secondTable.created oneTable],
      ∀ tdef' ∈ [DB.plainTable.created [], secondTable.created oneTable],
      tdef.name ≠ tdef'.name → ∀ p ∈ tdef.spaces, p ∉ tdef'.spaces := by decide
  constructor
  · intro table tdef hd
    obtain ⟨hcheck, hcols, hparallel, hspaces, hsmall⟩ := hsound tdef (bothDefs_eq_some hd).1
    exact ⟨(tableDefCheck_checked hcheck).1, hcols, hparallel, hspaces, hsmall⟩
  · intro table tdef hd p hp
    exact ((hrange tdef (bothDefs_eq_some hd).1).2 p hp).1
  · intro table table' tdef tdef' hd hd' hne
    obtain ⟨hmem, hname⟩ := bothDefs_eq_some hd
    obtain ⟨hmem', hname'⟩ := bothDefs_eq_some hd'
    exact hapart tdef hmem tdef' hmem' (by rwa [hname, hname'])
  · intro table tdef hd
    obtain ⟨hmem, hname⟩ := bothDefs_eq_some hd
    rw [← hname]
    exact Or.inr ⟨rfl, (hrange tdef hmem).1⟩
  · intro table tdef hd
    refine (TableDef.represents_empty _).congr fun key hkey => lookup_eq_none.mpr fun r hr he => ?_
    obtain ⟨p, hp, hspace⟩ := hkey
    exact ((hrange tdef (bothDefs_eq_some hd).1).2 p hp).2 r hr (he ▸ hspace)

/-- Rows of the two tables in turn. -/
def bothRows : List (TableDef × List Value) :=
  [(DB.plainTable.created [], [.bytes [97]]),
    (secondTable.created oneTable, [.int64 1, .bytes [97], .bytes [120]]),
    (DB.plainTable.created [], [.bytes [98]]),
    (secondTable.created oneTable, [.int64 2, .bytes [97], .bytes [121]])]

theorem bothRows_new : ∀ e ∈ bothRows, NewRow bothDefs (fun _ _ => none) e := by
  have hrows : ∀ e ∈ bothRows, bothDefs e.1.name = some e.1 ∧ ValidKey (tableKey e.1.name) ∧
      e.1.indexes.length ≤ 1 ∧ e.2.map Value.type = e.1.types ∧
      ValidKey (keyOf e.1.keyPrefix (e.2.take e.1.npkeys)) ∧
      ValidVal (encoded (e.2.drop e.1.npkeys)) ∧ ∀ key ∈ e.1.indexKeys e.2, ValidKey key := by
    decide +kernel
  have hplain : ∀ e ∈ bothRows, ∀ type ∈ e.1.types, type ≠ .error := by decide
  intro e he
  obtain ⟨hd, hname, hindexes, htypes, hkey, hval, hindex⟩ := hrows e he
  exact ⟨hd, hname, hindexes, ⟨hplain e he, htypes⟩, ⟨hkey, hval, hindex⟩, rfl⟩

/-- Four calls on two tables. -/
theorem calls_refine_maps_two : ∃ db tx map tx' maps' map', DB.Reachable DBOp.Tidy db ∧
    db.world.stage = .running tx map ∧ DBTX.Runs (db.session tx) (bothRows.map insertCall) tx' ∧
    MapRun bothDefs (fun _ _ => none) (bothRows.map insertCall) maps' ∧ tx'.tree.Readable map' ∧
    Tables bothDefs tx'.catalog map' maps' ∧
    ∀ table, ∃ alone, MapRun bothDefs (fun _ _ => none)
      ((bothRows.map insertCall).filter fun c => c.table = table) alone ∧
      alone table = maps' table := by
  have hsecond : DBTX.Goes 2 (DBTX.call (.tableNew secondTable)) {} oneTable (.done (.ok ())) {}
      bothTables :=
    .reply (.tableNew (.tableNew (show tableDefCheck secondTable = .ok secondTable by decide) rfl rfl
      (by decide) (by decide) ((by decide : _ ≤ 100).trans (by decide)))) .done
  have htidy : DBOp.Tidy (.tableNew secondTable) := by
    intro tdef accepted he _
    obtain rfl := DBOp.tableNew.inj he
    decide
  obtain ⟨db₁, hfirst₁, _⟩ := DB.first_plain
  obtain ⟨db, hfirst, _⟩ := DB.First.call (n := 8) hfirst₁ htidy hsecond
  obtain ⟨tx, hst, hroomy⟩ := hfirst.running
  have htables : Tables bothDefs db.catalog bothTables fun _ _ => none := by
    rw [hfirst.catalog]
    exact tables_both
  have hinserts : ∃ tx', DBTX.Runs (db.session tx) (bothRows.map insertCall) tx' :=
    Tables.inserts (n := 0) (by decide) htables hroomy bothRows_new
  obtain ⟨tx', hruns⟩ := hinserts
  obtain ⟨maps', map', hmaps, hread, htables', halone, _⟩ :=
    calls_refine_maps hfirst.reachable hst htables (by decide) hruns
  exact ⟨db, tx, _, tx', maps', map', hfirst.reachable, hst, hruns, hmaps, hread, htables', halone⟩

end SqlDb
