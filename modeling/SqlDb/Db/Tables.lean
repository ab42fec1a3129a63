import SqlDb.Catalog.Spaces
import SqlDb.Db.Database

/-!
# What holds of the catalog in every state of a run

In every version, and in the write transaction, each stored definition reads back as it
was stored, and the spaces of all of them are different. The cache holds what the
transaction that uses it would read.

All of it rests on the names being `Tidy` and on the counter of spaces not wrapping. A
definition that reads back as another one can put a table's rows where the catalog keeps
its own.
-/

namespace SqlDb

open Outcome OrdMap

/-- A definition that is accepted has tidy names. -/
def DBOp.Tidy (op : DBOp) : Prop :=
  ∀ tdef accepted, op = .tableNew tdef → tableDefCheck tdef = .ok accepted → tdef.Tidy

/-! ## The catalog across a call -/

section Calls

variable {n : Nat} {m m' : Contents}

/-- No key of a table is the catalog's. -/
theorem Coherent.not_owns (h : Coherent n m) (hn : n < 2 ^ 32 - 3) {name : Bytes} {tdef : TableDef}
    (hd : definition m name = some tdef) {p : Nat} (hp : p < tablePrefixMin) {key : Bytes}
    (hkey : InSpace p key) : ¬ tdef.Owns key := by
  intro ho
  obtain ⟨q, hq, hspace⟩ := ho
  have hrange := h.range name tdef hd q hq
  have hnext := h.next
  unfold tablePrefixMin at *
  have := InSpace.unique (by omega) (by omega) hkey hspace
  omega

/-- The catalog's own bindings are the same. -/
structure SameCatalog (m m' : Contents) : Prop where
  texts : ∀ name, tableText m' name = tableText m name
  next : nextPrefix m' = nextPrefix m

theorem SameCatalog.refl (m : Contents) : SameCatalog m m := ⟨fun _ => rfl, rfl⟩

theorem SameCatalog.definition (h : SameCatalog m m') (name : Bytes) :
    definition m' name = definition m name := by
  rw [SqlDb.definition, SqlDb.definition, h.texts]

/-- **A write on a table leaves the catalog alone.** -/
theorem Coherent.wrote (h : Coherent n m) (hn : n < 2 ^ 32 - 3) (hw : DBTX.Wrote m m') :
    SameCatalog m m' := by
  rcases hw with rfl | ⟨name, tdef, hd, hsame⟩
  · exact .refl _
  · refine ⟨fun name' => hsame _ (h.not_owns hn hd (by decide) (inSpace_tableKey name')), ?_⟩
    rw [nextPrefix, nextPrefix, hsame _ (h.not_owns hn hd (by decide) inSpace_counterKey)]

theorem width_of_lt {tdef : TableDef} (h : 1 + tdef.indexes.length < 2 ^ 32) :
    tdef.width = 1 + tdef.indexes.length := u32_of_lt h

/-- The check keeps the number of indexes. -/
theorem length_checkIndexes {tdef : TableDef} {indexes out : List (List Bytes)}
    (h : checkIndexes tdef indexes = .ok out) : out.length = indexes.length := by
  induction indexes generalizing out with
  | nil => rw [← Except.ok.inj h]
  | cons index indexes ih =>
      simp only [checkIndexes, bind_eq_ok] at h
      obtain ⟨normalized, _, rest, hrest, h⟩ := h
      rw [← Except.ok.inj h, List.length_cons, ih hrest, List.length_cons]

theorem length_tableDefCheck {tdef tdef' : TableDef} (h : tableDefCheck tdef = .ok tdef') :
    tdef'.indexes.length = tdef.indexes.length := by
  simp only [tableDefCheck, bind_eq_ok, require_eq_ok] at h
  obtain ⟨_, _, _, _, _, _, indexes, hindexes, h⟩ := h
  rw [← Except.ok.inj h]
  exact length_checkIndexes hindexes

/-- The check keeps the names. -/
theorem tidy_tableDefCheck {tdef tdef' : TableDef} (h : tableDefCheck tdef = .ok tdef') :
    tdef'.Tidy ↔ tdef.Tidy := by
  rw [(tableDefCheck_checked h).2]
  exact Iff.rfl

/-- The bindings after a table was stored are others. -/
theorem stored_ne {tdef : TableDef} (hm : Sorted m) (hnone : tableText m tdef.name = none) (w : Nat) :
    stored (counted m w) (tdef.created m) ≠ m := by
  intro he
  have h := tableText_stored (sorted_counted hm w) (tdef.created m) tdef.name
  rw [he, hnone, if_pos (show tdef.name = (tdef.created m).name from rfl)] at h
  cases h

/-- **`table_new` keeps the catalog coherent.** -/
theorem Coherent.tableNew (h : Coherent n m) (hm : Sorted m) {tdef : TableDef}
    {r : Except String (Except Bytes Unit)} (htidy : DBOp.Tidy (.tableNew tdef))
    (hnew : TableNew m tdef r m') (hn : n + DB.given (.tableNew tdef) m m' < 2 ^ 32 - 3) :
    Coherent (n + DB.given (.tableNew tdef) m m') m' := by
  have hgiven : DB.given (.tableNew tdef) m m' = if m' = m then 0 else 1 + tdef.indexes.length := rfl
  rw [hgiven] at hn ⊢
  cases hnew with
  | refused =>
      rw [if_pos rfl]
      exact h
  | threw =>
      rw [if_pos rfl]
      exact h
  | @threwLate _ d hcheck =>
      by_cases he : counted m d.width = m
      · rw [if_pos he, he]
        exact h
      · rw [if_neg he] at hn ⊢
        have hlen := length_tableDefCheck hcheck
        rw [width_of_lt (by omega), hlen]
        exact (h.count hm hn).1
  | @created d hcheck hnone _ hval =>
      have hlen := length_tableDefCheck hcheck
      -- a definition was stored, so the contents differ and the count goes up
      have he := stored_ne hm hnone d.width
      rw [if_neg he] at hn ⊢
      rw [← hlen] at hn ⊢
      rw [width_of_lt (by omega)]
      exact h.store hm (tableDefCheck_checked hcheck).1
        ((tidy_tableDefCheck hcheck).mpr (htidy tdef d rfl hcheck)) hval hn

/-- What is stored stays. -/
theorem TableNew.text {tdef : TableDef} {r : Except String (Except Bytes Unit)}
    (hnew : TableNew m tdef r m') (hm : Sorted m) {name text : Bytes}
    (h : tableText m name = some text) : tableText m' name = some text := by
  cases hnew with
  | refused => exact h
  | threw => exact h
  | threwLate _ => rwa [tableText_counted hm]
  | @created d' _ hnone _ _ =>
      rw [tableText_stored (sorted_counted hm _), if_neg, tableText_counted hm, h]
      intro he
      rw [he] at h
      rw [show (d'.created m).name = d'.name from rfl, hnone] at h
      cases h

/-- A call that did not create a table left the definitions as they were. -/
theorem TableNew.definition {tdef : TableDef} {r : Except String (Except Bytes Unit)}
    (hm : Sorted m) (hnew : TableNew m tdef r m') (hr : r ≠ .ok (.ok ())) (name : Bytes) :
    SqlDb.definition m' name = SqlDb.definition m name := by
  cases hnew with
  | refused => rfl
  | threw => rfl
  | threwLate _ => rw [SqlDb.definition, SqlDb.definition, tableText_counted hm]
  | created => exact absurd rfl hr

end Calls

/-! ## The store below -/

/-- What the write transaction stands for, up to the end of phase 1. -/
def Stage.map? : Stage → Option Contents
  | .running _ map => some map
  | .writing _ map _ => some map
  | .synced _ map => some map
  | _ => none

/-- Bindings that someone can see: a version's, or the write transaction's. -/
def World.Shows (w : World) (m : Contents) : Prop :=
  (∃ V ∈ w.history, V.map = m) ∨ w.stage.map? = some m

/-- A commit that goes on, up to where it publishes or after it. -/
theorem World.Step.phase {w w' : World} (h : World.Step w w') (hst : DB.Committing w.stage)
    (hst' : DB.Committing w'.stage) (hist : w'.history = w.history) :
    w'.latest = w.latest ∧ w'.stage.map? = w.stage.map? ∧ w'.kv.version = w.kv.version ∧
      ∀ tx map, w'.stage ≠ .running tx map := by
  have hnot : ∀ tx map, w'.stage ≠ .running tx map := by
    intro tx map he
    rw [he] at hst'
    rcases hst' with ⟨_, _, _, h⟩ | ⟨_, _, h⟩ | h | h <;> cases h
  have hstage : ∀ {st}, w.stage = st → DB.Committing st := fun he => he ▸ hst
  have hidle : ¬ DB.Committing .idle := by
    intro h
    rcases h with ⟨_, _, _, h⟩ | ⟨_, _, h⟩ | h | h <;> cases h
  have hrunning : ∀ tx map, ¬ DB.Committing (.running tx map) := by
    intro tx map h
    rcases h with ⟨_, _, _, h⟩ | ⟨_, _, h⟩ | h | h <;> cases h
  cases h with
  | beginRead _ => exact ⟨rfl, rfl, rfl, hnot⟩
  | endRead _ hend =>
      obtain ⟨_, _, he⟩ := bind_eq_ok.mp hend
      cases he
      exact ⟨rfl, rfl, rfl, hnot⟩
  | begin h0 => exact absurd (hstage h0) hidle
  | set h0 _ => exact absurd (hstage h0) (hrunning _ _)
  | del h0 _ => exact absurd (hstage h0) (hrunning _ _)
  | abort h0 => exact absurd (hstage h0) (hrunning _ _)
  | commitNone h0 _ => exact absurd (hstage h0) (hrunning _ _)
  | mmapFails h0 _ => exact absurd (hstage h0) (hrunning _ _)
  | commit h0 _ => exact absurd (hstage h0) (hrunning _ _)
  | write h0 => exact ⟨rfl, by rw [h0]; rfl, rfl, hnot⟩
  | writeFails _ _ => exact absurd hst' hidle
  | sync h0 => exact ⟨rfl, by rw [h0]; rfl, rfl, hnot⟩
  -- the history would have grown
  | publish _ _ =>
      have hlen := congrArg List.length hist
      rw [List.length_append, List.length_singleton] at hlen
      omega
  | writeRoot h0 => exact ⟨rfl, by rw [h0]; rfl, rfl, hnot⟩
  | rootFails _ => exact absurd hst' hidle
  | settle _ => exact absurd hst' hidle
  | settleFails _ => exact absurd hst' hidle
  | powerLoss _ _ => exact absurd hst' hidle

theorem KV.extendMmap_version (kv : KV) (size : Nat) : (kv.extendMmap size).version = kv.version := by
  obtain ⟨chunks, total, he⟩ := World.extendMmap_eq kv size
  rw [he]

section Steps

variable {ok : DBOp → Prop} {db db' : DB} {pages : Nat → Multiset Nat}

/-- **A call is one on the tree of the write transaction.** -/
theorem World.Inv.call (h : db.world.Inv pages) {tx : KVTX} {map map' : Contents} {op : DBOp}
    {r : Except String DBReply} {tx' : DBTX (FreeList TxPages)}
    (hst : db.world.stage = .running tx map) (hcall : DBTX.call op (db.session tx) = .ok (r, tx'))
    (hread : tx'.tree.Readable map') :
    World.Inv { db.world with stage := .running { tx with tree := tx'.tree } map' } pages ∧
      Sorted map ∧ DBTX.Effect op (db.session tx) map r tx' map' := by
  have hstage := h.stage
  rw [hst] at hstage
  obtain ⟨b, hbegan, hfile, ps, ht⟩ := hstage
  have hI : LawfulPages (TxOwns b) Stops := (TxPages.lawful hbegan.sound).stops
  have hdoes := DBTX.call_does hI (show (db.session tx).tree.Denotes _ map ps from ht) op
  unfold DBTX.Does at hdoes
  rw [hcall] at hdoes
  obtain ⟨m', ps', hd, heff⟩ := hdoes
  obtain rfl : m' = map' := (hd.readable hI).unique hread
  exact ⟨h.base.setStage ⟨b, hbegan, hfile, ps', hd⟩, ht.tree.sorted, heff⟩

/-- **The store's invariant** is kept by every step. -/
theorem DB.Step.world (h : db.world.Inv pages) (hstep : Step ok db db') :
    ∃ pages', db'.world.Inv pages' := by
  cases hstep with
  | beginRead h1 => exact h.step (.beginRead h1)
  | endRead h1 h2 => exact h.step (.endRead h1 h2)
  | begin h1 => exact h.step (.begin h1)
  | call h1 _ h2 h3 => exact ⟨pages, (h.call h1 h2 h3).1⟩
  | stop h1 => exact h.step (.abort h1)
  | commit h1 h2 => exact h.step (.commit h1 h2)
  | phase h1 _ _ _ => exact h.step h1
  | writeFails h1 h2 => exact h.step (.writeFails h1 h2)
  | publish h1 h2 => exact h.step (.publish h1 h2)
  | rootFails h1 =>
      rcases h1 with h1 | h1
      · exact h.step (.rootFails h1)
      · exact h.step (.settleFails h1)
  | settle h1 => exact h.step (.settle h1)
  | powerLoss h1 h2 => exact h.step (.powerLoss h1 h2)

theorem DB.Reachable.world (h : Reachable ok db) : ∃ pages, db.world.Inv pages := by
  induction h with
  | start => exact ⟨_, World.Inv.start⟩
  | step _ hstep ih =>
      obtain ⟨pages, h⟩ := ih
      exact hstep.world h

end Steps

/-! ## The invariant -/

namespace DB

/-- The definition is in the catalog of what someone sees. -/
structure Recorded (tdef : TableDef) (m : Contents) : Prop where
  storable : tdef.Storable
  key : ValidKey (tableKey tdef.name)
  stored : tdef.StoredIn m

/-- The cache holds what the transaction reads that uses it. -/
structure Cached (db : DB) : Prop where
  running : ∀ tx map, db.world.stage = .running tx map → db.catalog.Good map ∧
    (db.createdTable = false → ∀ name, definition map name = definition db.world.latest.map name)
  settled : (∀ tx map, db.world.stage ≠ .running tx map) → db.catalog.Good db.world.latest.map ∧
    ∀ map, db.world.stage.map? = some map → db.catalog.Good map

/-- **The invariant** of the catalog. -/
structure Sound (db : DB) : Prop where
  views : ∀ m, db.world.Shows m → Coherent db.allocated m
  cached : db.Cached
  version : ∀ v tdef, (v, tdef) ∈ db.tables → v ≤ db.world.kv.version
  tables : ∀ v tdef, (v, tdef) ∈ db.tables →
    (∀ V ∈ db.world.history, v ≤ V.version → Recorded tdef V.map) ∧
      ∀ map, db.world.stage.map? = some map → Recorded tdef map
  created : ∀ tdef ∈ db.created, ∃ map, db.world.stage.map? = some map ∧ Recorded tdef map
  published : ∀ V ∈ db.world.history, ∀ name tdef, definition V.map name = some tdef →
    ∃ v ≤ V.version, (v, tdef) ∈ db.tables
  origin : ∀ map, db.world.stage.map? = some map → ∀ name tdef, definition map name = some tdef →
    tdef ∈ db.created ∨ ∃ v, (v, tdef) ∈ db.tables

section Sound

variable {ok : DBOp → Prop} {db db' : DB} {pages : Nat → Multiset Nat}

/-- The invariant looks at little of the store. -/
theorem Sound.congr (h : db.Sound) {w : World} (hist : w.history = db.world.history)
    (hlatest : w.latest = db.world.latest) (hversion : w.kv.version = db.world.kv.version)
    (hmap : w.stage.map? = db.world.stage.map?)
    (hrunning : ∀ tx map, w.stage = .running tx map → db.world.stage = .running tx map)
    (hback : ∀ tx map, db.world.stage = .running tx map → w.stage = .running tx map) :
    Sound { db with world := w } := by
  refine ⟨fun m hm => h.views m ?_, ⟨fun tx map hst => ?_, fun hno => ?_⟩, fun v tdef hmem => ?_,
    fun v tdef hmem => ⟨fun V hV => ?_, fun map hm => ?_⟩, fun tdef hmem => ?_,
    fun V hV => h.published V (hist ▸ hV), fun map hm => h.origin map (hmap ▸ hm)⟩
  · unfold World.Shows at hm ⊢
    rwa [← hist, ← hmap]
  · obtain ⟨hgood, hsame⟩ := h.cached.running tx map (hrunning tx map hst)
    refine ⟨hgood, fun hc name => ?_⟩
    show definition map name = definition w.latest.map name
    rw [hlatest]
    exact hsame hc name
  · obtain ⟨hgood, hstage⟩ := h.cached.settled fun tx map hst => hno tx map (hback tx map hst)
    refine ⟨?_, fun map hm => hstage map ?_⟩
    · show db.catalog.Good w.latest.map
      rw [hlatest]
      exact hgood
    · rw [← hmap]
      exact hm
  · show v ≤ w.kv.version
    rw [hversion]
    exact h.version v tdef hmem
  · exact (h.tables v tdef hmem).1 V (hist ▸ hV)
  · exact (h.tables v tdef hmem).2 map (hmap ▸ hm)
  · obtain ⟨map, hm, hrec⟩ := h.created tdef hmem
    exact ⟨map, hmap.trans hm, hrec⟩

theorem dropped_good {m : Contents} (h : db.catalog.Good m) : db.dropped.Good m := by
  unfold dropped
  split
  · exact db.catalog.good_clear m
  · exact h

/-- **The cache at the end of a transaction** is good for what was committed before, too. -/
theorem Cached.dropped (h : db.Cached) {tx : KVTX} {map : Contents}
    (hst : db.world.stage = .running tx map) : db.dropped.Good db.world.latest.map := by
  obtain ⟨hgood, hsame⟩ := h.running tx map hst
  unfold DB.dropped
  by_cases hc : db.createdTable = true
  · rw [if_pos hc]
    exact db.catalog.good_clear _
  · rw [if_neg hc]
    exact hgood.congr fun name => (hsame (Bool.eq_false_of_not_eq_true hc) name).symm

/-- The write transaction ends without being published. -/
theorem Sound.stop (h : db.Sound) {w : World} {cat : Catalog} (hist : w.history = db.world.history)
    (hlatest : w.latest = db.world.latest) (hversion : w.kv.version = db.world.kv.version)
    (hidle : w.stage = .idle) (hgood : cat.Good db.world.latest.map) : Sound (db.ended w cat) := by
  -- no transaction runs any more
  have hnone : w.stage.map? = none := by
    rw [hidle]
    rfl
  refine ⟨fun m hm => h.views m ?_, ⟨fun tx map hst => ?_, fun _ => ⟨?_, fun map hm => ?_⟩⟩,
    fun v tdef hmem => ?_, fun v tdef hmem => ⟨fun V hV => ?_, fun map hm => ?_⟩,
      fun tdef hmem => ?_,
    fun V hV => h.published V (hist ▸ hV), fun map hm => ?_⟩
  · rcases hm with hm | hm
    · obtain ⟨V, hV, he⟩ := hm
      exact Or.inl ⟨V, hist ▸ hV, he⟩
    · rw [show (db.ended w cat).world.stage.map? = none from hnone] at hm
      cases hm
  · rw [show (db.ended w cat).world.stage = .idle from hidle] at hst
    cases hst
  · show cat.Good w.latest.map
    rw [hlatest]
    exact hgood
  · rw [show (db.ended w cat).world.stage.map? = none from hnone] at hm
    cases hm
  · show v ≤ w.kv.version
    rw [hversion]
    exact h.version v tdef hmem
  · exact (h.tables v tdef hmem).1 V (hist ▸ hV)
  · rw [show (db.ended w cat).world.stage.map? = none from hnone] at hm
    cases hm
  · cases hmem
  · rw [show (db.ended w cat).world.stage.map? = none from hnone] at hm
    cases hm

/-- A recorded definition stays so across a call. -/
theorem Recorded.call {n : Nat} {map map' : Contents} {op : DBOp} {r : Except String DBReply}
    {s s' : DBTX (FreeList TxPages)} (h : Coherent n map) (hn : n < 2 ^ 32 - 3) (hm : Sorted map)
    (hgood : s.catalog.Good map) (heff : DBTX.Effect op s map r s' map') {tdef : TableDef}
    (hrec : Recorded tdef map) : Recorded tdef map' := by
  refine ⟨hrec.storable, hrec.key, ?_⟩
  cases op with
  | tableNew d =>
      obtain ⟨r0, hnew, _⟩ := heff
      exact hnew.text hm hrec.stored
  | _ =>
      have hsame := h.wrote hn (heff.2 hgood).1
      show tableText map' tdef.name = _
      rw [hsame.texts]
      exact hrec.stored

theorem newDefs_created {map : Contents} {tdef tdef' : TableDef}
    (hcheck : tableDefCheck tdef = .ok tdef') :
    newDefs (.tableNew tdef) (Except.map DBReply.done (.ok (.ok ()))) map = [tdef'.created map] := by
  rw [Except.map, newDefs, hcheck]

/-- The definitions a call stored. -/
theorem recorded_newDefs {map map' : Contents} {op : DBOp} {r : Except String DBReply}
    {s s' : DBTX (FreeList TxPages)} (hm : Sorted map) (htidy : op.Tidy)
    (heff : DBTX.Effect op s map r s' map') : ∀ tdef ∈ newDefs op r map, Recorded tdef map' := by
  intro tdef hmem
  cases op with
  | tableNew d =>
      obtain ⟨r0, hnew, rfl, _⟩ := heff
      cases hnew with
      | refused => cases hmem
      | threw => cases hmem
      | threwLate _ => cases hmem
      | @created d' hcheck hnone hkey hval =>
          rw [newDefs_created hcheck] at hmem
          obtain rfl := List.mem_singleton.mp hmem
          have hchecked := (tableDefCheck_checked hcheck).1
          refine ⟨⟨hchecked.numbered _, hchecked.created_fits hval,
            (tidy_tableDefCheck hcheck).mpr (htidy d d' rfl hcheck),
              d'.length_created map⟩, hkey, ?_⟩
          show tableText _ _ = _
          rw [tableText_stored (sorted_counted hm _), if_pos rfl]
  | _ => cases hmem

/-- A cached definition stays what is stored across a call. -/
theorem good_call {n : Nat} {map map' : Contents} {op : DBOp} {r : Except String DBReply}
    {s s' : DBTX (FreeList TxPages)} (h : Coherent n map) (hn : n < 2 ^ 32 - 3) (hm : Sorted map)
    (hgood : s.catalog.Good map) (heff : DBTX.Effect op s map r s' map') : s'.catalog.Good map' := by
  cases op with
  | tableNew d =>
      obtain ⟨r0, hnew, _, hcat, _⟩ := heff
      rw [hcat]
      intro name tdef hc
      obtain ⟨hk, hd⟩ := hgood name tdef hc
      refine ⟨hk, ?_⟩
      rw [definition, Option.bind_eq_some_iff] at hd ⊢
      obtain ⟨text, ht, hdec⟩ := hd
      exact ⟨text, hnew.text hm ht, hdec⟩
  | _ =>
      obtain ⟨hw, hgood'⟩ := heff.2 hgood
      exact hgood'.congr (h.wrote hn hw).definition

/-- Without a new table the definitions are the same. -/
theorem definition_call {n : Nat} {map map' : Contents} {op : DBOp} {r : Except String DBReply}
    {s s' : DBTX (FreeList TxPages)} (h : Coherent n map) (hn : n < 2 ^ 32 - 3) (hm : Sorted map)
    (hgood : s.catalog.Good map) (heff : DBTX.Effect op s map r s' map')
    (hc : s'.createdTable = false) : s.createdTable = false ∧
      ∀ name, definition map' name = definition map name := by
  cases op with
  | tableNew d =>
      obtain ⟨r0, hnew, _, _, hcreated⟩ := heff
      rw [hc] at hcreated
      obtain ⟨hs, hr⟩ := Bool.or_eq_false_iff.mp hcreated.symm
      exact ⟨hs, hnew.definition hm (of_decide_eq_false hr)⟩
  | _ =>
      rw [heff.1] at hc
      exact ⟨hc, (h.wrote hn (heff.2 hgood).1).definition⟩

/-- A definition was there before the call, or is the one it stored. -/
theorem definition_called {n : Nat} {map map' : Contents} {op : DBOp} {r : Except String DBReply}
    {s s' : DBTX (FreeList TxPages)} (h : Coherent n map) (hn : n < 2 ^ 32 - 3) (hm : Sorted map)
    (htidy : op.Tidy) (hgood : s.catalog.Good map) (heff : DBTX.Effect op s map r s' map')
    {name : Bytes} {tdef : TableDef} (hd : definition map' name = some tdef) :
    definition map name = some tdef ∨ tdef ∈ newDefs op r map := by
  cases op with
  | tableNew d =>
      obtain ⟨r0, hnew, rfl, _⟩ := heff
      by_cases hr : r0 = .ok (.ok ())
      · obtain rfl := hr
        cases hnew with
        | @created d' hcheck _ _ hval =>
            by_cases he : name = d'.name
            · have htidy' := (tidy_tableDefCheck hcheck).mpr (htidy d d' rfl hcheck)
              rw [he, (definition_created_iff hm (tableDefCheck_checked hcheck).1 hval _).mpr htidy',
                Option.some.injEq] at hd
              rw [newDefs_created hcheck, ← hd]
              exact Or.inr List.mem_cons_self
            · rw [definition, tableText_stored (sorted_counted hm _),
                if_neg (show ¬ name = (d'.created map).name from he), tableText_counted hm] at hd
              exact Or.inl hd
      · rw [hnew.definition hm hr] at hd
        exact Or.inl hd
  | _ =>
      rw [(h.wrote hn (heff.2 hgood).1).definition] at hd
      exact Or.inl hd

theorem coherent_call {n : Nat} {map map' : Contents} {op : DBOp} {r : Except String DBReply}
    {s s' : DBTX (FreeList TxPages)} (h : Coherent n map) (hm : Sorted map) (htidy : op.Tidy)
    (hn : n + given op map map' < 2 ^ 32 - 3) (hgood : s.catalog.Good map)
    (heff : DBTX.Effect op s map r s' map') : Coherent (n + given op map map') map' := by
  cases op with
  | tableNew d =>
      obtain ⟨r0, hnew, _⟩ := heff
      exact h.tableNew hm htidy hnew hn
  | _ =>
      have hsame := h.wrote hn (heff.2 hgood).1
      exact h.congr hsame.texts hsame.next

/-- **A call keeps the invariant.** -/
theorem Sound.call (h : db.Sound) (hinv : db.world.Inv pages) {tx : KVTX} {map map' : Contents}
    {op : DBOp} {r : Except String DBReply} {tx' : DBTX (FreeList TxPages)}
    (hst : db.world.stage = .running tx map) (htidy : op.Tidy)
    (hcall : DBTX.call op (db.session tx) = .ok (r, tx')) (hread : tx'.tree.Readable map')
    (hn : (db.called tx map op r tx' map').allocated < 2 ^ 32 - 3) :
    Sound (db.called tx map op r tx' map') := by
  obtain ⟨_, hm, heff⟩ := hinv.call hst hcall hread
  have hmap : db.world.stage.map? = some map := by
    rw [hst]
    rfl
  have hn' : db.allocated + given op map map' < 2 ^ 32 - 3 := hn
  have hcoh := h.views map (Or.inr hmap)
  obtain ⟨hgood, hsame⟩ := h.cached.running tx map hst
  refine ⟨fun m hshow => ?_, ⟨fun tx2 map2 hst2 => ?_, fun hno => absurd rfl (hno _ _)⟩, h.version,
    fun v tdef hmem => ⟨(h.tables v tdef hmem).1, fun map2 hm2 => ?_⟩, fun tdef hmem => ?_,
    h.published, fun map2 hm2 name tdef hd => ?_⟩
  · rcases hshow with hshow | hshow
    · exact (h.views m (Or.inl hshow)).mono (Nat.le_add_right _ _)
    · rw [← Option.some.inj hshow]
      exact coherent_call hcoh hm htidy hn' hgood heff
  · -- the transaction goes on with what the call left
    obtain ⟨_, rfl⟩ := Stage.running.inj hst2
    refine ⟨good_call hcoh (by omega) hm hgood heff, fun hc name => ?_⟩
    obtain ⟨hs, hdef⟩ := definition_call hcoh (by omega) hm hgood heff hc
    exact (hdef name).trans (hsame hs name)
  · rw [← Option.some.inj hm2]
    exact ((h.tables v tdef hmem).2 map hmap).call hcoh (by omega) hm hgood heff
  · refine ⟨map', rfl, ?_⟩
    rcases List.mem_append.mp hmem with hmem | hmem
    · obtain ⟨map2, hm2, hrec⟩ := h.created tdef hmem
      rw [hmap] at hm2
      rw [← Option.some.inj hm2] at hrec
      exact hrec.call hcoh (by omega) hm hgood heff
    · exact recorded_newDefs hm htidy heff tdef hmem
  · rw [← Option.some.inj hm2] at hd
    rcases definition_called hcoh (by omega) hm htidy hgood heff hd with hd | hd
    · exact (h.origin map hmap name tdef hd).imp_left fun hc => List.mem_append_left _ hc
    · exact Or.inl (List.mem_append_right _ hd)

theorem Sound.start : Sound {} := by
  refine ⟨fun m hm => ?_, ⟨(fun _ _ h => nomatch h), fun _ =>
    ⟨(fun _ _ h => nomatch h), fun _ h => ?_⟩⟩,
    (fun _ _ h => nomatch h), (fun _ _ h => nomatch h), (fun _ h => nomatch h),
    fun V hV name tdef hd => ?_, fun _ h => nomatch h⟩
  · rcases hm with hm | hm
    · obtain ⟨V, hV, rfl⟩ := hm
      rw [List.mem_singleton.mp hV]
      exact coherent_empty
    · cases hm
  · cases h
  · rw [List.mem_singleton.mp hV] at hd
    cases hd

/-- The write transaction begins on the latest version. -/
theorem Sound.begin (h : db.Sound) (hb : db.world.Base pages) (hidle : db.world.stage = .idle) :
    Sound { db with
      world := { db.world with
        stage := .running (db.world.kv.begin db.world.file) db.world.latest.map }
      createdTable := false } := by
  have hno : ∀ tx map, db.world.stage ≠ .running tx map := fun tx map he => by
    rw [hidle] at he
    cases he
  obtain ⟨hgood, _⟩ := h.cached.settled hno
  refine ⟨fun m hm => ?_, ⟨fun tx map hst => ?_, fun hno => absurd rfl (hno _ _)⟩, h.version,
    fun v tdef hmem => ⟨(h.tables v tdef hmem).1, fun map hm => ?_⟩, fun tdef hmem => ?_,
    h.published, fun map hm name tdef hd => ?_⟩
  · rcases hm with hm | hm
    · exact h.views m (Or.inl hm)
    · rw [← Option.some.inj hm]
      exact h.views _ (Or.inl ⟨_, hb.latest_mem, rfl⟩)
  · -- it begins with the latest version, for which the cache is good
    obtain ⟨_, rfl⟩ := Stage.running.inj hst
    exact ⟨hgood, fun _ _ => rfl⟩
  · rw [← Option.some.inj hm]
    refine (h.tables v tdef hmem).1 _ hb.latest_mem ?_
    rw [hb.latest_version]
    exact h.version v tdef hmem
  · obtain ⟨map, hm, _⟩ := h.created tdef hmem
    rw [hidle] at hm
    cases hm
  · rw [← Option.some.inj hm] at hd
    obtain ⟨v, _, hmem⟩ := h.published _ hb.latest_mem name tdef hd
    exact Or.inr ⟨v, hmem⟩

/-- Phase 1 begins, without what the transaction cached. -/
theorem Sound.commit (h : db.Sound) {w : World} {tx : KVTX} {map : Contents} {todo : List PageWrite}
    (hst : db.world.stage = .running tx map) (hist : w.history = db.world.history)
    (hlatest : w.latest = db.world.latest) (hversion : w.kv.version = db.world.kv.version)
    (hst' : w.stage = .writing tx map todo) : Sound { db with world := w, catalog := db.dropped } := by
  have hmap : w.stage.map? = db.world.stage.map? := by
    rw [hst, hst']
    rfl
  refine ⟨fun m hm => h.views m ?_, ⟨fun tx2 map2 hst2 => ?_, fun _ => ⟨?_, fun map2 hm2 => ?_⟩⟩,
    fun v tdef hmem => ?_, fun v tdef hmem => ⟨fun V hV => ?_, fun map2 hm2 => ?_⟩,
    fun tdef hmem => ?_, fun V hV => h.published V (hist ▸ hV), fun map2 hm2 =>
      h.origin map2 (hmap ▸ hm2)⟩
  · unfold World.Shows at hm ⊢
    rwa [← hist, ← hmap]
  · have hst2 : w.stage = .running tx2 map2 := hst2
    rw [hst'] at hst2
    cases hst2
  · show db.dropped.Good w.latest.map
    rw [hlatest]
    exact h.cached.dropped hst
  · have hm2 : w.stage.map? = some map2 := hm2
    rw [hst'] at hm2
    rw [← Option.some.inj hm2]
    exact dropped_good (h.cached.running tx map hst).1
  · show v ≤ w.kv.version
    rw [hversion]
    exact h.version v tdef hmem
  · exact (h.tables v tdef hmem).1 V (hist ▸ hV)
  · exact (h.tables v tdef hmem).2 map2 (hmap ▸ hm2)
  · obtain ⟨map2, hm2, hrec⟩ := h.created tdef hmem
    exact ⟨map2, hmap.trans hm2, hrec⟩

/-- **What the write transaction stored is published** with its version. -/
theorem Sound.publish (h : db.Sound) (hb : db.world.Base pages) {tx : KVTX} {map : Contents}
    (hst : db.world.stage = .synced tx map) : Sound { db with
      world := { db.world with
        kv := db.world.kv.publish tx
        history := db.world.history ++ [db.world.next tx map]
        stage := .published }
      created := []
      tables := db.tables ++ db.created.map fun tdef => (db.world.kv.version + 1, tdef) } := by
  have hmap : db.world.stage.map? = some map := by
    rw [hst]
    rfl
  have hlatest : World.latest { db.world with
      kv := db.world.kv.publish tx
      history := db.world.history ++ [db.world.next tx map]
      stage := .published } = db.world.next tx map := by
    show (db.world.history ++ [_]).getD (db.world.kv.version + 1) .initial = _
    rw [← hb.length, List.getD_eq_getElem?_getD, List.getElem?_concat_length]
    rfl
  -- what the cache holds is what the transaction's contents define
  obtain ⟨_, hgood⟩ := h.cached.settled fun tx map he => by
    rw [hst] at he
    cases he
  refine ⟨fun m hm => ?_, ⟨(fun tx map he => nomatch he), fun _ => ⟨?_, fun _ he => nomatch he⟩⟩,
    fun v tdef hmem => ?_, fun v tdef hmem => ⟨fun V hV hle => ?_, fun _ he => nomatch he⟩,
    (fun tdef hmem => nomatch hmem), fun V hV name tdef hd => ?_, fun _ he => nomatch he⟩
  · rcases hm with hm | hm
    · obtain ⟨V, hV, rfl⟩ := hm
      rcases List.mem_append.mp hV with hV | hV
      · exact h.views _ (Or.inl ⟨V, hV, rfl⟩)
      · rw [List.mem_singleton.mp hV]
        exact h.views _ (Or.inr hmap)
    · cases hm
  · show db.catalog.Good (World.latest _).map
    rw [hlatest]
    exact hgood map hmap
  · show v ≤ db.world.kv.version + 1
    rcases List.mem_append.mp hmem with hmem | hmem
    · have := h.version v tdef hmem
      omega
    · obtain ⟨_, _, he⟩ := List.mem_map.mp hmem
      rw [← (Prod.mk.inj he).1]
  · rcases List.mem_append.mp hmem with hmem | hmem
    · rcases List.mem_append.mp hV with hV | hV
      · exact (h.tables v tdef hmem).1 V hV hle
      · rw [List.mem_singleton.mp hV]
        exact (h.tables v tdef hmem).2 map hmap
    · -- a table this transaction made: only the new version has it
      obtain ⟨d, hd, he⟩ := List.mem_map.mp hmem
      obtain ⟨rfl, rfl⟩ := Prod.mk.inj he
      rcases List.mem_append.mp hV with hV | hV
      · have := hb.version_le hV
        omega
      · rw [List.mem_singleton.mp hV]
        obtain ⟨map2, hm2, hrec⟩ := h.created d hd
        rw [hmap] at hm2
        rw [show (db.world.next tx map).map = map from rfl, Option.some.inj hm2]
        exact hrec
  · rcases List.mem_append.mp hV with hV | hV
    · obtain ⟨v, hle, hmem⟩ := h.published V hV name tdef hd
      exact ⟨v, hle, List.mem_append_left _ hmem⟩
    · rw [List.mem_singleton.mp hV] at hd ⊢
      -- the new version's tables: made by this transaction, or published before
      rcases h.origin map hmap name tdef hd with hc | ⟨v, hmem⟩
      · exact ⟨_, le_refl _, List.mem_append_right _ (List.mem_map_of_mem hc)⟩
      · exact ⟨v, (h.version v tdef hmem).trans (Nat.le_succ _), List.mem_append_left _ hmem⟩

/-- What a power loss leaves was there before. -/
theorem Sound.powerLoss (h : db.Sound) (hb : db.world.Base pages)
    {kept : List PageWrite} {kv : KV} :
    Sound
    { world := db.world.restart kept kv
      allocated := db.allocated
      tables := db.tables.filter fun table => table.1 ≤ kv.version } := by
  refine ⟨fun m hm => ?_, ⟨(fun tx map he => nomatch he), fun _ => ⟨(fun _ _ he => nomatch he),
    fun _ he => nomatch he⟩⟩, fun v tdef hmem => ?_, fun v tdef hmem => ⟨fun V hV => ?_,
    fun _ he => nomatch he⟩, (fun tdef hmem => nomatch hmem), fun V hV name tdef hd => ?_,
    fun _ he => nomatch he⟩
  · rcases hm with hm | hm
    · obtain ⟨V, hV, rfl⟩ := hm
      exact h.views _ (Or.inl ⟨V, List.mem_of_mem_take hV, rfl⟩)
    · cases hm
  · exact of_decide_eq_true (List.mem_filter.mp hmem).2
  · exact (h.tables v tdef (List.mem_filter.mp hmem).1).1 V (List.mem_of_mem_take hV)
  · obtain ⟨v, hle, hmem⟩ := h.published V (List.mem_of_mem_take hV) name tdef hd
    refine ⟨v, hle, List.mem_filter.mpr ⟨hmem, decide_eq_true ?_⟩⟩
    obtain ⟨i, hi, he⟩ := List.mem_take_iff_getElem.mp hV
    have := hb.numbered i V (List.getElem?_eq_some_iff.mpr ⟨by omega, he⟩)
    show v ≤ kv.version
    omega

theorem Step.allocated_le (hstep : Step ok db db') : db.allocated ≤ db'.allocated := by
  cases hstep with
  | call => exact Nat.le_add_right _ _
  | _ => exact le_refl _

/-- **Every step keeps the invariant**, as long as names are tidy and the counter does not wrap. -/
theorem Step.sound (h : db.Sound) (hinv : db.world.Inv pages) (hstep : Step DBOp.Tidy db db')
    (hn : db'.allocated < 2 ^ 32 - 3) : db'.Sound := by
  have hrefl : ∀ tx map, db.world.stage = .running tx map → db.world.stage = .running tx map :=
    fun _ _ he => he
  cases hstep with
  | beginRead _ => exact h.congr rfl rfl rfl rfl hrefl hrefl
  | endRead _ hend =>
      obtain ⟨_, _, he⟩ := bind_eq_ok.mp hend
      cases he
      exact h.congr rfl rfl rfl rfl hrefl hrefl
  | begin hidle => exact h.begin hinv.base hidle
  | call hst htidy hcall hread => exact h.call hinv hst htidy hcall hread hn
  | stop hst => exact h.stop rfl rfl rfl rfl (h.cached.dropped hst)
  | @commit tx map hst _ =>
      have hversion := db.world.kv.extendMmap_version (db.world.kv.commitSize tx)
      refine h.commit hst rfl ?_ hversion rfl
      show db.world.history.getD _ _ = db.world.history.getD _ _
      rw [hversion]
  | phase hw hst hst' hist =>
      obtain ⟨hlatest, hmap, hversion, hno⟩ := hw.phase hst hst' hist
      refine h.congr hist hlatest hversion hmap (fun tx map he => absurd he (hno tx map)) ?_
      intro tx map he
      rw [he] at hst
      rcases hst with ⟨_, _, _, h⟩ | ⟨_, _, h⟩ | h | h <;> cases h
  | writeFails hst _ =>
      refine h.stop rfl rfl rfl rfl (h.cached.settled fun tx map he => ?_).1
      rw [hst] at he
      cases he
  | publish hst _ => exact h.publish hinv.base hst
  | rootFails hst =>
      have hmap : db.world.stage.map? = none := by
        rcases hst with hst | hst <;> rw [hst] <;> rfl
      refine h.congr rfl rfl rfl hmap.symm (fun tx map he => nomatch he) fun tx map he => ?_
      rw [he] at hmap
      cases hmap
  | settle hst =>
      refine h.congr rfl rfl rfl ?_ (fun tx map he => nomatch he) fun tx map he => ?_
      · rw [hst]
        rfl
      · rw [hst] at he
        cases he
  | powerLoss _ _ => exact h.powerLoss hinv.base

/-- **The invariant holds in every state of a run.** -/
theorem Reachable.sound (h : Reachable DBOp.Tidy db) (hn : db.allocated < 2 ^ 32 - 3) : db.Sound := by
  induction h with
  | start => exact .start
  | step hr hstep ih =>
      obtain ⟨pages, hinv⟩ := hr.world
      exact hstep.sound (ih (lt_of_le_of_lt hstep.allocated_le hn)) hinv hn

end Sound

end DB

end SqlDb
