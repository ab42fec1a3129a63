import SqlDb.Db.Database
import SqlDb.Catalog.Cache
import SqlDb.Storage.Roomy

/-!
# Runs of the first transaction

What the calls do to a tree with numbers left, and with it the states that a database
reaches before anything was committed.
-/

namespace SqlDb

open Outcome OrdMap

/-! ## Calls that go through -/

section Calls

variable {σ : Type} [PageManager σ] {k : Nat} {m : Contents} {tdef : TableDef}

/-- **A new table** takes two writes. -/
theorem Goes.tableNew {accepted : TableDef} (hcheck : tableDefCheck tdef = .ok accepted)
    (hzero : accepted.keyPrefix = 0) (hnil : accepted.indexPrefixes = [])
    (hnone : tableText m accepted.name = none) (hk : ValidKey (tableKey accepted.name))
    (hv : ValidVal (encodeTableDef (accepted.created m))) :
    Goes 2 (tableNew tdef : Tx σ _) m (.ok ())
      (stored (counted m accepted.width) (accepted.created m)) := by
  have hstored : Goes 0 (Tx.look fun t => internalGet t tdefMeta nextPrefixName : Tx σ _) m
      (lookup m counterKey) m := .look fun t hread => hread.get (by decide)
  have hfound : Goes 0 (Tx.look fun t => internalGet t tdefTable accepted.name : Tx σ _) m none m := by
    refine .look fun t hread => ?_
    rw [← hnone]
    exact hread.get hk
  have hcount : Goes 1 (internalSet tdefMeta nextPrefixName
      (Bytes.be 4 (u32 (readPrefix (lookup m counterKey) + accepted.width))) : Tx σ _) m ()
      (counted m accepted.width) := .set (by decide) (by rw [ValidVal, Bytes.length_be]; decide)
  have halloc : Goes 1 (allocPrefix accepted.width : Tx σ _) m (nextPrefix m) (counted m accepted.width) :=
    hstored.bind (hcount.bind (.pure _ _))
  have hstore : Goes 1 (internalSet tdefTable accepted.name (encodeTableDef (accepted.created m)) :
      Tx σ _)
      (counted m accepted.width) () (stored (counted m accepted.width) (accepted.created m)) :=
    .set hk hv
  unfold SqlDb.tableNew
  rw [hcheck]
  dsimp only
  rw [if_neg (by rw [hzero, hnil]; simp)]
  exact hfound.bind (halloc.bind (hstore.bind (.pure _ _)))

/-- **A row that the mode allows** takes one write, if there are no indexes. -/
theorem Goes.dbUpdate {rec : Record} {mode : UpdateMode} {row : List Value} {key val : Bytes}
    (hrow : checkRecord tdef rec tdef.cols.length = .ok row)
    (hkey : encodeKey tdef.keyPrefix (row.take tdef.npkeys) = .ok key)
    (hval : encodeValues (row.drop tdef.npkeys) = .ok val) (hindexes : tdef.indexes = [])
    (hk : ValidKey key) (hv : ValidVal val) (hallow : mode.allows (lookup m key).isSome = true) :
    Goes 1 (dbUpdate tdef rec mode : Tx σ _) m (.ok ()) (OrdMap.insert m key val) := by
  have hkey' : Goes 0 (Tx.lift (encodeKey tdef.keyPrefix (row.take tdef.npkeys)) : Tx σ _) m key m :=
    .lift hkey
  have hval' : Goes 0 (Tx.lift (encodeValues (row.drop tdef.npkeys)) : Tx σ _) m val m := .lift hval
  have hupdate := Goes.update (σ := σ) { key := key, val := val, mode := mode } hk hv hallow
  unfold SqlDb.dbUpdate
  rw [hrow]
  refine hkey'.bind (hval'.bind (hupdate.bind ?_))
  dsimp only
  rw [if_neg (by simp), if_pos hindexes]
  exact .pure _ _

end Calls

namespace DBTX

/-- From a roomy tree that stands for `m`, with this cache, the call returns `a` and leaves the cache
`cat'` and a tree that stands for `m'`, after `k` writes at most. -/
def Goes {α : Type} (k : Nat) (c : Call (FreeList TxPages) α) (cat : Catalog) (m : Contents) (a : α)
    (cat' : Catalog) (m' : Contents) : Prop :=
  ∀ n t created, Roomy (n + k) t m →
    ∃ t' created', c ⟨t, cat, created⟩ = .ok (.ok a, ⟨t', cat', created'⟩) ∧ Roomy n t' m'

section Calls

variable {α ε : Type} {k : Nat} {m m' : Contents} {a : α} {cat cat' : Catalog}

theorem Goes.reply {c : Call (FreeList TxPages) α} (h : Goes k c cat m a cat' m')
    (f : α → DBReply) :
    Goes k (reply f c) cat m (f a) cat' m' := by
  intro n t created hroomy
  obtain ⟨t', created', hrun, hroomy'⟩ := h n t created hroomy
  refine ⟨t', created', ?_, hroomy'⟩
  unfold DBTX.reply
  rw [hrun]

theorem Goes.tableNew {tdef : TableDef}
    (h : SqlDb.Goes k (SqlDb.tableNew tdef : Tx (FreeList TxPages) _) m (.ok ()) m') :
    Goes k (tableNew tdef) cat m (.ok ()) cat m' := by
  intro n t created hroomy
  obtain ⟨t', hrun, hroomy'⟩ := h n t hroomy
  refine ⟨t', true, ?_, hroomy'⟩
  unfold DBTX.tableNew onTree
  rw [hrun]

/-- A table that is found for the first time is cached. -/
theorem Goes.onTable {table : Bytes} {miss : Bytes → ε} {tdef : TableDef}
    {p : TableDef → Tx (FreeList TxPages) (Except ε α)} {r : Except ε α}
    (hcat : cat.cache table = none) (hk : ValidKey (tableKey table))
    (hdef : definition m table = some tdef) (h : SqlDb.Goes k (p tdef) m r m') :
    Goes k (onTable table miss p) cat m r (cat.remember table (some tdef)) m' := by
  intro n t created hroomy
  obtain ⟨t', hrun, hroomy'⟩ := h n t hroomy
  refine ⟨t', created, ?_, hroomy'⟩
  unfold DBTX.onTable findTable
  dsimp only
  rw [Catalog.getTableDef_missed hroomy.readable hcat, if_pos hk, hdef]
  show onTree (p tdef) _ = _
  unfold onTree
  rw [hrun]

end Calls

end DBTX

/-! ## States -/

namespace DB

/-- A state of a run before anything was committed: the transaction's tree stands for `map`, with
numbers for `n` more writes. -/
structure First (ok : DBOp → Prop) (n : Nat) (db : DB) (cat : Catalog) (map : Contents) : Prop where
  reachable : Reachable ok db
  catalog : db.catalog = cat
  running : ∃ tx, db.world.stage = .running tx map ∧ Roomy n tx.tree map

variable {ok : DBOp → Prop} {n k : Nat} {cat cat' : Catalog} {map map' : Contents} {db : DB}

/-- The database after `begin` on a new file. -/
def begun : DB := { world := { stage := .running (KV.fresh.begin .empty) [] } }

theorem roomy_begin (hn : n ≤ 20) : Roomy n (KV.fresh.begin .empty).tree [] :=
  World.rests_start.roomy (by omega)

theorem first_begun (ok : DBOp → Prop) (hn : n ≤ 20) : First ok n begun {} [] :=
  ⟨.step .start (.begin rfl), rfl, _, rfl, roomy_begin hn⟩

/-- **A call that goes through** leads to another such state. -/
theorem First.call {op : DBOp} {r : DBReply} (h : First ok (n + k) db cat map) (hop : ok op)
    (hgoes : DBTX.Goes k (DBTX.call op) cat map r cat' map') : ∃ db', First ok n db' cat' map' ∧
      db'.allocated = db.allocated + given op map map' ∧
      db'.created = db.created ++ newDefs op (.ok r) map := by
  obtain ⟨tx, hst, hroomy⟩ := h.running
  obtain ⟨t', created', hcall, hroomy'⟩ := hgoes n tx.tree db.createdTable hroomy
  have hcall' : DBTX.call op (db.session tx) = .ok (.ok r, ⟨t', cat', created'⟩) := by
    rw [← hcall, session, h.catalog]
  exact ⟨_, ⟨.step h.reachable (.call hst hop hcall' hroomy'.readable), rfl, _, rfl, hroomy'⟩, rfl, rfl⟩

end DB

end SqlDb
