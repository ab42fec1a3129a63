import SqlDb.Db.Calls
import SqlDb.Storage.Isolation

/-!
# The database

What application code runs: transactions of table calls on one store, commits that can
fail in either phase, and power losses. The catalog's cache lives in the process. It is
dropped at the end of a transaction that created a table, before the outcome of the
commit is known, and with the process.

`allocated`, `created` and `tables` are ghosts: how many spaces were given out in all, the
definitions that the write transaction stored, and those that are published, by version.
-/

namespace SqlDb

open Outcome OrdMap

structure DB where
  world : World := {}
  catalog : Catalog := {}
  /-- The write transaction's `created_table_`. -/
  createdTable : Bool := false
  allocated : Nat := 0
  created : List TableDef := []
  tables : List (Nat × TableDef) := []

namespace DB

/-- The write transaction, on its tree. -/
def session (db : DB) (tx : KVTX) : DBTX (FreeList TxPages) :=
  ⟨tx.tree, db.catalog, db.createdTable⟩

/-- The spaces that a call gave out: none if it left the bindings as they were. -/
def given (op : DBOp) (map map' : Contents) : Nat :=
  match op with
  | .tableNew tdef => if map' = map then 0 else 1 + tdef.indexes.length
  | _ => 0

/-- The definition that a call stored. -/
def newDefs (op : DBOp) (r : Except String DBReply) (map : Contents) : List TableDef :=
  match op, r with
  | .tableNew tdef, .ok (.done (.ok ())) =>
      match tableDefCheck tdef with
      | .ok tdef => [tdef.created map]
      | .error _ => []
  | _, _ => []

/-- The database after a call that returned or threw. -/
def called (db : DB) (tx : KVTX) (map : Contents) (op : DBOp) (r : Except String DBReply)
    (tx' : DBTX (FreeList TxPages)) (map' : Contents) : DB :=
  { db with
    world := { db.world with stage := .running { tx with tree := tx'.tree } map' }
    catalog := tx'.catalog
    createdTable := tx'.createdTable
    allocated := db.allocated + given op map map'
    created := db.created ++ newDefs op r map }

/-- The cache at the end of the transaction. -/
def dropped (db : DB) : Catalog := if db.createdTable then db.catalog.clearCache else db.catalog

/-- The write transaction ends here. -/
def ended (db : DB) (world : World) (catalog : Catalog) : DB :=
  { db with world := world, catalog := catalog, created := [] }

/-- A commit is under way. -/
def Committing (stage : Stage) : Prop :=
  (∃ tx map todo, stage = .writing tx map todo) ∨ (∃ tx map, stage = .synced tx map) ∨
    stage = .published ∨ stage = .rooted

/-- One step of a run; `ok` is what holds of every call. A call that fails an assertion ends the
run. The map of the write transaction is what its tree stands for. -/
inductive Step (ok : DBOp → Prop) : DB → DB → Prop where
  | beginRead {db : DB} {id : Nat} : id ∉ db.world.readers →
      Step ok db { db with world := db.world.beginRead id }
  | endRead {db : DB} {id : Nat} {kv : KV} : id ∈ db.world.readers →
      db.world.kv.endRead id = .ok kv → Step ok db { db with world := { db.world with kv := kv } }
  | begin {db : DB} : db.world.stage = .idle → Step ok db { db with
      world := { db.world with
        stage := .running (db.world.kv.begin db.world.file) db.world.latest.map }
      createdTable := false }
  | call {db : DB} {tx : KVTX} {map map' : Contents} {op : DBOp} {r : Except String DBReply}
      {tx' : DBTX (FreeList TxPages)} : db.world.stage = .running tx map → ok op →
      DBTX.call op (db.session tx) = .ok (r, tx') → tx'.tree.Readable map' →
      Step ok db (db.called tx map op r tx' map')
  /-- `abort`, and a `commit` that has nothing to write or cannot map its pages. -/
  | stop {db : DB} {tx : KVTX} {map : Contents} : db.world.stage = .running tx map →
      Step ok db (db.ended { db.world with stage := .idle } db.dropped)
  | commit {db : DB} {tx : KVTX} {map : Contents} : db.world.stage = .running tx map →
      tx.tree.root ≠ db.world.kv.root → Step ok db { db with
        world := { db.world with
          kv := db.world.kv.extendMmap (db.world.kv.commitSize tx)
          stage := .writing tx map (pageWrites tx.pageUpdates) }
        catalog := db.dropped }
  /-- The commit goes on. -/
  | phase {db : DB} {w' : World} : World.Step db.world w' → Committing db.world.stage →
      Committing w'.stage → w'.history = db.world.history → Step ok db { db with world := w' }
  | writeFails {db : DB} {tx : KVTX} {map : Contents} {todo landed : List PageWrite} :
      db.world.stage = .writing tx map todo → landed.Sublist todo → Step ok db (db.ended
        { db.world with pending := db.world.pending ++ landed, stage := .idle } db.catalog)
  | publish {db : DB} {tx : KVTX} {map : Contents} : db.world.stage = .synced tx map →
      db.world.kv.version + 1 < 2 ^ 63 → Step ok db { db with
        world := { db.world with
          kv := db.world.kv.publish tx
          history := db.world.history ++ [db.world.next tx map]
          stage := .published }
        created := []
        tables := db.tables ++ db.created.map fun tdef => (db.world.kv.version + 1, tdef) }
  /-- Phase 2 fails. -/
  | rootFails {db : DB} : db.world.stage = .published ∨ db.world.stage = .rooted →
      Step ok db { db with world := { db.world with stage := .idle } }
  | settle {db : DB} : db.world.stage = .rooted → Step ok db { db with
      world := { db.world.sync with kv := db.world.kv.settle, stage := .idle } }
  | powerLoss {db : DB} {kept : List PageWrite} {kv : KV} : kept.Sublist db.world.pending →
      KV.readRoot (db.world.disk.pwrites kept) = .ok kv → Step ok db
        { world := db.world.restart kept kv
          allocated := db.allocated
          tables := db.tables.filter fun table => table.1 ≤ kv.version }

/-- The states of runs that start from a new file. -/
inductive Reachable (ok : DBOp → Prop) : DB → Prop where
  | start : Reachable ok {}
  | step {db db' : DB} : Reachable ok db → Step ok db db' → Reachable ok db'

end DB

end SqlDb
