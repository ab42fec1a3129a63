import SqlDb.Access.TableMap
import SqlDb.Catalog.Catalog

/-!
# The calls of a transaction

What application code calls: tables by name, in one write transaction. A call looks its
table up in the catalog, whose cache belongs to the database, and then runs on the
transaction's tree. The lookup's effect on the cache stays, whatever comes after it.
-/

namespace SqlDb

open Outcome OrdMap

/-- A `DBTX`: the transaction's tree, the database's catalog, and whether it created a table. -/
structure DBTX (σ : Type) where
  tree : BTree σ
  catalog : Catalog := {}
  createdTable : Bool := false

/-- What a call returned or threw, and the transaction it leaves. -/
abbrev DBTX.Call (σ α : Type) := DBTX σ → Except Fault (Except String α × DBTX σ)

namespace DBTX

variable {σ α ε : Type} [PageManager σ]

/-- A program on the transaction's tree. -/
def onTree (p : Tx σ α) : Call σ α := fun tx =>
  match p tx.tree with
  | .error f => .error f
  | .ok (r, tree) => .ok (r, { tx with tree := tree })

/-- `find_table`; a throw leaves the cache as it was. -/
def findTable (table : Bytes) : Call σ (Option TableDef) := fun tx =>
  match tx.catalog.getTableDef table tx.tree with
  | .error f => .error f
  | .ok (.error what, tree) => .ok (.error what, { tx with tree := tree })
  | .ok (.ok (tdef, catalog), tree) => .ok (.ok tdef, { tx with tree := tree, catalog := catalog })

def notFound (table : Bytes) : Bytes := .ofString "table not found: " ++ table

/-- What every call on a table does: find it, and go on or say that it is missing. -/
def onTable (table : Bytes) (miss : Bytes → ε) (p : TableDef → Tx σ (Except ε α)) :
    Call σ (Except ε α) := fun tx =>
  match findTable table tx with
  | .error f => .error f
  | .ok (.error what, tx) => .ok (.error what, tx)
  | .ok (.ok none, tx) => .ok (.ok (.error (miss (notFound table))), tx)
  | .ok (.ok (some tdef), tx) => onTree (p tdef) tx

def tableNew (tdef : TableDef) : Call σ (Except Bytes Unit) := fun tx =>
  match onTree (SqlDb.tableNew tdef) tx with
  | .ok (.ok (.ok ()), tx) => .ok (.ok (.ok ()), { tx with createdTable := true })
  | r => r

def get (table : Bytes) (rec : Record) : Call σ (Answer Record) :=
  onTable table some fun tdef => Tx.look fun t => dbGet t tdef rec

def insert (table : Bytes) (rec : Record) : Call σ (Except Bytes Unit) :=
  onTable table id fun tdef => dbUpdate tdef rec .insertOnly

def update (table : Bytes) (rec : Record) : Call σ (Except Bytes Unit) :=
  onTable table id fun tdef => dbUpdate tdef rec .updateOnly

def upsert (table : Bytes) (rec : Record) : Call σ (Except Bytes Unit) :=
  onTable table id fun tdef => dbUpdate tdef rec .upsert

def del (table : Bytes) (rec : Record) : Call σ (Answer Unit) :=
  onTable table some fun tdef => dbDelete tdef rec

def scan (table : Bytes) (req : ScanReq) : Call σ (Except Bytes Scanner) :=
  onTable table id fun tdef => Tx.look fun t => dbScan t tdef req

def tableDef (table : Bytes) : Call σ (Except Bytes TableDef) :=
  onTable table id fun tdef => return .ok tdef

end DBTX

/-! ## Calls as data -/

inductive DBOp where
  | tableNew (tdef : TableDef)
  | get (table : Bytes) (rec : Record)
  | insert (table : Bytes) (rec : Record)
  | update (table : Bytes) (rec : Record)
  | upsert (table : Bytes) (rec : Record)
  | del (table : Bytes) (rec : Record)
  | scan (table : Bytes) (req : ScanReq)
  | tableDef (table : Bytes)

/-- What a call returns. -/
inductive DBReply where
  | done (r : Except Bytes Unit)
  | row (r : Answer Record)
  | deleted (r : Answer Unit)
  | scanner (r : Except Bytes Scanner)
  | tableDef (r : Except Bytes TableDef)

namespace DBTX

variable {σ α : Type} [PageManager σ]

/-- The call's result as a reply. -/
def reply (f : α → DBReply) (call : Call σ α) : Call σ DBReply := fun tx =>
  match call tx with
  | .error f => .error f
  | .ok (.error what, tx) => .ok (.error what, tx)
  | .ok (.ok a, tx) => .ok (.ok (f a), tx)

def call : DBOp → Call σ DBReply
  | .tableNew tdef => reply .done (tableNew tdef)
  | .get table rec => reply .row (get table rec)
  | .insert table rec => reply .done (insert table rec)
  | .update table rec => reply .done (update table rec)
  | .upsert table rec => reply .done (upsert table rec)
  | .del table rec => reply .deleted (del table rec)
  | .scan table req => reply .scanner (scan table req)
  | .tableDef table => reply .tableDef (tableDef table)

end DBTX

end SqlDb
