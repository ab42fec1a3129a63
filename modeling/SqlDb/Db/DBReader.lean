import SqlDb.Db.Relations

/-!
# The calls of a reader

Tables by name, in the version that was the latest when the reader began. A reader keeps
off the database's cache, which is the writer's, and has one of its own, that lives as long
as it does. So it looks a table up as a transaction does that begins with no cache, and
answers as such a transaction.
-/

namespace SqlDb

open Outcome OrdMap

/-! ## The code -/

/-- A `DBReader`: the tree of its version, and `tables_`, the definitions read so far. -/
structure DBReader (σ : Type) where
  tree : BTree σ
  tables : Bytes → Option TableDef := fun _ => none

/-- What a call returned or threw, and the reader it leaves. -/
abbrev DBReader.Call (σ α : Type) := DBReader σ → Except Fault (Except String α × DBReader σ)

namespace DBReader

variable {σ α ε : Type}

/-- What is read leaves the tree as it is. -/
def look (f : BTree σ → Except Fault α) : Call σ α := fun rd =>
  match f rd.tree with
  | .ok a => .ok (.ok a, rd)
  | .error (.throws what) => .ok (.error what, rd)
  | .error f => .error f

variable [PageManager σ]

def findTable (table : Bytes) : Call σ (Except Bytes TableDef) := fun rd =>
  match rd.tables table with
  | some tdef => .ok (.ok (.ok tdef), rd)
  | none =>
      match look (fun t => getTableDefFromKv t table) rd with
      | .error f => .error f
      | .ok (.error what, rd) => .ok (.error what, rd)
      | .ok (.ok none, rd) => .ok (.ok (.error (DBTX.notFound table)), rd)
      | .ok (.ok (some tdef), rd) =>
          .ok (.ok (.ok tdef), { rd with tables := Function.update rd.tables table (some tdef) })

/-- What every call on a table does. -/
def onTable (table : Bytes) (miss : Bytes → ε) (f : TableDef → BTree σ → Except Fault (Except ε α)) :
    Call σ (Except ε α) := fun rd =>
  match findTable table rd with
  | .error f => .error f
  | .ok (.error what, rd) => .ok (.error what, rd)
  | .ok (.ok (.error err), rd) => .ok (.ok (.error (miss err)), rd)
  | .ok (.ok (.ok tdef), rd) => look (f tdef) rd

def get (table : Bytes) (rec : Record) : Call σ (Answer Record) :=
  onTable table some fun tdef t => dbGet t tdef rec

def scan (table : Bytes) (req : ScanReq) : Call σ (Except Bytes Scanner) :=
  onTable table id fun tdef t => dbScan t tdef req

def tableDef (table : Bytes) : Call σ (Except Bytes TableDef) := findTable table

end DBReader

namespace DBReader

variable {σ α : Type}

def reply (f : α → DBReply) (call : Call σ α) : Call σ DBReply := fun rd =>
  match call rd with
  | .error f => .error f
  | .ok (.error what, rd) => .ok (.error what, rd)
  | .ok (.ok a, rd) => .ok (.ok (f a), rd)

def call [PageManager σ] : ReadOp → Call σ DBReply
  | .get table rec => reply .row (get table rec)
  | .scan table req => reply .scanner (scan table req)
  | .tableDef table => reply .tableDef (tableDef table)

/-! ## A reader as a transaction -/

/-- The transaction that has this tree, and these definitions at hand. -/
def asTx (rd : DBReader σ) : DBTX σ := { tree := rd.tree, catalog := ⟨rd.tables⟩ }

/-- The reader's call does what the transaction's does, on the reader as a transaction. -/
def Mirrors (c : Call σ α) (c' : DBTX.Call σ α) : Prop :=
  ∀ rd, c' rd.asTx = (c rd).map fun out => (out.1, out.2.asTx)

section Mirrors

variable {ε : Type} {c : Call σ α} {c' : DBTX.Call σ α} {rd rd' : DBReader σ}
  {r : Except String α}

/-- A call that returned. -/
theorem Mirrors.ok (h : Mirrors c c') (hcall : c rd = .ok (r, rd')) :
    c' rd.asTx = .ok (r, rd'.asTx) := by
  rw [h rd, hcall]
  rfl

theorem Mirrors.exists_ok (h : Mirrors c c') {tx' : DBTX σ} (hcall : c' rd.asTx = .ok (r, tx')) :
    ∃ rd', c rd = .ok (r, rd') ∧ rd'.asTx = tx' := by
  rw [h rd] at hcall
  cases hc : c rd with
  | error f =>
      rw [hc] at hcall
      cases hcall
  | ok out =>
      obtain ⟨r', rd'⟩ := out
      rw [hc] at hcall
      obtain ⟨rfl, rfl⟩ := Prod.mk.inj (Except.ok.inj hcall)
      exact ⟨rd', rfl, rfl⟩

theorem mirrors_look (f : BTree σ → Except Fault α) :
    Mirrors (look f) (DBTX.onTree (Tx.look f)) := by
  intro rd
  unfold look DBTX.onTree Tx.look Tx.call
  beta_reduce
  rw [show rd.asTx.tree = rd.tree from rfl]
  cases f rd.tree with
  | ok a => rfl
  | error e => cases e <;> rfl

theorem mirrors_reply (f : α → DBReply) (h : Mirrors c c') :
    Mirrors (reply f c) (DBTX.reply f c') := by
  intro rd
  unfold reply DBTX.reply
  rw [h rd]
  cases c rd with
  | error e => rfl
  | ok out =>
      obtain ⟨r, rd'⟩ := out
      cases r <;> rfl

variable [PageManager σ]

/-- What is not cached is read. -/
theorem getTableDef_uncached {cat : Catalog} {table : Bytes} (h : cat.cache table = none)
    (t : BTree σ) :
    cat.getTableDef table t =
      match getTableDefFromKv t table with
      | .ok none => .ok (.ok (none, cat), t)
      | .ok (some tdef) =>
          .ok (.ok (some tdef, ⟨Function.update cat.cache table (some tdef)⟩), t)
      | .error (.throws what) => .ok (.error what, t)
      | .error f => .error f := by
  unfold Catalog.getTableDef
  rw [h]
  show Tx.bind (Tx.look _) _ t = _
  unfold Tx.bind Tx.look Tx.call
  beta_reduce
  cases getTableDefFromKv t table with
  | error e => cases e <;> rfl
  | ok found => cases found <;> rfl

theorem mirrors_onTable (table : Bytes) (miss : Bytes → ε)
    (f : TableDef → BTree σ → Except Fault (Except ε α)) :
    Mirrors (onTable table miss f) (DBTX.onTable table miss fun tdef => Tx.look (f tdef)) := by
  intro rd
  unfold onTable DBTX.onTable findTable DBTX.findTable
  cases hc : rd.tables table with
  | some tdef =>
      rw [Catalog.getTableDef_cached (show rd.asTx.catalog.cache table = some tdef from hc)]
      exact mirrors_look (f tdef) rd
  | none =>
      rw [getTableDef_uncached (show rd.asTx.catalog.cache table = none from hc)]
      unfold look
      beta_reduce
      rw [show rd.asTx.tree = rd.tree from rfl]
      cases getTableDefFromKv rd.tree table with
      | error e => cases e <;> rfl
      | ok found =>
          cases found with
          | none => rfl
          | some tdef =>
              exact mirrors_look (f tdef)
                { rd with tables := Function.update rd.tables table (some tdef) }

theorem mirrors_tableDef (table : Bytes) :
    Mirrors (tableDef table : Call σ (Except Bytes TableDef)) (DBTX.tableDef table) := by
  intro rd
  rw [show DBTX.tableDef table rd.asTx = _ from
    mirrors_onTable table id (fun tdef _ => .ok (.ok tdef)) rd]
  unfold onTable tableDef
  cases findTable table rd with
  | error e => rfl
  | ok out =>
      obtain ⟨r, rd'⟩ := out
      cases r with
      | error what => rfl
      | ok r => cases r <;> rfl

/-- **A reader answers as a transaction** that sees its version. -/
theorem mirrors_call (op : ReadOp) : Mirrors (call op : Call σ DBReply) (DBTX.call op.toOp) := by
  cases op with
  | get table rec => exact mirrors_reply _ (mirrors_onTable table some _)
  | scan table req => exact mirrors_reply _ (mirrors_onTable table id _)
  | tableDef table => exact mirrors_reply _ (mirrors_tableDef table)

end Mirrors

end DBReader

end SqlDb
