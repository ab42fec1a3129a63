import SqlDb.Db.Serial
import SqlDb.Ql.Parsed
import SqlDb.Ql.Refine

/-!
# The calls that a statement is made of

A statement does nothing to its transaction but by calls of it, one after the other. So it is
a run of the database's steps, and the database after it is a state of such runs.
-/

namespace SqlDb

open Outcome OrdMap

namespace DBTX

open TableTx (answer andThen compute scanRows)

/-! ## Calls that make no table -/

section Made

variable {σ α β ε ε' : Type} [PageManager σ] {tx tx' tx'' : DBTX σ}

/-- The transaction after calls on tables, one after the other. -/
inductive Made (tx : DBTX σ) : DBTX σ → Prop where
  | refl : Made tx tx
  | call {tx' tx'' : DBTX σ} {op : DBOp} {r : Except String DBReply} : Made tx tx' →
      op.missing ≠ none → DBTX.call op tx' = .ok (r, tx'') → Made tx tx''

theorem Made.trans (h : tx.Made tx') (h' : tx'.Made tx'') : tx.Made tx'' := by
  induction h' with
  | refl => exact h
  | call _ hop hcall ih => exact .call ih hop hcall

/-- All that it does is by such calls. -/
def Makes (c : Call σ α) : Prop := ∀ tx r tx', c tx = .ok (r, tx') → tx.Made tx'

theorem Makes.answer (r : Except ε α) : Makes (TableTx.answer r : Call σ (Except ε α)) := by
  intro tx r' tx' h
  obtain ⟨_, rfl⟩ := Prod.mk.inj (Except.ok.inj h)
  exact .refl

theorem Makes.look (f : BTree σ → Except Fault α) : Makes (onTree (Tx.look f)) := by
  intro tx r tx' h
  unfold onTree Tx.look Tx.call at h
  beta_reduce at h
  cases hf : f tx.tree with
  | ok a =>
      rw [hf] at h
      obtain ⟨_, rfl⟩ := Prod.mk.inj (Except.ok.inj h)
      exact .refl
  | error e =>
      rw [hf] at h
      cases e with
      | throws what =>
          obtain ⟨_, rfl⟩ := Prod.mk.inj (Except.ok.inj h)
          exact .refl
      | _ => cases h

theorem Makes.compute (r : Except Fault α) : Makes (TableTx.compute r : Call σ (Except ε α)) :=
  .look _

theorem Makes.andThen {say : ε → ε'} {c : Call σ (Except ε α)} {f : α → Call σ (Except ε' β)}
    (hc : Makes c) (hf : ∀ a, Makes (f a)) : Makes (TableTx.andThen say c f) := by
  intro tx r tx' h
  rcases andThen_cases h with ⟨_, hrun, _⟩ | ⟨_, hrun, _⟩ | ⟨a, tx1, hrun, hrest⟩
  · exact hc _ _ _ hrun
  · exact hc _ _ _ hrun
  · exact (hc _ _ _ hrun).trans (hf a _ _ _ hrest)

/-- One call. -/
theorem Makes.one {f : α → DBReply} {c : Call σ α} (op : DBOp) (hop : op.missing ≠ none)
    (hcall : DBTX.call op = reply f c) : Makes c := by
  intro tx r tx' h
  have hreply : ∃ r', DBTX.call op tx = .ok (r', tx') := by
    rw [hcall]
    unfold reply
    rw [h]
    cases r with
    | error what => exact ⟨_, rfl⟩
    | ok a => exact ⟨_, rfl⟩
  obtain ⟨r', hcall'⟩ := hreply
  exact .call .refl hop hcall'

/-! ## Statements -/

theorem makes_tableDef (table : Bytes) : Makes (tableDef table : Call σ (Except Bytes TableDef)) :=
  .one (.tableDef table) (Option.some_ne_none _) rfl

theorem makes_scan (table : Bytes) (req : ScanReq) :
    Makes (scan table req : Call σ (Except Bytes Scanner)) :=
  .one (.scan table req) (Option.some_ne_none _) rfl

theorem makes_del (table : Bytes) (rec : Record) : Makes (del table rec : Call σ (Answer Unit)) :=
  .one (.del table rec) (Option.some_ne_none _) rfl

theorem makes_write (mode : UpdateMode) (table : Bytes) (rec : Record) :
    Makes (write mode table rec : Call σ (Except Bytes Unit)) := by
  cases mode with
  | insertOnly => exact .one (.insert table rec) (Option.some_ne_none _) rfl
  | updateOnly => exact .one (.update table rec) (Option.some_ne_none _) rfl
  | upsert => exact .one (.upsert table rec) (Option.some_ne_none _) rfl

theorem makes_scanRows (fuel : Nat) (req : QLScan) :
    Makes (scanRows fuel req : Call σ (Except Bytes (List Record))) := by
  unfold scanRows
  split
  · exact .answer _
  · refine .andThen (makes_tableDef _) fun tdef => .andThen (.compute _) fun range => ?_
    exact .andThen (makes_scan _ _) fun sc => .look _

theorem makes_insertRows (req : QLInsert) (rows : List (List QLNode)) (count : Nat) :
    Makes (insertRows req rows count : Call σ (Except Bytes Nat)) := by
  induction rows generalizing count with
  | nil => exact .answer _
  | cons values rows ih =>
      rw [insertRows]
      split
      · exact .answer _
      · exact .andThen (.answer _) fun vals => .andThen (makes_write _ _ _) fun _ => ih _

theorem makes_updateRows (req : QLUpdate) (rows : List Record) (count : Nat) :
    Makes (updateRows req rows count : Call σ (Except Bytes Nat)) := by
  induction rows generalizing count with
  | nil => exact .answer _
  | cons row rows ih =>
      rw [updateRows]
      refine .andThen (.answer _) fun next => .andThen (.compute _) fun row => ?_
      exact .andThen (makes_write .updateOnly _ _) fun _ => ih _

theorem makes_deleteRows (req : QLDelete) (pk : List Bytes) (rows : List Record) (count : Nat) :
    Makes (deleteRows req pk rows count : Call σ (Answer Nat)) := by
  induction rows generalizing count with
  | nil => exact .answer _
  | cons row rows ih =>
      rw [deleteRows]
      exact .andThen (.answer _) fun key => .andThen (makes_del _ _) fun _ => ih _

/-- **A statement that makes no table** is made of calls on tables. -/
theorem makes_qlExec (fuel : Nat) (stmt : QLStatement) (hno : ∀ req, stmt ≠ .createTable req) :
    Makes (qlExec fuel stmt : Call σ (Answer QLResult)) := by
  cases stmt with
  | createTable req => exact absurd rfl (hno req)
  | select req =>
      refine .andThen ?_ fun rows => .answer _
      unfold qlSelect TableTx.selectRows
      exact .andThen (makes_scanRows _ _) fun rows => .look _
  | insert req => exact .andThen (makes_insertRows _ _ _) fun count => .answer _
  | update req =>
      refine .andThen (.andThen (makes_tableDef _) fun tdef => .andThen (.answer _) fun _ => ?_)
        fun count => .answer _
      exact .andThen (makes_scanRows _ _) fun rows => makes_updateRows _ _ _
  | delete req =>
      refine .andThen (.andThen (makes_tableDef _) fun tdef => ?_) fun count => .answer _
      exact .andThen (makes_scanRows _ _) fun rows => makes_deleteRows _ _ _ _

end Made

end DBTX

/-! ## On a database -/

/-- What a call leaves stands for some bindings. -/
theorem World.Inv.called {db : DB} {pages : Nat → Multiset Nat} (h : db.world.Inv pages) {tx : KVTX}
    {map : Contents} (hst : db.world.stage = .running tx map) {tx' : DBTX (FreeList TxPages)}
    {op : DBOp} {r : Except String DBReply}
    (hcall : DBTX.call op (db.session tx) = .ok (r, tx')) :
    ∃ map', tx'.tree.Readable map' := by
  have hstage := h.stage
  rw [hst] at hstage
  obtain ⟨b, hbegan, _, ps, ht⟩ := hstage
  have hI : LawfulPages (TxOwns b) Stops := (TxPages.lawful hbegan.sound).stops
  have hdoes := DBTX.call_does hI (show (db.session tx).tree.Denotes _ map ps from ht) op
  unfold DBTX.Does at hdoes
  rw [hcall] at hdoes
  obtain ⟨map', _, hden, _⟩ := hdoes
  exact ⟨map', hden.readable hI⟩

namespace DB

/-- The database with what calls on tables left of the write transaction. -/
def left (db : DB) (tx : KVTX) (tx' : DBTX (FreeList TxPages)) (map' : Contents) : DB :=
  { db with
    world := { db.world with stage := .running { tx with tree := tx'.tree } map' }
    catalog := tx'.catalog
    createdTable := tx'.createdTable }

variable {db : DB} {tx : KVTX} {map map' : Contents}
  {tx' : DBTX (FreeList TxPages)}

theorem left_session (hst : db.world.stage = .running tx map) : db.left tx (db.session tx) map = db := by
  show { db with world := { db.world with stage := Stage.running tx map } } = db
  rw [← hst]

/-- A call on a table gives out no space and makes no definition. -/
theorem called_left {op : DBOp} (hop : op.missing ≠ none) (r : Except String DBReply) :
    db.called tx map op r tx' map' = db.left tx tx' map' := by
  have hdefs : newDefs op r map = [] := by
    cases op with
    | tableNew => exact absurd rfl hop
    | _ => rfl
  unfold called left
  rw [given_of_missing hop, hdefs, Nat.add_zero, List.append_nil]

/-- **Calls on tables are steps of the database.** -/
theorem Calls.made (hr : Reachable DBOp.Proper db) (hst : db.world.stage = .running tx map)
    (h : (db.session tx).Made tx') :
    ∃ map', tx'.tree.Readable map' ∧ Calls DBOp.Proper db (db.left tx tx' map') := by
  induction h with
  | refl =>
      obtain ⟨pages, hinv⟩ := hr.world
      refine ⟨map, hinv.running_readable hst, ?_⟩
      rw [left_session hst]
      exact .refl
  | @call tx1 tx2 op r _ hop hcall ih =>
      obtain ⟨map1, _, hcalls⟩ := ih
      obtain ⟨pages, hinv⟩ := (hcalls.reachable hr).world
      obtain ⟨map2, hread⟩ := hinv.called rfl hcall
      have hnext := Calls.call hcalls rfl (DBOp.proper_of_missing hop) hcall hread
      rw [called_left hop] at hnext
      exact ⟨map2, hread, hnext⟩

end DB

end SqlDb
