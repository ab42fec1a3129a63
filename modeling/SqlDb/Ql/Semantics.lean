import SqlDb.Db.Relations
import SqlDb.Ql.Run
import SqlDb.Ql.Statement

/-!
# What statements mean

On relations: no tree, no loop and no plan that is followed. A scan gives the rows that the
filter keeps, in the order of one index, less the OFFSET and up to the LIMIT. What the plan
decides is which index that is, and that a filter may stray from it.

A statement that says no may have written some of its rows, those before the one that it
stopped at, and says of that one what was wrong.
-/

namespace SqlDb

open Outcome

/-! ## Scans -/

/-- OFFSET and LIMIT. -/
def QLScan.cut (req : QLScan) (K : List (List Value)) : List (List Value) :=
  let rest := K.drop req.offset.toInt.toNat
  if 0 ≤ req.limit.toInt then rest.take req.limit.toInt.toNat else rest

/-- The columns that the rows are ordered by: those of the tree that the planned range is in. -/
def QLScan.OrderedBy (req : QLScan) (tdef : TableDef) (cols : List Bytes) : Prop :=
  ∃ range, qlRange req.filter tdef = .ok range ∧ Found tdef range.key1.cols cols

/-- The rows that WHERE keeps, in this order. -/
structure QLScan.Keeps (req : QLScan) (tbl : Table) (cols : List Bytes) (K : List (List Value)) :
    Prop where
  mem : ∀ row, row ∈ K ↔ (∃ pk, tbl.rows pk = some row) ∧ req.kept tbl.tdef row = true
  order : K.Pairwise fun a b => compareValues (tbl.tdef.pick a cols) (tbl.tdef.pick b cols) = .lt

/-- The rows of the planned range, in the order in which the scan comes to them. -/
def QLScan.Reads (req : QLScan) (tbl : Table) (L : List (List Value)) : Prop :=
  ∃ range cols, qlRange req.filter tbl.tdef = .ok range ∧ Found tbl.tdef range.key1.cols cols ∧
    range.req.Lists tbl.tdef tbl.rows cols L

/-- WHERE has a value for all rows of the range, or for so many that the limit ends the scan. -/
def QLScan.Decided (req : QLScan) (tdef : TableDef) (L : List (List Value)) : Prop :=
  ∃ L₁ L₂, L = L₁ ++ L₂ ∧ req.Decides tdef L₁ ∧ (L₂ = [] ∨ req.Full tdef L₁)

/-- The scan comes to a row for which WHERE has no value, this one first. -/
def QLScan.FailsAt (req : QLScan) (tdef : TableDef) (L : List (List Value)) (err : Bytes) : Prop :=
  ∃ L₁ row L₂, L = L₁ ++ row :: L₂ ∧ req.Decides tdef L₁ ∧ ¬ req.Full tdef L₁ ∧
    req.keeps (.ofCols tdef.cols row) = .error err

/-- There is no INDEX BY. -/
def QLScan.Filters (req : QLScan) : Prop := req.key1.isUninit = true ∧ req.key2.isUninit = true

namespace Relations

variable (D : Relations)

/-- The scan selects these rows of its table. -/
structure Scans (req : QLScan) (tbl : Table) (S : List (List Value)) : Prop where
  filters : req.Filters
  table : D req.table = some tbl
  planned : ¬ Strays (req.filter.pins tbl.tdef) tbl.tdef
  decided : ∃ L, req.Reads tbl L ∧ req.Decided tbl.tdef L
  rows : ∃ cols K, req.OrderedBy tbl.tdef cols ∧ req.Keeps tbl cols K ∧ S = req.cut K

/-- Why a scan says no. -/
inductive ScanFails (req : QLScan) : Bytes → Prop where
  | indexBy : ¬ req.Filters → ScanFails req
      (.ofString "INDEX BY is not supported; this query language filters with WHERE")
  | missing : req.Filters → D req.table = none → ScanFails req (DBTX.notFound req.table)
  | strays {tbl : Table} : req.Filters → D req.table = some tbl →
      Strays (req.filter.pins tbl.tdef) tbl.tdef →
      ScanFails req (.ofString "range key columns must be a prefix of the scanned index")
  | keeps {tbl : Table} {L : List (List Value)} {err : Bytes} : req.Filters →
      D req.table = some tbl → ¬ Strays (req.filter.pins tbl.tdef) tbl.tdef → req.Reads tbl L →
      req.FailsAt tbl.tdef L err → ScanFails req err

end Relations

/-! ### A scan does one thing -/

section Unique

variable {D : Relations} {req : QLScan} {tbl tbl' : Table} {tdef : TableDef} {cols : List Bytes}
  {err err' : Bytes} {L L' K K' S S' : List (List Value)}

theorem QLScan.Reads.unique (h : req.Reads tbl L) (h' : req.Reads tbl L') : L = L' := by
  obtain ⟨range, cols, hrange, hfound, hlists⟩ := h
  obtain ⟨range', cols', hrange', hfound', hlists'⟩ := h'
  obtain rfl := Except.ok.inj (hrange.symm.trans hrange')
  obtain rfl := hfound.unique hfound'
  exact hlists.unique hlists'

theorem QLScan.Keeps.unique (h : req.Keeps tbl cols K) (h' : req.Keeps tbl cols K') : K = K' :=
  eq_of_ordered (o := .lt) nofun h.order h'.order fun row => (h.mem row).trans (h'.mem row).symm

theorem QLScan.Full.mono (h : req.Full tdef L) (hsub : L.Sublist L') : req.Full tdef L' :=
  ⟨h.1, h.2.trans_le (hsub.filter _).length_le⟩

/-- Rows with a value before one without are none of the rows from that one on. -/
theorem QLScan.Decides.prefix {L₁ L₂ M₁ M₂ : List (List Value)} {row : List Value}
    (h : req.Decides tdef L₁) (herr : req.keeps (.ofCols tdef.cols row) = .error err)
    (he : L₁ ++ L₂ = M₁ ++ row :: M₂) : ∃ c, M₁ = L₁ ++ c ∧ L₂ = c ++ row :: M₂ := by
  rcases List.append_eq_append_iff.mp he with ⟨c, rfl, rfl⟩ | ⟨c, rfl, hc⟩
  · exact ⟨c, rfl, rfl⟩
  · cases c with
    | nil => exact ⟨[], by rw [List.append_nil, List.append_nil], hc.symm⟩
    | cons r c =>
        obtain ⟨rfl, _⟩ := List.cons.inj hc
        obtain ⟨keep, hkeeps⟩ := h row (List.mem_append_right M₁ List.mem_cons_self)
        rw [herr] at hkeeps
        cases hkeeps

theorem QLScan.Decided.not_fails (h : req.Decided tdef L) : ¬ req.FailsAt tdef L err := by
  obtain ⟨L₁, L₂, rfl, hdecides, hend⟩ := h
  rintro ⟨M₁, row, M₂, he, _, hroom, herr⟩
  obtain ⟨c, rfl, rfl⟩ := hdecides.prefix herr he
  rcases hend with hnil | hfull
  · exact absurd hnil (by simp)
  · exact hroom (hfull.mono (List.sublist_append_left L₁ c))

theorem QLScan.FailsAt.unique (h : req.FailsAt tdef L err) (h' : req.FailsAt tdef L err') :
    err = err' := by
  obtain ⟨L₁, row, L₂, rfl, hdecides, _, herr⟩ := h
  obtain ⟨M₁, row', M₂, he, hdecides', _, herr'⟩ := h'
  obtain ⟨c, rfl, hc⟩ := hdecides.prefix herr' he
  cases c with
  | nil =>
      obtain ⟨rfl, _⟩ := List.cons.inj hc
      exact Except.error.inj (herr.symm.trans herr')
  | cons r c =>
      obtain ⟨rfl, _⟩ := List.cons.inj hc
      obtain ⟨keep, hkeeps⟩ := hdecides' row (List.mem_append_right L₁ List.mem_cons_self)
      rw [herr] at hkeeps
      cases hkeeps

namespace Relations

theorem Scans.unique (h : D.Scans req tbl S) (h' : D.Scans req tbl' S') : tbl = tbl' ∧ S = S' := by
  obtain rfl := Option.some.inj (h.table.symm.trans h'.table)
  obtain ⟨cols, K, ⟨range, hrange, hfound⟩, hkeeps, rfl⟩ := h.rows
  obtain ⟨cols', K', ⟨range', hrange', hfound'⟩, hkeeps', rfl⟩ := h'.rows
  obtain rfl := Except.ok.inj (hrange.symm.trans hrange')
  obtain rfl := hfound.unique hfound'
  exact ⟨rfl, congrArg req.cut (hkeeps.unique hkeeps')⟩

theorem Scans.not_fails (h : D.Scans req tbl S) : ¬ D.ScanFails req err := by
  rintro (hindex | ⟨_, hnone⟩ | ⟨_, htbl, hstrays⟩ | ⟨_, htbl, _, hreads, hfails⟩)
  · exact hindex h.filters
  · exact absurd (hnone.symm.trans h.table) nofun
  · obtain rfl := Option.some.inj (h.table.symm.trans htbl)
    exact h.planned hstrays
  · obtain rfl := Option.some.inj (h.table.symm.trans htbl)
    obtain ⟨L, hreads', hdecided⟩ := h.decided
    obtain rfl := hreads.unique hreads'
    exact hdecided.not_fails hfails

theorem ScanFails.unique (h : D.ScanFails req err) (h' : D.ScanFails req err') : err = err' := by
  cases h with
  | indexBy hindex =>
      cases h' with
      | indexBy => rfl
      | missing hf | strays hf | keeps hf => exact absurd hf hindex
  | missing hf hnone =>
      cases h' with
      | indexBy hindex => exact absurd hf hindex
      | missing => rfl
      | strays _ htbl | keeps _ htbl => exact absurd (hnone.symm.trans htbl) nofun
  | strays hf htbl hstrays =>
      cases h' with
      | indexBy hindex => exact absurd hf hindex
      | missing _ hnone => exact absurd (hnone.symm.trans htbl) nofun
      | strays => rfl
      | keeps _ htbl' hno =>
          obtain rfl := Option.some.inj (htbl.symm.trans htbl')
          exact absurd hstrays hno
  | keeps hf htbl hno hreads hfails =>
      cases h' with
      | indexBy hindex => exact absurd hf hindex
      | missing _ hnone => exact absurd (hnone.symm.trans htbl) nofun
      | strays _ htbl' hstrays =>
          obtain rfl := Option.some.inj (htbl.symm.trans htbl')
          exact absurd hstrays hno
      | keeps _ htbl' _ hreads' hfails' =>
          obtain rfl := Option.some.inj (htbl.symm.trans htbl')
          obtain rfl := hreads.unique hreads'
          exact hfails.unique hfails'

end Relations

end Unique

/-! ## SELECT -/

/-- The cells that an item of the SELECT list gives the output record. -/
inductive ItemCells (row : Record) : NamedExpr → List (Bytes × Value) → Prop where
  | star {name : Bytes} : ItemCells row (name, .star) row.cells
  | value {name : Bytes} {expr : QLNode} {v : Value} : qlEval expr row = .ok v →
      ItemCells row (name, expr) [(name, v)]

/-- The output record of a row. -/
def QLSelect.Outputs (req : QLSelect) (row orec : Record) : Prop :=
  ∃ parts, List.Forall₂ (ItemCells row) (req.names.zip req.output) parts ∧
    orec.cells = parts.flatten

/-- An item has no value for the row, this one first. -/
def QLSelect.FailsOn (req : QLSelect) (row : Record) (err : Bytes) : Prop :=
  ∃ before name expr after parts, req.names.zip req.output = before ++ (name, expr) :: after ∧
    List.Forall₂ (ItemCells row) before parts ∧ expr.isStar = false ∧ qlEval expr row = .error err

/-- What SELECT answers. -/
inductive Relations.Selects (D : Relations) (req : QLSelect) : Except Bytes (List Record) → Prop where
  | rows {tbl : Table} {S : List (List Value)} {orecs : List Record} : D.Scans req.scan tbl S →
      List.Forall₂ (fun row orec => req.Outputs (.ofCols tbl.tdef.cols row) orec) S orecs →
      Selects D req (.ok orecs)
  | scan {err : Bytes} : D.ScanFails req.scan err → Selects D req (.error err)
  | item {tbl : Table} {done rest : List (List Value)} {row : List Value} {err : Bytes} :
      D.Scans req.scan tbl (done ++ row :: rest) →
      (∀ row ∈ done, ∃ orec, req.Outputs (.ofCols tbl.tdef.cols row) orec) →
      req.FailsOn (.ofCols tbl.tdef.cols row) err → Selects D req (.error err)

/-! ## INSERT -/

/-- The same tables, one of them with other rows. -/
def Relations.withRows (D : Relations) (table : Bytes) (rows : Rows) : Relations :=
  Function.update D table ((D table).map fun tbl => { tbl with rows := rows })

/-- The row that a VALUES row gives, in the table's column order. -/
def QLInsert.RowOf (req : QLInsert) (tdef : TableDef) (values : List QLNode) (row : List Value) :
    Prop :=
  values.length = req.names.length ∧ ∃ vals, evalValues {} values = .ok vals ∧
    (Record.ofCols req.names vals).Names tdef tdef.cols.length row

namespace Relations

/-- What the rows of an INSERT leave, one after the other. -/
inductive Wrote (D : Relations) (req : QLInsert) : List (List QLNode) → Relations → Prop where
  | nil : Wrote D req [] D
  | snoc {D' : Relations} {done : List (List QLNode)} {values : List QLNode} {tbl : Table}
      {row : List Value} : Wrote D req done D' → D' req.table = some tbl →
      req.RowOf tbl.tdef values row →
      req.mode.allows (tbl.rows (row.take tbl.tdef.npkeys)).isSome = true →
      Wrote D req (done ++ [values]) (D'.withRows req.table
        (Function.update tbl.rows (row.take tbl.tdef.npkeys) (some row)))

/-- Why a VALUES row is not written. -/
inductive Refuses (D : Relations) (req : QLInsert) (values : List QLNode) : Bytes → Prop where
  | count : values.length ≠ req.names.length →
      Refuses D req values (DBTX.countText values.length req.names.length)
  | value {err : Bytes} : values.length = req.names.length → evalValues {} values = .error err →
      Refuses D req values err
  | missing : values.length = req.names.length → D req.table = none →
      Refuses D req values (DBTX.notFound req.table)
  | row {tbl : Table} {vals : List Value} {err : Bytes} : values.length = req.names.length →
      evalValues {} values = .ok vals → D req.table = some tbl →
      (tbl.tdef.put tbl.rows (.ofCols req.names vals) req.mode).1 = .error err →
      Refuses D req values err

/-- What INSERT answers and leaves. -/
inductive Inserts (D : Relations) (req : QLInsert) : Except Bytes Nat → Relations → Prop where
  | all {D' : Relations} : D.Wrote req req.values D' → Inserts D req (.ok req.values.length) D'
  | stops {D' : Relations} {done rest : List (List QLNode)} {values : List QLNode} {err : Bytes} :
      req.values = done ++ values :: rest → D.Wrote req done D' → D'.Refuses req values err →
      Inserts D req (.error err) D'

end Relations

/-! ## UPDATE -/

/-- The row after the assignments, and it is one of the table. -/
structure QLUpdate.NewRow (req : QLUpdate) (tdef : TableDef) (row row' : List Value) : Prop where
  assigned : req.Assigned tdef row row'
  types : row'.map Value.type = tdef.types

/-- Why a row is not updated: a value that cannot be computed, or one of another type. -/
inductive QLUpdate.Refuses (req : QLUpdate) (tdef : TableDef)
    (row : List Value) : Bytes → Prop where
  | value {err : Bytes} : evalValues (.ofCols tdef.cols row) req.values = .error err →
      Refuses req tdef row err
  | type {row' : List Value} {err : Bytes} : req.Assigned tdef row row' →
      row'.map Value.type ≠ tdef.types →
      checkRecord tdef (.ofCols tdef.cols row') tdef.cols.length = .error err →
      Refuses req tdef row err

/-- What an UPDATE leaves of the rows it came to: they are as assigned, and no other changed. -/
def QLUpdate.Updated (req : QLUpdate) (tbl : Table) (S : List (List Value)) (rows : Rows) : Prop :=
  Rows.Changed S (fun row r => ∃ row', r = some row' ∧ req.NewRow tbl.tdef row row') tbl.rows rows

namespace Relations

/-- What UPDATE answers and leaves. -/
inductive Updates (D : Relations) (req : QLUpdate) : Except Bytes Nat → Relations → Prop where
  | all {tbl : Table} {S : List (List Value)} {rows : Rows} :
      checkNames tbl.tdef req.names = .ok () → D.Scans req.scan tbl S → req.Updated tbl S rows →
      Updates D req (.ok S.length) (D.withRows req.scan.table rows)
  | stops {tbl : Table} {done rest : List (List Value)} {row : List Value} {rows : Rows}
      {err : Bytes} : checkNames tbl.tdef req.names = .ok () →
      D.Scans req.scan tbl (done ++ row :: rest) → req.Updated tbl done rows →
      req.Refuses tbl.tdef row err → Updates D req (.error err) (D.withRows req.scan.table rows)
  | missing : D req.scan.table = none → Updates D req (.error (DBTX.notFound req.scan.table)) D
  | names {tbl : Table} {err : Bytes} : D req.scan.table = some tbl →
      checkNames tbl.tdef req.names = .error err → Updates D req (.error err) D
  | scan {tbl : Table} {err : Bytes} : D req.scan.table = some tbl →
      checkNames tbl.tdef req.names = .ok () → D.ScanFails req.scan err →
        Updates D req (.error err) D

/-! ## DELETE -/

/-- What DELETE answers and leaves: all of its rows are gone, or none. -/
inductive Deletes (D : Relations) (req : QLDelete) : Except Bytes Nat → Relations → Prop where
  | all {tbl : Table} {S : List (List Value)} {rows : Rows} : D.Scans req.scan tbl S →
      Rows.Changed S (fun _ r => r = none) tbl.rows rows →
      Deletes D req (.ok S.length) (D.withRows req.scan.table rows)
  | missing : D req.scan.table = none → Deletes D req (.error (DBTX.notFound req.scan.table)) D
  | scan {tbl : Table} {err : Bytes} : D req.scan.table = some tbl → D.ScanFails req.scan err →
      Deletes D req (.error err) D

end Relations

/-! ## Statements -/

/-- A statement's result, with what it produced. -/
def produced {α : Type} (f : α → QLResult) : Except Bytes α → Answer QLResult
  | .ok a => .ok (f a)
  | .error err => .error (some err)

/-- A table that is made has tidy, different names and types that are stored; SELECT names its
columns. -/
def QLStatement.Proper : QLStatement → Prop
  | .createTable stmt => DBOp.Proper (.tableNew stmt.tdef) ∧ Plain stmt.tdef.types
  | .select stmt => stmt.names.length = stmt.output.length
  | _ => True

/-- **What a statement answers, and what it leaves.** -/
inductive Relations.Exec (D : Relations) : QLStatement → Answer QLResult → Relations → Prop where
  | created {stmt : QLCreateTable} {accepted : TableDef} (first : Nat) :
      D.Accepts stmt.tdef accepted →
      Exec D (.createTable stmt) (.ok {}) (D.add (accepted.numbered first))
  | refused {stmt : QLCreateTable} {err : Bytes} : (∀ accepted, ¬ D.Accepts stmt.tdef accepted) →
      stmt.tdef.Refused (fun name => D name ≠ none) err →
      Exec D (.createTable stmt) (.error (some err)) D
  | select {stmt : QLSelect} {r : Except Bytes (List Record)} : D.Selects stmt r →
      Exec D (.select stmt) (produced (fun rows => { rows := rows }) r) D
  | insert {stmt : QLInsert} {r : Except Bytes Nat} {D' : Relations} : D.Inserts stmt r D' →
      Exec D (.insert stmt) (produced (fun count => { count := count }) r) D'
  | update {stmt : QLUpdate} {r : Except Bytes Nat} {D' : Relations} : D.Updates stmt r D' →
      Exec D (.update stmt) (produced (fun count => { count := count }) r) D'
  | delete {stmt : QLDelete} {r : Except Bytes Nat} {D' : Relations} : D.Deletes stmt r D' →
      Exec D (.delete stmt) (produced (fun count => { count := count }) r) D'

end SqlDb
