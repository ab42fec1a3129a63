import SqlDb.Ql.Reads

/-!
# Statements that write

On a transaction that sees some tables, a statement does to them what it means. Its calls go
one by one to the relations, where a write changes one row; so what is left after any number
of them is known, whether the statement comes to its end or stops half way.
-/

namespace SqlDb

open Outcome OrdMap

/-! ## Relations with other rows -/

namespace Relations

variable {D : Relations} {table : Bytes} {tbl : Table} {rows rows' : Rows}

theorem withRows_self :
    D.withRows table rows table = (D table).map fun tbl => { tbl with rows := rows } :=
  Function.update_self _ _ _

theorem withRows_of_ne {name : Bytes} (h : name ≠ table) : D.withRows table rows name = D name :=
  Function.update_of_ne h _ _

theorem withRows_table (h : D table = some tbl) (rows : Rows) :
    D.withRows table rows table = some { tbl with rows := rows } := by
  rw [withRows_self, h, Option.map_some]

theorem withRows_rows (h : D table = some tbl) : D.withRows table tbl.rows = D := by
  rw [withRows, h, Option.map_some, ← h, Function.update_eq_self]

/-- The rows written last are the ones there are. -/
theorem withRows_withRows : (D.withRows table rows).withRows table rows' = D.withRows table rows' := by
  rw [withRows, withRows_self, Option.map_map]
  unfold withRows
  rw [Function.update_idem]
  rfl

theorem withMaps_update : D.withMaps (Function.update D.maps table rows) = D.withRows table rows := by
  funext name
  by_cases he : name = table
  · rw [he, withRows_self, withMaps]
    simp only [Function.update_self]
  · rw [withRows_of_ne he, withMaps]
    cases h : D name with
    | none => rfl
    | some tbl =>
        rw [Option.map_some]
        simp only [Function.update_of_ne he, maps_of h]

/-! ## Calls on rows, taken apart -/

end Relations

theorem MapStep.defined {defs : Bytes → Option TableDef} {maps maps' : Bytes → Rows} {c : RowCall}
    (h : MapStep defs maps c maps') : defs c.table ≠ none := by
  cases h with
  | written hd | refused hd | deleted hd | absent hd | found hd | missing hd =>
      rw [hd]
      exact Option.some_ne_none _

/-- The table and what is done to a row of it, if a call does that. -/
def DBOp.row? : DBOp → Option (Bytes × RowOp)
  | .get table rec => some (table, .get rec)
  | .insert table rec => some (table, .write .insertOnly rec)
  | .update table rec => some (table, .write .updateOnly rec)
  | .upsert table rec => some (table, .write .upsert rec)
  | .del table rec => some (table, .del rec)
  | _ => none

@[simp] theorem RowOp.row?_call (op : RowOp) (table : Bytes) :
    (op.call table).row? = some (table, op) := by
  cases op with
  | write mode => cases mode <;> rfl
  | _ => rfl

theorem RowOp.call_inj {table table' : Bytes} {op op' : RowOp}
    (h : op.call table = op'.call table') :
    table = table' ∧ op = op' := by
  have hrow := congrArg DBOp.row? h
  rw [row?_call, row?_call] at hrow
  exact Prod.mk.inj (Option.some.inj hrow)

namespace Relations

variable {D D' : Relations} {table : Bytes} {tbl : Table} {reply : DBReply}

/-- On a table that is there, a call on rows is a step of the maps. -/
theorem Call.step {op : RowOp} (h : D.Call (op.call table) reply D') (htbl : D table = some tbl) :
    ∃ maps, MapStep D.defs D.maps ⟨table, op, reply⟩ maps ∧ D' = D.withMaps maps := by
  have hother : ∀ {dbOp}, op.call table = dbOp → ∀ {t answer}, dbOp.missing = some (t, answer) →
      t = table := by
    rintro dbOp rfl t answer ht
    cases op with
    | write mode => cases mode <;> cases ht <;> rfl
    | _ =>
        cases ht
        rfl
  generalize hop : op.call table = dbOp at h
  cases h with
  | missing hnone hmissing =>
      rw [hother hop hmissing, htbl] at hnone
      cases hnone
  | @rows c maps hstep =>
      obtain ⟨rfl, rfl⟩ := RowOp.call_inj hop
      exact ⟨maps, hstep, rfl⟩
  | _ =>
      have hrow := congrArg DBOp.row? hop
      rw [RowOp.row?_call] at hrow
      cases hrow

theorem defs_of (h : D table = some tbl) : D.defs table = some tbl.tdef :=
  defs_eq_some.mpr ⟨tbl, h, rfl⟩

/-- **A write** on a table that is there. -/
theorem Call.write {mode : UpdateMode} {rec : Record} (htbl : D table = some tbl)
    (h : D.Call ((RowOp.write mode rec).call table) reply D') :
    (∃ row, rec.Names tbl.tdef tbl.tdef.cols.length row ∧
      mode.allows (tbl.rows (row.take tbl.tdef.npkeys)).isSome = true ∧ reply = .done (.ok ()) ∧
      D' = D.withRows table (Function.update tbl.rows (row.take tbl.tdef.npkeys) (some row))) ∨
    ∃ err, (∀ row, rec.Names tbl.tdef tbl.tdef.cols.length row →
      mode.allows (tbl.rows (row.take tbl.tdef.npkeys)).isSome = false) ∧
      (tbl.tdef.put tbl.rows rec mode).1 = .error err ∧ reply = .done (.error err) ∧ D' = D := by
  obtain ⟨maps, hstep, rfl⟩ := h.step htbl
  have hmaps := maps_of htbl
  have hd := defs_of htbl
  cases hstep with
  | @written _ tdef _ _ row hd' hnames hallow =>
      obtain rfl := Option.some.inj (hd.symm.trans hd')
      rw [hmaps] at hallow ⊢
      exact Or.inl ⟨row, hnames, hallow, rfl, withMaps_update⟩
  | @refused _ tdef _ _ err hd' hno herr =>
      obtain rfl := Option.some.inj (hd.symm.trans hd')
      rw [hmaps] at hno herr
      exact Or.inr ⟨err, hno, herr, rfl, withMaps_maps D⟩

/-- A write on a table that is not there. -/
theorem Call.write_missing {mode : UpdateMode} {rec : Record} (hnone : D table = none)
    (h : D.Call ((RowOp.write mode rec).call table) reply D') :
    reply = .done (.error (DBTX.notFound table)) ∧ D' = D := by
  generalize hop : (RowOp.write mode rec).call table = dbOp at h
  cases h with
  | missing _ hmissing =>
      rw [← hop] at hmissing
      cases mode <;> cases hmissing <;> exact ⟨rfl, rfl⟩
  | @rows c maps hstep =>
      obtain ⟨rfl, _⟩ := RowOp.call_inj hop
      exact absurd (defs_eq_none.mpr hnone) hstep.defined
  | _ =>
      have hrow := congrArg DBOp.row? hop
      rw [RowOp.row?_call] at hrow
      cases hrow

/-- **A removal** from a table that is there. -/
theorem Call.del {rec : Record} (htbl : D table = some tbl)
    (h : D.Call ((RowOp.del rec).call table) reply D') :
    (∃ pk row, rec.Names tbl.tdef tbl.tdef.npkeys pk ∧ tbl.rows pk = some row ∧
      reply = .deleted (.ok ()) ∧ D' = D.withRows table (Function.update tbl.rows pk none)) ∨
    ∃ err, (∀ pk, rec.Names tbl.tdef tbl.tdef.npkeys pk → tbl.rows pk = none) ∧
      reply = .deleted (.error err) ∧ D' = D := by
  obtain ⟨maps, hstep, rfl⟩ := h.step htbl
  have hmaps := maps_of htbl
  have hd := defs_of htbl
  cases hstep with
  | @deleted _ tdef _ pk row hd' hnames hrow =>
      obtain rfl := Option.some.inj (hd.symm.trans hd')
      rw [hmaps] at hrow ⊢
      exact Or.inl ⟨pk, row, hnames, hrow, rfl, withMaps_update⟩
  | @absent _ tdef _ err hd' hno =>
      obtain rfl := Option.some.inj (hd.symm.trans hd')
      rw [hmaps] at hno
      exact Or.inr ⟨err, hno, rfl, withMaps_maps D⟩

end Relations

/-! ## What a transaction sees -/

namespace DBTX

/-- The transaction's tree stands for these tables, with `n` spaces given out at most, and what is
cached is in it. -/
structure Sees (I : FreeList TxPages → Multiset Nat → Prop) (n : Nat) (tx : DBTX (FreeList TxPages))
    (m : Contents) (D : Relations) : Prop where
  denotes : ∃ ps, tx.tree.Denotes I m ps
  good : tx.catalog.Good m
  coherent : Coherent n m
  stands : Stands m D

section Calls

variable {I : FreeList TxPages → Multiset Nat → Prop} {n : Nat} {tx tx' : DBTX (FreeList TxPages)}
  {m : Contents} {D : Relations}

theorem Sees.serves (h : tx.Sees I n m D) : tx.Serves tx.tree m := ⟨rfl, h.good⟩

theorem Sees.readable (h : tx.Sees I n m D) (hI : LawfulPages I Stops) : tx.tree.Readable m := by
  obtain ⟨ps, hden⟩ := h.denotes
  exact hden.readable hI

/-- Calls that only read leave it so. -/
theorem Sees.looked (h : tx.Sees I n m D) (hs : tx'.Serves tx.tree m) : tx'.Sees I n m D :=
  ⟨hs.1 ▸ h.denotes, hs.2, h.coherent, h.stands⟩

/-- **A call** does to the tables what it means. -/
theorem Sees.call (hI : LawfulPages I Stops) (h : tx.Sees I n m D) {op : DBOp} {reply : DBReply}
    (hproper : op.Proper)
    (hn : ∀ m', tx'.tree.Readable m' → n + DB.given op m m' < 2 ^ 32 - 3)
    (hcall : DBTX.call op tx = .ok (.ok reply, tx')) : ∃ m' D', tx'.tree.Readable m' ∧
      D.Call op reply D' ∧ tx'.Sees I (n + DB.given op m m') m' D' := by
  obtain ⟨ps, hden⟩ := h.denotes
  have hdoes := DBTX.call_does hI hden op
  unfold DBTX.Does at hdoes
  rw [hcall] at hdoes
  obtain ⟨m', ps', hden', heff⟩ := hdoes
  have hread' := hden'.readable hI
  have hn' := hn m' hread'
  have hm := hden.tree.sorted
  obtain ⟨D', hstep, hstands⟩ :=
    h.stands.call hI h.coherent h.good hden hproper hn' hcall hread'
  refine ⟨m', D', hread', hstep, ⟨ps', hden'⟩, ?_, ?_, hstands⟩
  · exact DB.good_call h.coherent (lt_of_le_of_lt (Nat.le_add_right _ _) hn') hm h.good heff
  · exact DB.coherent_call h.coherent hm hproper.1 hn' h.good heff

/-- **A call on the rows of a table** gives out no space. -/
theorem Sees.callRows (hI : LawfulPages I Stops) (h : tx.Sees I n m D) (hn : n < 2 ^ 32 - 3)
    {op : RowOp} {table : Bytes} {reply : DBReply}
    (hcall : DBTX.call (op.call table) tx = .ok (.ok reply, tx')) :
    ∃ m' D', D.Call (op.call table) reply D' ∧ tx'.Sees I n m' D' := by
  have hop := op.call_missing table
  have hgiven := DB.given_of_missing hop m
  obtain ⟨m', D', _, hstep, hsees⟩ :=
    h.call hI (DBOp.proper_of_missing hop) (fun m' _ => by rw [hgiven]; exact hn) hcall
  rw [hgiven, Nat.add_zero] at hsees
  exact ⟨m', D', hstep, hsees⟩

theorem reply_run {σ α : Type} {f : α → DBReply} {c : Call σ α} {tx tx' : DBTX σ} {a : α}
    (h : c tx = .ok (.ok a, tx')) : reply f c tx = .ok (.ok (f a), tx') := by
  unfold reply
  rw [h]

theorem call_write (mode : UpdateMode) (table : Bytes) (rec : Record) :
    (DBTX.call ((RowOp.write mode rec).call table) : Call (FreeList TxPages) DBReply) =
      reply .done (write mode table rec) := by
  cases mode <;> rfl

/-- **A row is written**, or it is refused and nothing changed. -/
theorem Sees.write (hI : LawfulPages I Stops) (h : tx.Sees I n m D) (hn : n < 2 ^ 32 - 3)
    (mode : UpdateMode) {table : Bytes} {tbl : Table} (htbl : D table = some tbl) {rec : Record}
    {r : Except Bytes Unit} (hrun : DBTX.write mode table rec tx = .ok (.ok r, tx')) :
    (r = .ok () ∧ ∃ row m', rec.Names tbl.tdef tbl.tdef.cols.length row ∧
      mode.allows (tbl.rows (row.take tbl.tdef.npkeys)).isSome = true ∧ tx'.Sees I n m'
        (D.withRows table (Function.update tbl.rows (row.take tbl.tdef.npkeys) (some row)))) ∨
    ∃ err m', r = .error err ∧ (∀ row, rec.Names tbl.tdef tbl.tdef.cols.length row →
      mode.allows (tbl.rows (row.take tbl.tdef.npkeys)).isSome = false) ∧
      (tbl.tdef.put tbl.rows rec mode).1 = .error err ∧ tx'.Sees I n m' D := by
  have hcall : DBTX.call ((RowOp.write mode rec).call table) tx = .ok (.ok (.done r), tx') := by
    rw [call_write]
    exact reply_run hrun
  obtain ⟨m', D', hstep, hsees⟩ := h.callRows hI hn hcall
  rcases hstep.write htbl with ⟨row, hnames, hallow, he, rfl⟩ | ⟨err, hno, herr, he, rfl⟩
  · exact Or.inl ⟨DBReply.done.inj he, row, m', hnames, hallow, hsees⟩
  · exact Or.inr ⟨err, m', DBReply.done.inj he, hno, herr, hsees⟩

theorem Sees.write_missing (hI : LawfulPages I Stops) (h : tx.Sees I n m D) (hn : n < 2 ^ 32 - 3)
    {mode : UpdateMode} {table : Bytes} (hnone : D table = none) {rec : Record}
    {r : Except Bytes Unit} (hrun : DBTX.write mode table rec tx = .ok (.ok r, tx')) :
    r = .error (DBTX.notFound table) ∧ ∃ m', tx'.Sees I n m' D := by
  have hcall : DBTX.call ((RowOp.write mode rec).call table) tx = .ok (.ok (.done r), tx') := by
    rw [call_write]
    exact reply_run hrun
  obtain ⟨m', D', hstep, hsees⟩ := h.callRows hI hn hcall
  obtain ⟨he, rfl⟩ := hstep.write_missing hnone
  exact ⟨DBReply.done.inj he, m', hsees⟩

/-- **A row is removed**, or there is none under the key. -/
theorem Sees.del (hI : LawfulPages I Stops) (h : tx.Sees I n m D) (hn : n < 2 ^ 32 - 3)
    {table : Bytes} {tbl : Table} (htbl : D table = some tbl) {rec : Record} {r : Answer Unit}
    (hrun : DBTX.del table rec tx = .ok (.ok r, tx')) :
    (r = .ok () ∧ ∃ pk row m', rec.Names tbl.tdef tbl.tdef.npkeys pk ∧ tbl.rows pk = some row ∧
      tx'.Sees I n m' (D.withRows table (Function.update tbl.rows pk none))) ∨
    ∃ err m', r = .error err ∧ (∀ pk, rec.Names tbl.tdef tbl.tdef.npkeys pk → tbl.rows pk = none) ∧
      tx'.Sees I n m' D := by
  have hcall : DBTX.call ((RowOp.del rec).call table) tx = .ok (.ok (.deleted r), tx') :=
    reply_run hrun
  obtain ⟨m', D', hstep, hsees⟩ := h.callRows hI hn hcall
  rcases hstep.del htbl with ⟨pk, row, hnames, hrow, he, rfl⟩ | ⟨err, hno, he, rfl⟩
  · exact Or.inl ⟨DBReply.deleted.inj he, pk, row, m', hnames, hrow, hsees⟩
  · exact Or.inr ⟨err, m', DBReply.deleted.inj he, hno, hsees⟩

end Calls

end DBTX

end SqlDb
