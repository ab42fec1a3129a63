import SqlDb.Db.TableMaps
import SqlDb.Ql.Select

/-!
# Statements act on what they selected

The rows are read before the first of them is written, so what a statement changes is
decided by the table it found. Each write changes one row of the map and leaves the rows
that are still to come as they were read, their primary keys being others.
-/

namespace SqlDb

open Outcome OrdMap

/-! ## Rows that change -/

/-- The selected rows are as `new` says, the others as they were. -/
structure Rows.Changed (S : List (List Value)) (new : List Value → Option (List Value) → Prop)
    (rows rows' : Rows) : Prop where
  selected : ∀ pk row, rows pk = some row → row ∈ S → new row (rows' pk)
  other : ∀ pk, (∀ row, rows pk = some row → row ∉ S) → rows' pk = rows pk

section Changed

variable {rows rows' : Rows} {S : List (List Value)} {new : List Value → Option (List Value) → Prop}

/-- The other rows are still there. -/
theorem Rows.still {pk row : List Value} {x : Option (List Value)} (hrow : rows pk = some row)
    (hnot : row ∉ S) (hS : ∀ r ∈ S, ∃ q, rows q = some r) :
    ∀ r ∈ S, ∃ q, Function.update rows pk x q = some r := by
  intro r hr
  obtain ⟨q, hq⟩ := hS r hr
  refine ⟨q, ?_⟩
  rw [Function.update_of_ne, hq]
  rintro rfl
  rw [hrow, Option.some.injEq] at hq
  exact hnot (hq ▸ hr)

theorem Rows.Changed.nil : Rows.Changed [] new rows rows :=
  ⟨fun _ _ _ h => absurd h List.not_mem_nil, fun _ _ => rfl⟩

/-- **One row, and then the rest.** -/
theorem Rows.Changed.cons {pk row : List Value} {x : Option (List Value)}
    (hrow : rows pk = some row) (hkey : ∀ pk', rows pk' = some row → pk' = pk) (hnew : new row x)
    (hx : ∀ row', x = some row' → row' ∉ S) (hS : row ∉ S)
    (h : Rows.Changed S new (Function.update rows pk x) rows') :
    Rows.Changed (row :: S) new rows rows' := by
  have hpk : rows' pk = x := by
    rw [h.other pk (by rw [Function.update_self]; exact hx), Function.update_self]
  refine ⟨fun pk' row' hrow' hmem => ?_, fun pk' hno => ?_⟩
  · rcases List.mem_cons.mp hmem with rfl | hmem
    · rw [hkey pk' hrow', hpk]
      exact hnew
    · have hne : pk' ≠ pk := by
        rintro rfl
        rw [hrow, Option.some.injEq] at hrow'
        exact hS (hrow' ▸ hmem)
      exact h.selected pk' row' (by rw [Function.update_of_ne hne, hrow']) hmem
  · have hne : pk' ≠ pk := by
      rintro rfl
      exact hno row hrow List.mem_cons_self
    rw [h.other pk' ?_, Function.update_of_ne hne]
    intro row' hrow'
    rw [Function.update_of_ne hne] at hrow'
    exact fun hmem => hno row' hrow' (List.mem_cons_of_mem _ hmem)

/-- What the first row becomes has its key, so it is none of the rest. -/
theorem Rows.Changed.row {tdef : TableDef} {pk row : List Value} {x : Option (List Value)}
    (hfit : rows.Fit tdef) (hrow : rows pk = some row) (hnew : new row x)
    (hx : ∀ row', x = some row' → row'.take tdef.npkeys = pk) (hnot : row ∉ S)
    (hS : ∀ row' ∈ S, ∃ q, rows q = some row')
    (h : Rows.Changed S new (Function.update rows pk x) rows') :
    Rows.Changed (row :: S) new rows rows' := by
  refine h.cons hrow (fun q hq => ?_) hnew (fun row' he hmem => ?_) hnot
  · rw [hfit.key hq, hfit.key hrow]
  · obtain ⟨q, hq⟩ := hS row' hmem
    rw [hfit.key hq, hx row' he, hrow] at hq
    exact hnot (Option.some.inj hq ▸ hmem)

end Changed

/-! ## Assignments -/

/-- The row after the statement's assignments, all of the row as it was. The last one to a column
counts. -/
structure QLUpdate.Assigned (req : QLUpdate) (tdef : TableDef) (row row' : List Value) : Prop where
  length : row'.length = row.length
  set : ∀ (i : Nat) name, req.names[i]? = some name → (∀ j, i < j → req.names[j]? ≠ some name) →
    ∃ expr v, req.values[i]? = some expr ∧ qlEval expr (.ofCols tdef.cols row) = .ok v ∧
      cellAt tdef.cols row' name = some v
  other : ∀ col, col ∉ req.names → cellAt tdef.cols row' col = cellAt tdef.cols row col

section Assign

variable {cols : List Bytes} {row : List Value}

/-- A cell that is given a value, in the list of values. -/
theorem setCell_zip {name : Bytes} (hmem : name ∈ cols) (hlen : cols.length = row.length)
    (v : Value) : ∃ row', setCell name v (cols.zip row) = cols.zip row' ∧ row'.length = row.length ∧
      cellAt cols row' name = some v ∧
      ∀ col, col ≠ name → cellAt cols row' col = cellAt cols row col := by
  induction cols generalizing row with
  | nil => cases hmem
  | cons c cols ih =>
      cases row with
      | nil => cases hlen
      | cons w row =>
          rw [List.zip_cons_cons, setCell]
          by_cases hc : c = name
          · rw [if_pos hc]
            refine ⟨v :: row, ?_, rfl, ?_, fun col hcol => ?_⟩
            · rw [List.zip_cons_cons, hc]
            · rw [cellAt_cons, if_pos hc]
            · rw [cellAt_cons, cellAt_cons, if_neg (hc ▸ Ne.symm hcol), if_neg (hc ▸ Ne.symm hcol)]
          · rw [if_neg hc]
            obtain ⟨row', hset, hlen', hname, hother⟩ :=
              ih ((List.mem_cons.mp hmem).resolve_left (Ne.symm hc)) (by simpa using hlen)
            refine ⟨w :: row', ?_, ?_, ?_, fun col hcol => ?_⟩
            · rw [hset, List.zip_cons_cons]
            · rw [List.length_cons, hlen', List.length_cons]
            · rw [cellAt_cons, if_neg hc, hname]
            · rw [cellAt_cons, cellAt_cons, hother col hcol]

/-- **Assignments in order**: the last one to a column counts. -/
theorem assign_ofCols {names : List Bytes} {next : List Value} {rec : Record}
    (hnames : ∀ name ∈ names, name ∈ cols) (hlen : cols.length = row.length)
    (h : assign names next (.ofCols cols row) = .ok rec) :
    ∃ row', rec = .ofCols cols row' ∧ row'.length = row.length ∧
      (∀ (i : Nat) name, names[i]? = some name → (∀ j, i < j → names[j]? ≠ some name) →
        ∃ v, next[i]? = some v ∧ cellAt cols row' name = some v) ∧
      ∀ col, col ∉ names → cellAt cols row' col = cellAt cols row col := by
  induction names generalizing next row with
  | nil =>
      rw [assign] at h
      refine ⟨row, (Except.ok.inj h).symm, rfl, fun i name hi => ?_, fun _ _ => rfl⟩
      cases hi
  | cons name names ih =>
      obtain ⟨hname, hnames⟩ := List.forall_mem_cons.mp hnames
      cases next with
      | nil =>
          rw [assign, if_pos (by rw [Record.cols_ofCols hlen]; exact hname)] at h
          cases h
      | cons v next =>
          rw [assign] at h
          obtain ⟨row1, hset, hlen1, hv, hother1⟩ := setCell_zip hname hlen v
          rw [Record.ofCols, hset] at h
          obtain ⟨row', hrec, hlen', hlast, hother⟩ := ih hnames (hlen.trans hlen1.symm) h
          refine ⟨row', hrec, hlen'.trans hlen1, fun i col hi hno => ?_, fun col hcol => ?_⟩
          · cases i with
            | zero =>
                -- no later assignment is to this column
                obtain rfl : name = col := Option.some.inj hi
                refine ⟨v, rfl, ?_⟩
                rw [hother name fun hmem => ?_, hv]
                obtain ⟨j, hj⟩ := List.mem_iff_getElem?.mp hmem
                exact hno (j + 1) (Nat.succ_pos j) hj
            | succ i => exact hlast i col hi fun j hj => hno (j + 1) (Nat.succ_lt_succ hj)
          · rw [hother col fun hmem => hcol (List.mem_cons_of_mem _ hmem)]
            exact hother1 col fun he => hcol (he ▸ List.mem_cons_self)

/-- The values are those of the expressions. -/
theorem evalValues_get {rec : Record} {values : List QLNode} {next : List Value}
    (h : evalValues rec values = .ok next) {i : Nat} {v : Value} (hi : next[i]? = some v) :
    ∃ expr, values[i]? = some expr ∧ qlEval expr rec = .ok v := by
  induction values generalizing next i with
  | nil =>
      rw [← Except.ok.inj h] at hi
      cases hi
  | cons expr values ih =>
      obtain ⟨w, hw, h⟩ := bind_eq_ok.mp h
      obtain ⟨next', hnext, h⟩ := bind_eq_ok.mp h
      rw [← Except.ok.inj h] at hi
      cases i with
      | zero =>
          obtain rfl : w = v := Option.some.inj hi
          exact ⟨expr, rfl, hw⟩
      | succ i => exact ih hnext hi

/-- The loops over SET make a row as assigned. -/
theorem assigned_of_assign {req : QLUpdate} {tdef : TableDef} {next : List Value} {rec : Record}
    (hnames : ∀ name ∈ req.names, name ∈ tdef.cols) (hlen : tdef.cols.length = row.length)
    (hnext : evalValues (.ofCols tdef.cols row) req.values = .ok next)
    (h : assign req.names next (.ofCols tdef.cols row) = .ok rec) :
    ∃ row', rec = .ofCols tdef.cols row' ∧ req.Assigned tdef row row' := by
  obtain ⟨row', hrec, hlen', hset, hother⟩ := assign_ofCols hnames hlen h
  refine ⟨row', hrec, hlen', fun i name hi hlast => ?_, hother⟩
  obtain ⟨v, hv, hcell⟩ := hset i name hi hlast
  obtain ⟨expr, hexpr, heval⟩ := evalValues_get hnext hv
  exact ⟨expr, v, hexpr, heval, hcell⟩

/-- A row keeps its primary key, as no assignment is to a column of it. -/
theorem QLUpdate.Assigned.key {req : QLUpdate} {tdef : TableDef} {row row' : List Value}
    (h : req.Assigned tdef row row') (hs : tdef.Sound) (hlen : tdef.cols.length = row.length)
    (hnames : ∀ name ∈ req.names, name ∈ tdef.cols ∧ name ∉ tdef.keyCols) :
    row'.take tdef.npkeys = row.take tdef.npkeys := by
  rw [← hs.pick_key hlen, ← hs.pick_key (hlen.trans h.length.symm)]
  exact List.map_congr_left fun col hcol => by
    rw [h.other col fun hmem => (hnames col hmem).2 hcol]

/-- The names are columns, and not of the primary key. -/
theorem checkNames_ok {tdef : TableDef} {names : List Bytes}
    (h : checkNames tdef names = .ok ()) :
    ∀ name ∈ names, name ∈ tdef.cols ∧ name ∉ tdef.keyCols := by
  induction names with
  | nil => exact fun _ hmem => absurd hmem List.not_mem_nil
  | cons name names ih =>
      rw [checkNames] at h
      cases hi : colIndex tdef name with
      | none =>
          rw [hi] at h
          cases h
      | some i =>
          rw [hi] at h
          dsimp only at h
          by_cases hpk : (i : Int) < tdef.pkeys
          · rw [if_pos hpk] at h
            cases h
          · rw [if_neg hpk] at h
            refine List.forall_mem_cons.mpr ⟨⟨?_, fun hmem => ?_⟩, ih h⟩
            · exact colIndex_ne_none.mp (by rw [hi]; exact Option.some_ne_none i)
            · -- a name of the key is found before the key's end
              obtain ⟨j, hj⟩ := List.mem_iff_getElem?.mp hmem
              have hlt : j < tdef.npkeys := by
                have := (List.getElem?_eq_some_iff.mp hj).1
                rw [TableDef.keyCols, List.length_take] at this
                omega
              rw [TableDef.keyCols, List.getElem?_take, if_pos hlt] at hj
              have hle : i ≤ j := by
                obtain ⟨hlt', _, hmin⟩ := List.findIdx?_eq_some_iff_getElem.mp hi
                by_contra hgt
                obtain ⟨hj', hget⟩ := List.getElem?_eq_some_iff.mp hj
                exact hmin j (by omega) (by simpa using hget)
              unfold TableDef.npkeys at hlt
              omega

/-- The primary key columns of a row. -/
theorem primaryKey_cells {pk : List Bytes} {out key : Record}
    (h : primaryKey (.ofCols cols row) pk out = .ok key) :
    key = ⟨out.cells ++ pk.map fun col => (col, (cellAt cols row col).getD .error)⟩ := by
  induction pk generalizing out with
  | nil =>
      rw [← Except.ok.inj h, List.map_nil, List.append_nil]
  | cons col pk ih =>
      rw [primaryKey, get_ofCols] at h
      cases hv : cellAt cols row col with
      | none =>
          rw [hv] at h
          cases h
      | some v =>
          rw [hv] at h
          rw [ih h, Record.add, List.append_assoc, List.map_cons, hv]
          rfl

end Assign

/-! ## Calls in sequence -/

namespace DBTX

open TableTx (answer andThen compute scanRows)

section Inversion

variable {σ α β ε ε' : Type} {tx tx' : DBTX σ}

/-- The first call threw or said no, or the second one was made. -/
theorem andThen_cases {say : ε → ε'} {c : Call σ (Except ε α)} {f : α → Call σ (Except ε' β)}
    {r : Except String (Except ε' β)} (h : andThen say c f tx = .ok (r, tx')) :
    (∃ what, c tx = .ok (.error what, tx') ∧ r = .error what) ∨
      (∃ err, c tx = .ok (.ok (.error err), tx') ∧ r = .ok (.error (say err))) ∨
      ∃ a tx1, c tx = .ok (.ok (.ok a), tx1) ∧ f a tx1 = .ok (r, tx') := by
  unfold andThen at h
  cases hc : c tx with
  | error e =>
      rw [hc] at h
      cases h
  | ok out =>
      obtain ⟨r1, tx1⟩ := out
      rw [hc] at h
      cases r1 with
      | error what =>
          obtain ⟨rfl, rfl⟩ := Prod.mk.inj (Except.ok.inj h)
          exact Or.inl ⟨what, rfl, rfl⟩
      | ok r1 =>
          cases r1 with
          | error err =>
              obtain ⟨rfl, rfl⟩ := Prod.mk.inj (Except.ok.inj h)
              exact Or.inr (Or.inl ⟨err, rfl, rfl⟩)
          | ok a => exact Or.inr (Or.inr ⟨a, tx1, rfl, h⟩)

/-- The first call says no, or the second one returns. -/
theorem andThen_returned {say : ε → ε'} {c : Call σ (Except ε α)} {f : α → Call σ (Except ε' β)}
    {r : Except ε' β} (h : andThen say c f tx = .ok (.ok r, tx')) :
    (∃ err, c tx = .ok (.ok (.error err), tx') ∧ r = .error (say err)) ∨
      ∃ a tx1, c tx = .ok (.ok (.ok a), tx1) ∧ f a tx1 = .ok (.ok r, tx') := by
  rcases andThen_cases h with ⟨_, _, he⟩ | ⟨err, hc, he⟩ | hrest
  · cases he
  · exact Or.inl ⟨err, hc, Except.ok.inj he⟩
  · exact Or.inr hrest

theorem andThen_ok {say : ε → ε'} {c : Call σ (Except ε α)} {f : α → Call σ (Except ε' β)} {b : β}
    (h : andThen say c f tx = .ok (.ok (.ok b), tx')) :
    ∃ a tx1, c tx = .ok (.ok (.ok a), tx1) ∧ f a tx1 = .ok (.ok (.ok b), tx') := by
  rcases andThen_returned h with ⟨_, _, he⟩ | hrest
  · cases he
  · exact hrest

theorem andThen_run {say : ε → ε'} {c : Call σ (Except ε α)} {f : α → Call σ (Except ε' β)} {a : α}
    {tx1 : DBTX σ} (h : c tx = .ok (.ok (.ok a), tx1)) : andThen say c f tx = f a tx1 := by
  unfold andThen
  rw [h]

theorem answer_returned {r r' : Except ε α} (h : answer r tx = .ok (.ok r', tx')) :
    r' = r ∧ tx' = tx := by
  obtain ⟨hr, rfl⟩ := Prod.mk.inj (Except.ok.inj h)
  exact ⟨(Except.ok.inj hr).symm, rfl⟩

theorem answer_ok {r : Except ε α} {a : α} (h : answer r tx = .ok (.ok (.ok a), tx')) :
    r = .ok a ∧ tx' = tx := by
  obtain ⟨hr, htx⟩ := answer_returned h
  exact ⟨hr.symm, htx⟩

/-- A computation never says no. -/
theorem compute_returned [PageManager σ] {r : Except Fault α} {r' : Except ε α}
    (h : compute r tx = .ok (.ok r', tx')) : ∃ a, r = .ok a ∧ r' = .ok a ∧ tx' = tx := by
  cases r with
  | ok a =>
      obtain ⟨hr, rfl⟩ := Prod.mk.inj (Except.ok.inj h)
      exact ⟨a, rfl, (Except.ok.inj hr).symm, rfl⟩
  | error f => cases f <;> cases h

theorem compute_ok [PageManager σ] {r : Except Fault α} {a : α}
    (h : (compute r : Call σ (Except ε α)) tx = .ok (.ok (.ok a), tx')) : r = .ok a ∧ tx' = tx := by
  obtain ⟨_, hr, he, htx⟩ := compute_returned h
  rw [Except.ok.inj he]
  exact ⟨hr, htx⟩

end Inversion

/-- The table is known, and the tree has its rows. -/
structure Holds {σ : Type} [PageManager σ] (I : σ → Multiset Nat → Prop) (tx : DBTX σ)
    (table : Bytes) (tdef : TableDef) (m : Contents) (rows : Rows) : Prop where
  found : tx.catalog.Finds m table tdef
  denotes : ∃ ps, tx.tree.Denotes I m ps
  represents : tdef.Represents m rows

section Calls

variable {σ : Type} [PageManager σ] {I : σ → Multiset Nat → Prop} {tx tx' : DBTX σ} {table : Bytes}
  {tdef : TableDef} {m : Contents} {rows : Rows}

/-- A call on the table that leaves its tree as it was. -/
theorem Holds.look {α ε : Type} {miss : Bytes → ε}
    {f : TableDef → BTree σ → Except Fault (Except ε α)} {a : α} (hI : LawfulPages I Stops)
    (h : Holds I tx table tdef m rows)
    (hcall : onTable table miss (fun tdef => Tx.look (f tdef)) tx = .ok (.ok (.ok a), tx')) :
    f tdef tx.tree = .ok (.ok a) ∧ tx'.tree = tx.tree ∧ Holds I tx' table tdef m rows := by
  obtain ⟨ps, hden⟩ := h.denotes
  obtain ⟨hrun, hcat⟩ := onTable_found h.found (hden.readable hI) hcall
  unfold Tx.look Tx.call at hrun
  beta_reduce at hrun
  cases hf : f tdef tx.tree with
  | error e =>
      rw [hf] at hrun
      cases e <;> cases hrun
  | ok ans =>
      rw [hf] at hrun
      obtain ⟨hr, htree⟩ := Prod.mk.inj (Except.ok.inj hrun)
      refine ⟨congrArg Except.ok (Except.ok.inj hr), htree.symm, ?_, ⟨ps, htree ▸ hden⟩,
        h.represents⟩
      exact Or.inl (by rw [hcat, if_pos rfl])

theorem Holds.tableDef {tdef' : TableDef} (hI : LawfulPages I Stops)
    (h : Holds I tx table tdef m rows) (hcall : tableDef table tx = .ok (.ok (.ok tdef'), tx')) :
    tdef' = tdef ∧ tx'.tree = tx.tree ∧ Holds I tx' table tdef m rows := by
  obtain ⟨hf, htree, h'⟩ := h.look (f := fun tdef _ => .ok (.ok tdef)) hI hcall
  exact ⟨(Except.ok.inj (Except.ok.inj hf)).symm, htree, h'⟩

/-- **A row is updated** in the map. -/
theorem Holds.update {rec : Record} (hI : LawfulPages I Stops) (hs : tdef.Sound)
    (h : Holds I tx table tdef m rows) (hcall : update table rec tx = .ok (.ok (.ok ()), tx')) :
    ∃ row m', rec.Names tdef tdef.cols.length row ∧ tdef.Untouched m m' ∧
      Holds I tx' table tdef m'
        (Function.update rows (row.take tdef.npkeys) (some row)) := by
  obtain ⟨ps, hden⟩ := h.denotes
  obtain ⟨hrun, hcat⟩ := onTable_found h.found (hden.readable hI) hcall
  have hspec := dbUpdate_spec hI not_stops_throws hs h.represents rec .updateOnly tx.tree ps hden
  rw [hrun] at hspec
  obtain ⟨m', ps', hden', huntouched, hans⟩ := hspec
  obtain ⟨hput, hrep', _⟩ := hans _ rfl
  unfold TableDef.put at hput hrep'
  cases hcheck : checkRecord tdef rec tdef.cols.length with
  | error err =>
      rw [hcheck] at hput
      cases hput
  | ok row =>
      rw [hcheck] at hput hrep'
      dsimp only at hput hrep'
      by_cases hallow : UpdateMode.updateOnly.allows (rows (row.take tdef.npkeys)).isSome = true
      · rw [if_pos hallow] at hrep'
        refine ⟨row, m', (checkRecord_eq_ok hs.checked.types).mp hcheck, huntouched,
          Or.inl ?_, ⟨ps', hden'⟩, hrep'⟩
        rw [hcat, if_pos rfl]
      · rw [if_neg hallow] at hput
        cases hput

/-- **A row is deleted** from the map. -/
theorem Holds.del {rec : Record} (hI : LawfulPages I Stops) (hs : tdef.Sound)
    (h : Holds I tx table tdef m rows) (hcall : del table rec tx = .ok (.ok (.ok ()), tx')) :
    ∃ pk m', rec.Names tdef tdef.npkeys pk ∧ tdef.Untouched m m' ∧
      Holds I tx' table tdef m' (Function.update rows pk none) := by
  obtain ⟨ps, hden⟩ := h.denotes
  obtain ⟨hrun, hcat⟩ := onTable_found h.found (hden.readable hI) hcall
  have hspec := dbDelete_spec hI not_stops_throws hs h.represents rec tx.tree ps hden
  rw [hrun] at hspec
  obtain ⟨m', ps', hden', huntouched, hans⟩ := hspec
  obtain ⟨hremove, hrep', _⟩ := hans _ rfl
  unfold TableDef.remove at hremove hrep'
  cases hcheck : checkRecord tdef rec tdef.npkeys with
  | error err =>
      rw [hcheck] at hremove
      cases hremove
  | ok pk =>
      rw [hcheck] at hremove hrep'
      dsimp only at hremove hrep'
      by_cases hsome : (rows pk).isSome = true
      · rw [if_pos hsome] at hrep'
        refine ⟨pk, m', (checkRecord_eq_ok hs.checked.types).mp hcheck, huntouched,
          Or.inl ?_, ⟨ps', hden'⟩, hrep'⟩
        rw [hcat, if_pos rfl]
      · rw [if_neg hsome] at hremove
        cases hremove

/-- **Rows are deleted** one after the other. -/
theorem deleteRows_ok (hI : LawfulPages I Stops) (hs : tdef.Sound) {req : QLDelete}
    (hreq : req.scan.table = table) {S : List (List Value)} {count n : Nat}
    (h : Holds I tx table tdef m rows) (hnodup : S.Nodup) (hS : ∀ row ∈ S, ∃ pk, rows pk = some row)
    (hrun : deleteRows req tdef.keyCols (S.map (Record.ofCols tdef.cols)) count tx =
      .ok (.ok (.ok n), tx')) :
    n = count + S.length ∧ ∃ m' rows', tdef.Untouched m m' ∧ Holds I tx' table tdef m' rows' ∧
      Rows.Changed S (fun _ r => r = none) rows rows' := by
  induction S generalizing tx m rows count with
  | nil =>
      obtain ⟨hn, rfl⟩ := answer_ok hrun
      exact ⟨(Except.ok.inj hn).symm, m, rows, .refl tdef m, h, .nil⟩
  | cons row S ih =>
      obtain ⟨hrow, hS⟩ := List.forall_mem_cons.mp hS
      obtain ⟨hnot, hnodup⟩ := List.nodup_cons.mp hnodup
      obtain ⟨pk, hrow⟩ := hrow
      rw [List.map_cons, deleteRows] at hrun
      obtain ⟨key, tx1, hanswer, hrun1⟩ := andThen_ok hrun
      obtain ⟨hkey, rfl⟩ := answer_ok hanswer
      obtain ⟨_, tx2, hdel, hrun2⟩ := andThen_ok hrun1
      rw [hreq] at hdel
      obtain ⟨pk', m1, hnames, huntouched1, h1⟩ := h.del hI hs hdel
      -- the record names the row's own key
      obtain rfl : pk' = pk := by
        rw [primaryKey_cells hkey, List.nil_append,
          hs.key_cells (h.represents.fit.length hs.checked.types hrow)] at hnames
        rw [h.represents.fit.key hrow]
        exact hnames.unique (h.represents.fit.names_key hs hrow)
      obtain ⟨hn, m', rows', huntouched, h', hchanged⟩ :=
        ih h1 hnodup (Rows.still hrow hnot hS) hrun2
      refine ⟨by rw [hn, List.length_cons]; omega, m', rows', huntouched1.trans huntouched, h', ?_⟩
      exact hchanged.row h.represents.fit hrow rfl (fun _ he => nomatch he) hnot hS

/-- **Rows are updated** one after the other. -/
theorem updateRows_ok (hI : LawfulPages I Stops) (hs : tdef.Sound) {req : QLUpdate}
    (hreq : req.scan.table = table)
    (hnames : ∀ name ∈ req.names, name ∈ tdef.cols ∧ name ∉ tdef.keyCols) {S : List (List Value)}
    {count n : Nat} (h : Holds I tx table tdef m rows) (hnodup : S.Nodup)
    (hS : ∀ row ∈ S, ∃ pk, rows pk = some row)
    (hrun : updateRows req (S.map (Record.ofCols tdef.cols)) count tx = .ok (.ok (.ok n), tx')) :
    n = count + S.length ∧ ∃ m' rows', tdef.Untouched m m' ∧ Holds I tx' table tdef m' rows' ∧
      Rows.Changed S (fun row r => ∃ row', r = some row' ∧ req.Assigned tdef row row') rows
        rows' := by
  induction S generalizing tx m rows count with
  | nil =>
      obtain ⟨hn, rfl⟩ := answer_ok hrun
      exact ⟨(Except.ok.inj hn).symm, m, rows, .refl tdef m, h, .nil⟩
  | cons row S ih =>
      obtain ⟨hrow, hS⟩ := List.forall_mem_cons.mp hS
      obtain ⟨hnot, hnodup⟩ := List.nodup_cons.mp hnodup
      obtain ⟨pk, hrow⟩ := hrow
      have hlen := h.represents.fit.length hs.checked.types hrow
      rw [List.map_cons, updateRows] at hrun
      obtain ⟨next, tx1, hanswer, hrun1⟩ := andThen_ok hrun
      obtain ⟨hnext, rfl⟩ := answer_ok hanswer
      obtain ⟨rec, tx2, hcompute, hrun2⟩ := andThen_ok hrun1
      obtain ⟨hassign, rfl⟩ := compute_ok hcompute
      obtain ⟨row', rfl, hassigned⟩ :=
        assigned_of_assign (fun name hn => (hnames name hn).1) hlen hnext hassign
      have hpk : row'.take tdef.npkeys = pk := by
        rw [h.represents.fit.key hrow]
        exact hassigned.key hs hlen hnames
      obtain ⟨_, tx3, hupdate, hrun3⟩ := andThen_ok hrun2
      rw [hreq] at hupdate
      obtain ⟨row'', m1, hnamed, huntouched1, h1⟩ := h.update hI hs hupdate
      obtain ⟨rfl, _⟩ := (names_ofCols hs (hlen.trans hassigned.length.symm)).mp hnamed
      rw [hpk] at h1
      obtain ⟨hn, m', rows', huntouched, h', hchanged⟩ :=
        ih h1 hnodup (Rows.still hrow hnot hS) hrun3
      refine ⟨by rw [hn, List.length_cons]; omega, m', rows', huntouched1.trans huntouched, h', ?_⟩
      refine hchanged.row h.represents.fit hrow ⟨_, rfl, hassigned⟩ (fun r he => ?_) hnot hS
      rw [← Option.some.inj he]
      exact hpk

/-- **The rows of a statement** are read off the table as it is. -/
theorem scanRows_ok (hI : LawfulPages I Stops) (hs : tdef.Sound) {req : QLScan}
    (hreq : req.table = table) {fuel : Nat} (hfuel : m.length ≤ fuel) {recs : List Record}
    (h : Holds I tx table tdef m rows) (hrun : scanRows fuel req tx = .ok (.ok (.ok recs), tx')) :
    ∃ L, req.Visits tx.tree tdef L ∧ L.Nodup ∧ (∀ row ∈ L, ∃ pk, rows pk = some row) ∧
      (∀ pk row, rows pk = some row → req.kept tdef row = true → row ∈ L) ∧
      recs = (req.selected tdef L).map (Record.ofCols tdef.cols) ∧
      Holds I tx' table tdef m rows := by
  unfold scanRows at hrun
  split at hrun
  · obtain ⟨hr, _⟩ := answer_ok hrun
    cases hr
  · rw [hreq] at hrun
    obtain ⟨tdef', tx1, htable, hrun1⟩ := andThen_ok hrun
    obtain ⟨rfl, htree1, h1⟩ := h.tableDef hI htable
    obtain ⟨range, tx2, hcompute, hrun2⟩ := andThen_ok hrun1
    obtain ⟨hrange, rfl⟩ := compute_ok hcompute
    obtain ⟨sc, tx3, hcall, hrun3⟩ := andThen_ok hrun2
    obtain ⟨hscan, htree3, h3⟩ := h1.look (f := fun tdef t => dbScan t tdef range.req) hI hcall
    obtain ⟨ps, hden⟩ := h1.denotes
    -- the rows of the planned range, each of them once
    obtain ⟨i, L, hat, hlen, hrows, hnodup, hmem, hkept⟩ :=
      QLScan.visits req hs (hden.readable hI) h1.represents hrange hscan
    obtain ⟨r, hloop, hselected, _⟩ := hat.scanLoop req 0 0 hrows
      (hlen.trans hfuel)
    change onTree (Tx.look _) tx3 = _ at hrun3
    unfold onTree Tx.look Tx.call at hrun3
    beta_reduce at hrun3
    rw [htree3, hloop] at hrun3
    obtain ⟨hr, rfl⟩ := Prod.mk.inj (Except.ok.inj hrun3)
    refine ⟨L, ⟨range, sc, hrange, htree1 ▸ hscan, fun fuel hfuel => ?_⟩, hnodup, hmem, hkept,
      (hselected recs (Except.ok.inj hr)).1, ?_⟩
    · rw [← htree1]
      refine hat.collect (List.forall₂_map_right_iff.mpr hrows) ?_
      rw [List.length_map]
      exact hfuel
    · exact ⟨h3.found, ⟨ps, hden⟩, h3.represents⟩

/-! ## The statements -/

/-- What a statement over this scan leaves: the rows it selected, of all those the scan visits, are
as `new` says, and everything else is as it was, in every tree of the table. -/
structure Changes (I : σ → Multiset Nat → Prop) (tx : DBTX σ) (tdef : TableDef) (m : Contents)
    (rows : Rows) (scan : QLScan) (new : List Value → Option (List Value) → Prop) (count : Nat)
    (tx' : DBTX σ) (L : List (List Value)) (m' : Contents) (rows' : Rows) : Prop where
  visits : scan.Visits tx.tree tdef L
  once : L.Nodup
  exist : ∀ row ∈ L, ∃ pk, rows pk = some row
  kept : ∀ pk row, rows pk = some row → scan.kept tdef row = true → row ∈ L
  count : count = (scan.selected tdef L).length
  denotes : ∃ ps', tx'.tree.Denotes I m' ps'
  represents : tdef.Represents m' rows'
  untouched : tdef.Untouched m m'
  changed : Rows.Changed (scan.selected tdef L) new rows rows'

/-- **UPDATE and DELETE act on the rows they selected.** In any transaction in which the table is
found and its indexes agree: a statement that returns changed the rows that its scan of the table as
it was selects, each by the assignments to the row as it was, or took them out; it counts them, it
changed nothing else, and the indexes agree with the rows it leaves. -/
theorem statement_changes_selected (hI : LawfulPages I Stops) (hs : tdef.Sound) {ps : Multiset Nat}
    (hden : tx.tree.Denotes I m ps) (hfound : tx.catalog.Finds m table tdef)
    (hrep : tdef.Represents m rows) {fuel : Nat} (hfuel : m.length ≤ fuel) :
    (∀ (req : QLUpdate) (count : Nat) (tx' : DBTX σ), req.scan.table = table →
      qlUpdate fuel req tx = .ok (.ok (.ok count), tx') → ∃ L m' rows',
        Changes I tx tdef m rows req.scan
          (fun row r => ∃ row', r = some row' ∧ req.Assigned tdef row row') count tx' L m' rows') ∧
    (∀ (req : QLDelete) (count : Nat) (tx' : DBTX σ), req.scan.table = table →
      qlDelete fuel req tx = .ok (.ok (.ok count), tx') → ∃ L m' rows',
        Changes I tx tdef m rows req.scan (fun _ r => r = none) count tx' L m' rows') := by
  have h : Holds I tx table tdef m rows := ⟨hfound, ⟨ps, hden⟩, hrep⟩
  refine ⟨fun req count tx' hreq hrun => ?_, fun req count tx' hreq hrun => ?_⟩
  · obtain ⟨tdef', tx1, htable, hrun1⟩ := andThen_ok hrun
    rw [hreq] at htable
    obtain ⟨rfl, htree, h1⟩ := h.tableDef hI htable
    obtain ⟨_, tx2, hanswer, hrun2⟩ := andThen_ok hrun1
    obtain ⟨hnames, rfl⟩ := answer_ok hanswer
    obtain ⟨recs, tx3, hscan, hrun3⟩ := andThen_ok hrun2
    obtain ⟨L, hvisits, honce, hexist, hkept, rfl, h3⟩ := scanRows_ok hI hs hreq hfuel h1 hscan
    obtain ⟨hcount, m', rows', huntouched, h', hchanged⟩ := updateRows_ok hI hs hreq
      (checkNames_ok hnames) h3 (honce.sublist QLScan.selected_sublist)
      (fun row hrow => hexist row (QLScan.selected_sublist.subset hrow)) hrun3
    exact ⟨L, m', rows', htree ▸ hvisits, honce, hexist, hkept, hcount.trans (Nat.zero_add _),
      h'.denotes, h'.represents, huntouched, hchanged⟩
  · obtain ⟨tdef', tx1, htable, hrun1⟩ := andThen_ok hrun
    rw [hreq] at htable
    obtain ⟨rfl, htree, h1⟩ := h.tableDef hI htable
    obtain ⟨recs, tx2, hscan, hrun2⟩ := andThen_ok hrun1
    obtain ⟨L, hvisits, honce, hexist, hkept, rfl, h2⟩ := scanRows_ok hI hs hreq hfuel h1 hscan
    obtain ⟨hcount, m', rows', huntouched, h', hchanged⟩ := deleteRows_ok hI hs hreq h2
      (honce.sublist QLScan.selected_sublist)
      (fun row hrow => hexist row (QLScan.selected_sublist.subset hrow)) hrun2
    exact ⟨L, m', rows', htree ▸ hvisits, honce, hexist, hkept, hcount.trans (Nat.zero_add _),
      h'.denotes, h'.represents, huntouched, hchanged⟩

/-! ### A row that changes -/

theorem onTable_cached {α ε : Type} {miss : Bytes → ε} {p : TableDef → Tx σ (Except ε α)}
    (hcached : tx.catalog.cache table = some tdef) :
    onTable table miss p tx = onTree (p tdef) tx := by
  unfold onTable findTable
  rw [Catalog.getTableDef_cached hcached]

theorem tableDef_cached (hcached : tx.catalog.cache table = some tdef) :
    DBTX.tableDef table tx = .ok (.ok (.ok tdef), tx) := onTable_cached hcached

omit [PageManager σ] in
theorem onTree_run {α : Type} {p : Tx σ α} {r : Except String α} {tree : BTree σ}
    (h : p tx.tree = .ok (r, tree)) : onTree p tx = .ok (r, { tx with tree := tree }) := by
  unfold onTree
  rw [h]

omit [PageManager σ] in
theorem onTree_look {α : Type} {f : BTree σ → Except Fault α} {a : α} (h : f tx.tree = .ok a) :
    onTree (Tx.look f) tx = .ok (.ok a, tx) := by
  refine onTree_run ?_
  unfold Tx.look Tx.call
  beta_reduce
  rw [h]
  rfl

/-- A scan of a known table returns, if its range fits and WHERE has a value on every row. -/
theorem scanRows_returns (hs : tdef.Sound) (hplain : Plain tdef.types) (hread : tx.tree.Readable m)
    (hrep : tdef.Represents m rows) (hcached : tx.catalog.cache table = some tdef) {req : QLScan}
    (hreq : req.table = table) (hkeys : req.key1 = .uninit ∧ req.key2 = .uninit) {range : QLRange}
    (hrange : qlRange req.filter tdef = .ok range) {indexNo : Option Nat} {p : Nat}
    {cols : List Bytes} (hfits : range.req.Fits tdef indexNo p cols)
    (hdecides : ∀ pk row, rows pk = some row →
      ∃ keep, req.keeps (.ofCols tdef.cols row) = .ok keep)
    {fuel : Nat} (hfuel : m.length ≤ fuel) :
    ∃ recs, scanRows fuel req tx = .ok (.ok (.ok recs), tx) := by
  obtain ⟨sc, hscan, _⟩ := dbScan_plain hs hplain hread hfits
  obtain ⟨i, L, hat, hlen, hrows, _, hexist, _⟩ := QLScan.visits req hs hread hrep hrange hscan
  obtain ⟨r, hloop, _, herr⟩ := hat.scanLoop req 0 0 hrows (hlen.trans hfuel)
  cases r with
  | error err =>
      obtain ⟨row, hrow, hfails⟩ := (herr err rfl).mem
      obtain ⟨pk, hpk⟩ := hexist row hrow
      obtain ⟨keep, hkeep⟩ := hdecides pk row hpk
      rw [hkeep] at hfails
      cases hfails
  | ok recs =>
      refine ⟨recs, ?_⟩
      have hdef : DBTX.tableDef req.table tx = .ok (.ok (.ok tdef), tx) :=
        hreq ▸ tableDef_cached hcached
      have hcompute : (compute (qlRange req.filter tdef) : Call σ (Except Bytes QLRange)) tx =
          .ok (.ok (.ok range), tx) := by
        rw [hrange]
        rfl
      have hsc : DBTX.scan req.table range.req tx = .ok (.ok (.ok sc), tx) := by
        rw [hreq]
        exact (onTable_cached hcached).trans (onTree_look hscan)
      unfold scanRows
      rw [if_neg (by simp [hkeys, QLNode.isUninit])]
      refine (andThen_run hdef).trans ((andThen_run hcompute).trans ((andThen_run hsc).trans ?_))
      exact onTree_look hloop

/-- **Updates of rows that are there** go through while there are page numbers, in a table without
indexes. -/
theorem updateRows_returns (hs : tdef.Sound) (hindexes : tdef.indexes = []) {req : QLUpdate}
    (hreq : req.scan.table = table) {S : List (List Value)}
    (hS : ∀ row ∈ S, ∃ next row', evalValues (.ofCols tdef.cols row) req.values = .ok next ∧
      assign req.names next (.ofCols tdef.cols row) = .ok (.ofCols tdef.cols row') ∧
      row'.take tdef.npkeys = row.take tdef.npkeys ∧ tdef.Typed row' ∧ tdef.Stores row') {n : Nat}
    {count : Nat} (hroomy : Roomy (n + S.length) tx.tree m)
    (hcached : tx.catalog.cache table = some tdef)
    (hthere : ∀ row ∈ S, (lookup m (keyOf tdef.keyPrefix (row.take tdef.npkeys))).isSome = true) :
    ∃ tx', updateRows req (S.map (Record.ofCols tdef.cols)) count tx =
      .ok (.ok (.ok (count + S.length)), tx') := by
  induction S generalizing tx m count with
  | nil => exact ⟨tx, rfl⟩
  | cons row S ih =>
      obtain ⟨⟨next, row', hnext, hassign, hkey, htyped, hstores⟩, hS⟩ := List.forall_mem_cons.mp hS
      obtain ⟨hhere, hthere⟩ := List.forall_mem_cons.mp hthere
      obtain ⟨hencode, hval⟩ := htyped.encode
      have hcheck : checkRecord tdef (.ofCols tdef.cols row') tdef.cols.length = .ok row' :=
        (checkRecord_eq_ok hs.checked.types).mpr
          ((names_ofCols hs (htyped.length hs)).mpr ⟨rfl, htyped.types⟩)
      rw [← hkey] at hhere
      have hgoes : SqlDb.Goes 1 (dbUpdate tdef (.ofCols tdef.cols row') .updateOnly : Tx σ _) m
          (.ok ()) _ := .dbUpdate hcheck hencode hval hindexes hstores.key hstores.val hhere
      obtain ⟨t', hrun, hroomy'⟩ := hgoes (n + S.length) tx.tree hroomy
      have hthere' : ∀ r ∈ S, (lookup (OrdMap.insert m (keyOf tdef.keyPrefix (row'.take tdef.npkeys))
          (encoded (row'.drop tdef.npkeys)))
          (keyOf tdef.keyPrefix (r.take tdef.npkeys))).isSome = true := by
        intro r hr
        rw [lookup_insert_update hroomy.readable.sorted, Function.update_apply]
        split
        · rfl
        · exact hthere r hr
      have hreturns : ∃ tx', updateRows req (S.map (Record.ofCols tdef.cols)) (count + 1)
          { tx with tree := t' } = .ok (.ok (.ok (count + 1 + S.length)), tx') :=
        ih hS hroomy' hcached hthere'
      obtain ⟨tx', hrest⟩ := hreturns
      have heval : (answer (evalValues (.ofCols tdef.cols row) req.values) :
          Call σ (Except Bytes (List Value))) tx = .ok (.ok (.ok next), tx) := by
        rw [hnext]
        rfl
      have hcompute : (compute (assign req.names next (.ofCols tdef.cols row)) :
          Call σ (Except Bytes Record)) tx = .ok (.ok (.ok (.ofCols tdef.cols row')), tx) := by
        rw [hassign]
        rfl
      have hwrite : update req.scan.table (.ofCols tdef.cols row') tx =
          .ok (.ok (.ok ()), { tx with tree := t' }) := by
        rw [hreq]
        exact (onTable_cached hcached).trans (onTree_run hrun)
      refine ⟨tx', ?_⟩
      rw [List.map_cons, updateRows]
      refine (andThen_run heval).trans ((andThen_run hcompute).trans ((andThen_run hwrite).trans ?_))
      rw [hrest, List.length_cons, Nat.add_assoc, Nat.add_comm 1]

end Calls

/-! ## A second table -/

/-- A table of the same columns, without an index. -/
def unindexed : TableDef :=
  { indexed with
    name := .ofString "u"
    indexes := []
    keyPrefix := 5
    indexPrefixes := [] }

theorem unindexed_sound : unindexed.Sound where
  checked := (tableDefCheck_checked (show tableDefCheck unindexed = .ok unindexed by decide)).1
  nodup := by decide
  parallel := rfl
  spaces := by decide
  small := by decide

theorem threeRows_unindexed : ∀ row ∈ threeRows, unindexed.Typed row ∧ unindexed.Stores row := by
  intro row hrow
  have hrows : ∀ row ∈ threeRows, ValidKey (keyOf unindexed.keyPrefix (row.take unindexed.npkeys)) ∧
      ∀ key ∈ unindexed.indexKeys row, ValidKey key := by decide +kernel
  obtain ⟨htyped, hstores⟩ := threeRows_stored row hrow
  obtain ⟨hkey, hindex⟩ := hrows row hrow
  exact ⟨⟨htyped.plain, htyped.types⟩, hkey, hstores.val, hindex⟩

/-- The bindings once both tables have the rows, and the rows of the second. -/
def sixRows : Contents := unindexed.withRows (indexed.withRows [] threeRows) threeRows

def unindexedRows : Rows := unindexed.putRows (fun _ => none) threeRows

theorem unindexedRows_eq_some {pk row : List Value} (h : unindexedRows pk = some row) :
    row ∈ threeRows := by
  rcases (TableDef.putRows_eq_some (by decide)).mp h with ⟨hmem, _⟩ | ⟨he, _⟩
  · exact hmem
  · cases he

/-- The rows go in. -/
theorem roomy_sixRows : ∃ t : BTree (FreeList TxPages), Roomy 2 t sixRows ∧
    unindexed.Represents sixRows unindexedRows := by
  obtain ⟨t₁, _, hroomy₁, _⟩ := Roomy.rows (n := 2 + 3) indexed_sound threeRows_stored (by decide)
    (DB.roomy_begin (n := 11) (by decide)) (TableDef.represents_empty indexed) fun _ _ => rfl
  -- nothing of the first table is in the second one's space
  have hapart : ∀ p ∈ unindexed.spaces, ∀ r ∈ indexed.withRows [] threeRows, ¬ InSpace p r.1 := by
    decide +kernel
  have hempty : unindexed.Represents (indexed.withRows [] threeRows) fun _ => none := by
    refine (TableDef.represents_empty _).congr fun key hkey => lookup_eq_none.mpr fun r hr he => ?_
    obtain ⟨p, hp, hspace⟩ := hkey
    exact hapart p hp r hr (he ▸ hspace)
  obtain ⟨t, _, hroomy, hrep⟩ := Roomy.rows (n := 2) unindexed_sound threeRows_unindexed (by decide)
    hroomy₁ hempty fun _ _ => rfl
  exact ⟨t, hroomy, hrep⟩

/-- A transaction in which the second table is known. -/
def knowsUnindexed (t : BTree (FreeList TxPages)) : DBTX (FreeList TxPages) where
  tree := t
  catalog := ({} : Catalog).remember unindexed.name (some unindexed)

/-- `UPDATE u SET x = v WHERE k > 1` -/
def setX : QLUpdate where
  scan := { table := unindexed.name, filter := .cmp .gt (.sym (.ofString "k")) (.int64 1) }
  names := [.ofString "x"]
  values := [.sym (.ofString "v")]

/-- The range that is planned for it. -/
def aboveOne : QLRange where
  cmp1 := .gt
  key1 := ⟨[(.ofString "k", .int64 1)]⟩

theorem aboveOne_fits : aboveOne.req.Fits unindexed none 5 [.ofString "k"] :=
  ⟨rfl, by decide, rfl, ⟨by decide, by decide⟩, ⟨by decide, by decide⟩⟩

theorem setX_kept : ∀ row ∈ threeRows,
    setX.scan.keeps (.ofCols unindexed.cols row) = .ok (setX.scan.kept unindexed row) := by
  decide +kernel

/-- What it makes of a row. -/
theorem setX_assigns : ∀ row ∈ threeRows,
    evalValues (.ofCols unindexed.cols row) setX.values = .ok ((row.drop 1).take 1) ∧
    assign setX.names ((row.drop 1).take 1) (.ofCols unindexed.cols row) =
      .ok (.ofCols unindexed.cols (row.take 2 ++ (row.drop 1).take 1)) ∧
    (row.take 2 ++ (row.drop 1).take 1).take unindexed.npkeys = row.take unindexed.npkeys ∧
    unindexed.Typed (row.take 2 ++ (row.drop 1).take 1) ∧
    unindexed.Stores (row.take 2 ++ (row.drop 1).take 1) := by
  have hcells : ∀ row ∈ threeRows,
      evalValues (.ofCols unindexed.cols row) setX.values = .ok ((row.drop 1).take 1) ∧
      assign setX.names ((row.drop 1).take 1) (.ofCols unindexed.cols row) =
        .ok (.ofCols unindexed.cols (row.take 2 ++ (row.drop 1).take 1)) ∧
      (row.take 2 ++ (row.drop 1).take 1).take unindexed.npkeys = row.take unindexed.npkeys ∧
      (row.take 2 ++ (row.drop 1).take 1).map Value.type = unindexed.types ∧
      ValidVal (encoded ((row.take 2 ++ (row.drop 1).take 1).drop unindexed.npkeys)) ∧
      unindexed.indexKeys (row.take 2 ++ (row.drop 1).take 1) = [] := by decide +kernel
  intro row hrow
  obtain ⟨hnext, hassign, hkey, htypes, hval, hindex⟩ := hcells row hrow
  refine ⟨hnext, hassign, hkey, ⟨indexed_plain, htypes⟩, ?_, hval, ?_⟩
  · rw [hkey]
    exact (threeRows_unindexed row hrow).2.key
  · rw [hindex]
    exact fun _ h => absurd h List.not_mem_nil

/-- It selects two rows. -/
theorem selected_setX {L : List (List Value)} (honce : L.Nodup)
    (hexist : ∀ row ∈ L, ∃ pk, unindexedRows pk = some row)
    (hkept : ∀ pk row, unindexedRows pk = some row → setX.scan.kept unindexed row = true → row ∈ L) :
    (∀ row ∈ setX.scan.selected unindexed L, row ∈ threeRows) ∧
      (setX.scan.selected unindexed L).length = 2 := by
  have hrows : ∀ row, row ∈ setX.scan.selected unindexed L ↔
      row ∈ threeRows.filter (setX.scan.kept unindexed) := by
    intro row
    rw [QLScan.selected_all (by decide) (by decide), List.mem_filter, List.mem_filter]
    constructor
    · rintro ⟨hrow, hk⟩
      obtain ⟨pk, hpk⟩ := hexist row hrow
      exact ⟨unindexedRows_eq_some hpk, hk⟩
    · rintro ⟨hrow, hk⟩
      exact ⟨hkept _ row ((TableDef.putRows_eq_some (by decide)).mpr (Or.inl ⟨hrow, rfl⟩)) hk, hk⟩
  refine ⟨fun row hrow => (List.mem_filter.mp ((hrows row).mp hrow)).1, ?_⟩
  have hnodup : (threeRows.filter (setX.scan.kept unindexed)).Nodup :=
    (by decide : threeRows.Nodup).filter _
  rw [((List.perm_ext_iff_of_nodup (honce.sublist QLScan.selected_sublist) hnodup).mpr
    hrows).length_eq]
  decide +kernel

/-- Two rows of three are updated. -/
theorem statement_changes_selected_two : ∃ (I : FreeList TxPages → Multiset Nat → Prop)
    (t : BTree (FreeList TxPages)) (tx' : DBTX (FreeList TxPages)),
    qlUpdate 9 setX (knowsUnindexed t) = .ok (.ok (.ok 2), tx') ∧
      ∃ L m' rows', Changes I (knowsUnindexed t) unindexed sixRows unindexedRows setX.scan
        (fun row r => ∃ row', r = some row' ∧ setX.Assigned unindexed row row') 2 tx' L m' rows' := by
  obtain ⟨t, hroomy, hrep⟩ := roomy_sixRows
  have hread := hroomy.readable
  have hlen : sixRows.length ≤ 9 := by decide +kernel
  have hcached : (knowsUnindexed t).catalog.cache unindexed.name = some unindexed := by
    simp [knowsUnindexed, Catalog.remember]
  have hreturns : ∃ recs, scanRows 9 setX.scan (knowsUnindexed t) =
      .ok (.ok (.ok recs), knowsUnindexed t) :=
    scanRows_returns unindexed_sound indexed_plain hread hrep hcached rfl ⟨rfl, rfl⟩
      (show qlRange setX.scan.filter unindexed = .ok aboveOne by decide +kernel) aboveOne_fits
      (fun pk row hrow => ⟨_, setX_kept row (unindexedRows_eq_some hrow)⟩) hlen
  obtain ⟨recs, hscan⟩ := hreturns
  obtain ⟨I, W, c, k, ps, hI, hW, hc, hden, hwithin, hkn⟩ := hroomy
  obtain ⟨L, _, honce, hexist, hkept, hrecs, _⟩ := scanRows_ok hI.stops unindexed_sound rfl hlen
    ⟨Or.inl hcached, ⟨ps, hden⟩, hrep⟩ hscan
  obtain ⟨hmem, htwo⟩ := selected_setX honce hexist hkept
  have hthere : ∀ row ∈ threeRows,
      (lookup sixRows (keyOf unindexed.keyPrefix (row.take unindexed.npkeys))).isSome = true := by
    decide +kernel
  have hupdates : ∃ tx', updateRows setX
      ((setX.scan.selected unindexed L).map (Record.ofCols unindexed.cols)) 0 (knowsUnindexed t) =
        .ok (.ok (.ok (0 + (setX.scan.selected unindexed L).length)), tx') := by
    refine updateRows_returns (n := 0) unindexed_sound rfl rfl (fun row hrow => ?_) ?_ hcached
      fun row hrow => hthere row (hmem row hrow)
    · exact ⟨_, _, setX_assigns row (hmem row hrow)⟩
    · rw [htwo]
      exact ⟨I, W, c, k, ps, hI, hW, hc, hden, hwithin, hkn⟩
  obtain ⟨tx', hupdates⟩ := hupdates
  have hupdate : qlUpdate 9 setX (knowsUnindexed t) = .ok (.ok (.ok 2), tx') := by
    refine (andThen_run (tableDef_cached hcached)).trans ?_
    refine (andThen_run (a := ()) rfl).trans ((andThen_run hscan).trans ?_)
    rw [hrecs, hupdates, htwo]
  exact ⟨I, t, tx', hupdate, (statement_changes_selected hI.stops unindexed_sound hden
    (Or.inl hcached) hrep hlen).1 setX 2 tx' rfl hupdate⟩

end DBTX

end SqlDb
