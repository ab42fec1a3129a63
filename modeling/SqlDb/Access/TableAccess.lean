import SqlDb.Access.Lookup

/-!
# Writing rows

An update writes the row, then takes the old row's keys out of every index and puts the
new row's in. Every index key is asserted to be there before it is taken out, and not to
be there before it is put in. A throw on the way leaves the row half written.
-/

namespace SqlDb

open Outcome OrdMap

/-! ## The code -/

/-- `INDEX_ADD` and `INDEX_DEL` -/
inductive IndexOp where
  | add
  | del
deriving DecidableEq

/-- The values of an index key. -/
def indexValues (rec : Record) : List Bytes → Except Fault (List Value)
  | [] => .ok []
  | col :: cols =>
      match rec.get col with
      | none => .error (.asserts .indexValue)
      | some v => do
          let values ← indexValues rec cols
          return v :: values

section Code

variable {σ : Type} [PageManager σ]

/-- The switch in `index_op`. -/
def indexDone (op : IndexOp) (key : Bytes) : Tx σ Bool :=
  match op with
  | .add => do
      let (done, _) ← Tx.update { key := key, val := [], mode := .insertOnly }
      return done
  | .del => Tx.del key

/-- The loop of `index_op`. -/
def indexOpLoop (rec : Record) (op : IndexOp) : List (List Bytes × Nat) → Tx σ Unit
  | [] => return ()
  | (cols, p) :: indexes => do
      let values ← Tx.lift (indexValues rec cols)
      let key ← Tx.lift (encodeKey p values)
      let done ← indexDone op key
      Tx.assert (done = true) .indexDone
      indexOpLoop rec op indexes

def indexOp (tdef : TableDef) (rec : Record) (op : IndexOp) : Tx σ Unit := do
  Tx.assert (tdef.indexPrefixes.length = tdef.indexes.length) .indexPrefixes
  indexOpLoop rec op (tdef.indexes.zip tdef.indexPrefixes)

/-- What an update does to the indexes, once the row is written. -/
def updateIndexes (tdef : TableDef) (rec : Record) (key : Bytes) (req : InsertReq) : Tx σ Unit := do
  if req.added then
    indexOp tdef rec .add
  else
    let old ← Tx.lift (decodeRow tdef key req.old)
    indexOp tdef old .del
    indexOp tdef rec .add

def dbUpdate (tdef : TableDef) (rec : Record) (mode : UpdateMode) : Tx σ (Except Bytes Unit) :=
  match checkRecord tdef rec tdef.cols.length with
  | .error err => return .error err
  | .ok values => do
      let key ← Tx.lift (encodeKey tdef.keyPrefix (values.take tdef.npkeys))
      let val ← Tx.lift (encodeValues (values.drop tdef.npkeys))
      let (wrote, req) ← Tx.update { key := key, val := val, mode := mode }
      if ¬ wrote then
        return .error (.ofString (if req.added then "row does not exist in table: "
          else "row already exists in table: ") ++ tdef.name)
      else if tdef.indexes = [] then
        return .ok ()
      else
        updateIndexes tdef rec key req
        return .ok ()

def dbDelete (tdef : TableDef) (rec : Record) : Tx σ (Answer Unit) :=
  match checkRecord tdef rec tdef.npkeys with
  | .error err => return .error (some err)
  | .ok pkValues => do
      let key ← Tx.lift (encodeKey tdef.keyPrefix pkValues)
      let (found, req) ← Tx.delete { key := key }
      if ¬ found then
        return .error none
      else if tdef.indexes = [] then
        return .ok ()
      else
        let old ← Tx.lift (decodeRow tdef key req.old)
        indexOp tdef old .del
        return .ok ()

end Code

/-! ## Index keys -/

/-- What a key is before it is put in or taken out. -/
def IndexOp.before (op : IndexOp) (found : Option Bytes) : Prop :=
  match op with
  | .add => found = none
  | .del => found.isSome

/-- What it is bound to after. -/
def IndexOp.after : IndexOp → Option Bytes
  | .add => some []
  | .del => none

/-- The record gives the row's values, in whatever order. -/
def Record.Shows (rec : Record) (tdef : TableDef) (row : List Value) : Prop :=
  ∀ col ∈ tdef.cols, rec.get col = some ((cellAt tdef.cols row col).getD .error)

/-- The row's keys in some indexes. -/
def TableDef.keysIn (tdef : TableDef) (row : List Value) (indexes : List (List Bytes × Nat)) :
    List Bytes :=
  indexes.map fun index => keyOf index.2 (tdef.pick row index.1)

theorem Record.Names.shows {rec : Record} {tdef : TableDef} {row : List Value}
    (h : rec.Names tdef tdef.cols.length row) (hd : tdef.cols.Nodup) : rec.Shows tdef row := by
  have hcells := h.cells
  rw [List.take_length] at hcells
  have hlen : tdef.cols.length = row.length := by
    have := congrArg List.length hcells
    rwa [List.length_map, List.length_map] at this
  rw [← map_cellAt hd hlen] at hcells
  intro col hcol
  obtain ⟨v, hv⟩ := Option.isSome_iff_exists.mp
    ((cellAt_isSome (le_of_eq hlen)).mpr hcol)
  rw [List.map_inj_left.mp hcells col hcol, hv]
  rfl

theorem shows_ofCols {tdef : TableDef} {row : List Value} (hlen : tdef.cols.length = row.length) :
    (Record.ofCols tdef.cols row).Shows tdef row := by
  intro col hcol
  obtain ⟨v, hv⟩ := Option.isSome_iff_exists.mp
    ((cellAt_isSome (le_of_eq hlen)).mpr hcol)
  rw [get_ofCols, hv]
  rfl

/-- A row's own record names a row of the table exactly if the types are right, and then that row. -/
theorem names_ofCols {tdef : TableDef} (hs : tdef.Sound) {row row' : List Value}
    (hlen : tdef.cols.length = row.length) :
    (Record.ofCols tdef.cols row).Names tdef tdef.cols.length row' ↔
      row' = row ∧ row.map Value.type = tdef.types := by
  have hcells : tdef.cols.map (Record.ofCols tdef.cols row).get = row.map some := by
    rw [← map_cellAt hs.nodup hlen]
    exact List.map_congr_left fun col _ => get_ofCols _ _ _
  have htypes : tdef.types.take tdef.cols.length = tdef.types := by
    rw [hs.checked.types, List.take_length]
  constructor
  · intro h
    obtain ⟨ht, hc, _⟩ := h
    rw [List.take_length, hcells] at hc
    obtain rfl := List.map_injective_iff.mpr (Option.some_injective _) hc
    exact ⟨rfl, ht.trans htypes⟩
  · rintro ⟨rfl, ht⟩
    refine ⟨ht.trans htypes.symm, ?_, ?_⟩
    · rw [List.take_length, hcells]
    · rw [Record.cols_ofCols hlen, List.take_length]
      exact fun col hcol => hcol

theorem indexValues_eq {tdef : TableDef} {rec : Record} {row : List Value}
    (h : rec.Shows tdef row) {cols : List Bytes} (hcols : ∀ col ∈ cols, col ∈ tdef.cols) :
    indexValues rec cols = .ok (tdef.pick row cols) := by
  induction cols with
  | nil => rfl
  | cons col cols ih =>
      obtain ⟨hcol, hcols⟩ := List.forall_mem_cons.mp hcols
      rw [indexValues, h col hcol]
      dsimp only
      rw [ih hcols]
      rfl

section Specs

variable {σ : Type} [PageManager σ] {I : σ → Multiset Nat → Prop} {E : Fault → Prop}
  {m : Contents} (hI : LawfulPages I E) (hE : ∀ what, ¬ E (.throws what))

include hI hE in
/-- **One index key** is put in or taken out, if it was as it should be. -/
theorem indexDone_spec {op : IndexOp} {key : Bytes} (hbefore : op.before (lookup m key)) :
    Spec I E (indexDone op key : Tx σ Bool) m fun r m' =>
      (∀ k, k ≠ key → lookup m' k = lookup m k) ∧
        ∀ done, r = .ok done → done = true ∧ lookup m' key = op.after := by
  refine Spec.of_sorted fun hm => ?_
  cases op with
  | add =>
      -- `add` inserts a key that was free
      have hnone : lookup m key = none := hbefore
      refine Spec.bind (Q := fun r m' => (∀ k, k ≠ key → lookup m' k = lookup m k) ∧
        ∀ out, r = .ok out → out.1 = true ∧ lookup m' key = some [])
        (Spec.update hI hE ?_ ?_ ?_) ?_ ?_
      · intro _ _ _
        refine ⟨fun k hk => lookup_insert_of_ne hm _ hk, fun out he => ?_⟩
        rw [← Except.ok.inj he]
        exact ⟨rfl, lookup_insert_self hm _ _⟩
      · intro _ hno
        rw [hnone] at hno
        cases hno
      · exact ⟨fun _ _ => rfl, fun _ he => nomatch he⟩
      · intro out m' hq
        refine Spec.pure ⟨hq.1, fun done he => ?_⟩
        rw [← Except.ok.inj he]
        exact hq.2 out rfl
      · intro what m' hq
        exact ⟨hq.1, fun _ he => nomatch he⟩
  | del =>
      -- `del` erases a key that was there
      have hsome : (lookup m key).isSome = true := hbefore
      refine Spec.del hI hE ?_ ?_
      · intro _
        refine ⟨fun k hk => lookup_erase_of_ne hm hk, fun done he => ?_⟩
        rw [← Except.ok.inj he]
        exact ⟨hsome, lookup_erase_self m key⟩
      · intro _
        exact ⟨fun _ _ => rfl, fun _ he => nomatch he⟩

include hI hE in
/-- **The loop over the indexes.** -/
theorem indexOpLoop_spec {tdef : TableDef} {rec : Record} {row : List Value} {op : IndexOp}
    (hrec : rec.Shows tdef row) (hrow : row.map Value.type = tdef.types) (hplain : Plain tdef.types)
    (hlen : tdef.cols.length = tdef.types.length) {indexes : List (List Bytes × Nat)}
    (hcols : ∀ index ∈ indexes, ∀ col ∈ index.1, col ∈ tdef.cols)
    (hnodup : (tdef.keysIn row indexes).Nodup)
    (hbefore : ∀ key ∈ tdef.keysIn row indexes, op.before (lookup m key)) :
    Spec I E (indexOpLoop rec op indexes : Tx σ Unit) m fun r m' =>
      (∀ key, key ∉ tdef.keysIn row indexes → lookup m' key = lookup m key) ∧
        (r = .ok () → ∀ key ∈ tdef.keysIn row indexes, lookup m' key = op.after) := by
  induction indexes generalizing m with
  | nil => exact Spec.pure ⟨fun _ _ => rfl, fun _ _ hkey => absurd hkey List.not_mem_nil⟩
  | cons index indexes ih =>
      obtain ⟨cols, p⟩ := index
      obtain ⟨hcols, hrest⟩ := List.forall_mem_cons.mp hcols
      rw [TableDef.keysIn, List.map_cons] at hnodup hbefore ⊢
      obtain ⟨hnot, hnodup⟩ := List.nodup_cons.mp hnodup
      obtain ⟨hhere, hbefore⟩ := List.forall_mem_cons.mp hbefore
      have hkey : encodeKey p (tdef.pick row cols) = .ok (keyOf p (tdef.pick row cols)) := by
        refine encodeKey_eq p ?_
        rw [TableDef.type_pick hrow]
        exact TableDef.plain_typesOf hplain hlen hcols
      generalize keyOf p (tdef.pick row cols) = key at hkey hnot hhere ⊢
      rw [indexOpLoop, indexValues_eq hrec hcols]
      refine Spec.bind (Q := fun r m' => r = .ok (tdef.pick row cols) ∧ m = m')
        (Spec.lift hI ⟨rfl, rfl⟩) ?_ ?_
      · rintro _ _ ⟨he, rfl⟩
        rw [Except.ok.inj he, hkey]
        refine Spec.bind (Q := fun r m' => r = .ok key ∧ m = m') (Spec.lift hI ⟨rfl, rfl⟩) ?_ ?_
        · rintro _ _ ⟨he, rfl⟩
          rw [Except.ok.inj he]
          refine Spec.bind (indexDone_spec hI hE hhere) ?_ ?_
          · intro done m' hq
            obtain ⟨hother, hq⟩ := hq
            obtain ⟨hdone, hafter⟩ := hq done rfl
            refine Spec.bind (Q := fun r m'' => r = .ok () ∧ m' = m'')
              (Spec.assert hI hdone ⟨rfl, rfl⟩) ?_ ?_
            · rintro _ _ ⟨_, rfl⟩
              -- the other keys are as they were
              have hkeep : ∀ k ∈ tdef.keysIn row indexes, lookup m' k = lookup m k :=
                fun k hk => hother k fun he => hnot (he ▸ hk)
              refine (ih hrest hnodup fun k hk => by
                rw [hkeep k hk]
                exact hbefore k hk).imp fun r m'' hloop => ?_
              refine ⟨fun k hk => ?_, fun hr k hk => ?_⟩
              · obtain ⟨hne, hk⟩ := not_or.mp (fun h => hk (List.mem_cons.mpr h))
                rw [hloop.1 k hk, hother k hne]
              · rcases List.mem_cons.mp hk with rfl | hk
                · rw [hloop.1 k hnot, hafter]
                · exact hloop.2 hr k hk
            · rintro what m'' ⟨he, _⟩
              cases he
          · intro what m' hq
            refine ⟨fun k hk => hq.1 k fun he => hk (he ▸ List.mem_cons_self), fun he => nomatch he⟩
        · rintro what m' ⟨he, _⟩
          cases he
      · rintro what m' ⟨he, _⟩
        cases he

/-- The row's index keys. -/
def TableDef.indexKeys (tdef : TableDef) (row : List Value) : List Bytes :=
  tdef.keysIn row (tdef.indexes.zip tdef.indexPrefixes)

theorem TableDef.Sound.nodup_indexKeys {tdef : TableDef} (hs : tdef.Sound) (row : List Value) :
    (tdef.indexKeys row).Nodup := by
  have hprefixes : ((tdef.indexes.zip tdef.indexPrefixes).map Prod.snd).Nodup := by
    rw [List.map_snd_zip (le_of_eq hs.parallel)]
    exact (List.nodup_cons.mp hs.spaces).2
  have hsmall : ∀ index ∈ tdef.indexes.zip tdef.indexPrefixes, index.2 < 2 ^ 32 := fun index h =>
    hs.small _ (List.mem_cons_of_mem _ (List.of_mem_zip h).2)
  unfold indexKeys keysIn
  rw [List.nodup_map_iff_inj_on (List.Nodup.of_map _ hprefixes)]
  intro a ha b hb he
  refine List.inj_on_of_nodup_map hprefixes ha hb ?_
  have hb' := inSpace_keyOf b.2 (tdef.pick row b.1)
  rw [← he] at hb'
  exact InSpace.unique (hsmall a ha) (hsmall b hb) (inSpace_keyOf _ _) hb'

include hI hE in
/-- **`index_op`** puts the row's key in every index, or takes it out. -/
theorem indexOp_spec {tdef : TableDef} (hs : tdef.Sound) (hplain : Plain tdef.types) {rec : Record}
    {row : List Value} {op : IndexOp} (hrec : rec.Shows tdef row)
    (hrow : row.map Value.type = tdef.types)
    (hbefore : ∀ key ∈ tdef.indexKeys row, op.before (lookup m key)) :
    Spec I E (indexOp tdef rec op : Tx σ Unit) m fun r m' =>
      (∀ key, key ∉ tdef.indexKeys row → lookup m' key = lookup m key) ∧
        (r = .ok () → ∀ key ∈ tdef.indexKeys row, lookup m' key = op.after) := by
  refine Spec.bind (Q := fun r m' => r = .ok () ∧ m = m') (Spec.assert hI hs.parallel ⟨rfl, rfl⟩) ?_ ?_
  · rintro _ _ ⟨_, rfl⟩
    refine indexOpLoop_spec hI hE hrec hrow hplain hs.checked.types ?_ (hs.nodup_indexKeys row) hbefore
    intro index hindex
    exact (hs.checked.index _ (List.of_mem_zip hindex).1).known
  · rintro what m' ⟨he, _⟩
    cases he

end Specs

end SqlDb
