import SqlDb.Access.TableMap

/-!
# What the table operations do

Each operation, from bindings that represent a table: what it answers, that the bindings
it leaves represent the table as the map's own operation leaves it, and that it changes
nothing outside the table's spaces, even if it throws.
-/

namespace SqlDb

open Outcome OrdMap

/-! ## The map's operations -/

/-- What an update says when the mode does not allow it. -/
def TableDef.refusal (tdef : TableDef) (found : Bool) : Bytes :=
  .ofString (if found then "row already exists in table: " else "row does not exist in table: ") ++
    tdef.name

/-- `db_update` on the map. -/
def TableDef.put (tdef : TableDef) (rows : Rows) (rec : Record) (mode : UpdateMode) :
    Except Bytes Unit × Rows :=
  match checkRecord tdef rec tdef.cols.length with
  | .error err => (.error err, rows)
  | .ok row =>
      let pk := row.take tdef.npkeys
      if mode.allows (rows pk).isSome then (.ok (), Function.update rows pk (some row))
      else (.error (tdef.refusal (rows pk).isSome), rows)

/-- A record that is no row of the table is refused for what is wrong with it. -/
theorem TableDef.put_error {tdef : TableDef} {rows : Rows} {rec : Record} {mode : UpdateMode}
    {err : Bytes} (hno : ∀ row, checkRecord tdef rec tdef.cols.length ≠ .ok row)
    (h : (tdef.put rows rec mode).1 = .error err) :
    checkRecord tdef rec tdef.cols.length = .error err := by
  unfold TableDef.put at h
  cases hcheck : checkRecord tdef rec tdef.cols.length with
  | ok row => exact absurd hcheck (hno row)
  | error err' =>
      rw [hcheck] at h
      exact congrArg Except.error (Except.error.inj h)

/-- `db_delete` on the map. -/
def TableDef.remove (tdef : TableDef) (rows : Rows) (rec : Record) : Answer Unit × Rows :=
  match checkRecord tdef rec tdef.npkeys with
  | .error err => (.error (some err), rows)
  | .ok pk =>
      if (rows pk).isSome then (.ok (), Function.update rows pk none) else (.error none, rows)

section Specs

variable {σ : Type} [PageManager σ] {I : σ → Multiset Nat → Prop} {E : Fault → Prop}
  {m m' : Contents} {tdef : TableDef} {rows : Rows}

namespace TableDef

theorem Untouched.refl (tdef : TableDef) (m : Contents) : tdef.Untouched m m := fun _ _ => rfl

theorem Untouched.trans {m'' : Contents} (h : tdef.Untouched m m') (h' : tdef.Untouched m' m'') :
    tdef.Untouched m m'' := fun key hk => (h' key hk).trans (h key hk)

theorem Untouched.update {key val : Bytes} (hm : Sorted m) (ho : tdef.Owns key) :
    tdef.Untouched m (OrdMap.insert m key val) := fun _ hk =>
  lookup_insert_of_ne hm val fun he => hk (he ▸ ho)

theorem Untouched.erase {key : Bytes} (hm : Sorted m) (ho : tdef.Owns key) :
    tdef.Untouched m (OrdMap.erase m key) := fun _ hk =>
  lookup_erase_of_ne hm fun he => hk (he ▸ ho)

theorem owns_keyOf (tdef : TableDef) (values : List Value) :
    tdef.Owns (keyOf tdef.keyPrefix values) := ⟨_, List.mem_cons_self, inSpace_keyOf _ _⟩

/-- The row's own key is in none of its indexes. -/
theorem Sound.keyOf_notMem_indexKeys (hs : tdef.Sound) (row values : List Value) :
    keyOf tdef.keyPrefix values ∉ tdef.indexKeys row := by
  intro h
  obtain ⟨i, p, cols, ht, he⟩ := mem_indexKeys.mp h
  have hspace := inSpace_keyOf tdef.keyPrefix values
  have hp := InSpace.unique (hs.small _ List.mem_cons_self) (hs.tree_cols ht).1 hspace
    (he ▸ inSpace_keyOf p _)
  have := hs.tree_unique (a := none) (b := some i) rfl ht hp
  cases this

theorem owns_of_mem_indexKeys {row : List Value} {key : Bytes} (h : key ∈ tdef.indexKeys row) :
    tdef.Owns key := owns_of_binds (Or.inr ⟨h, rfl⟩)

/-- The index keys of a row that is there. -/
theorem Represents.lookup_indexKey (hrep : tdef.Represents m rows) (hs : tdef.Sound)
    {pk row : List Value} (hrow : rows pk = some row) {key : Bytes}
    (hk : key ∈ tdef.indexKeys row) :
    lookup m key = some [] :=
  (hrep.lookup_iff hs (owns_of_mem_indexKeys hk)).mpr ⟨pk, row, hrow, Or.inr ⟨hk, rfl⟩⟩

/-- **An index key that is taken** is the old row's, if its primary key is. -/
theorem Represents.indexKey_free (hrep : tdef.Represents m rows) (hs : tdef.Sound)
    {row : List Value} (htyped : tdef.Typed row) {key : Bytes} (hk : key ∈ tdef.indexKeys row)
    (hold : ∀ old, rows (row.take tdef.npkeys) = some old → key ∉ tdef.indexKeys old) :
    lookup m key = none := by
  cases hlook : lookup m key with
  | none => rfl
  | some val =>
      obtain ⟨pk', row', hrow', hb⟩ := (hrep.lookup_iff hs (owns_of_mem_indexKeys hk)).mp hlook
      have hpk := hs.key_of_binds (hrep.fit.typed hrow') htyped hb (Or.inr ⟨hk, rfl⟩)
      rw [← hrep.fit.key hrow'] at hpk
      rw [hpk] at hrow'
      rcases hb with ⟨he, _⟩ | ⟨hmem, _⟩
      · rw [he] at hk
        exact absurd hk (hs.keyOf_notMem_indexKeys row _)
      · exact absurd hmem (hold row' hrow')

/-- **The row is put**, with its index keys in place of the old row's. -/
theorem Represents.put_row (hrep : tdef.Represents m rows) (hs : tdef.Sound) {row : List Value}
    (htyped : tdef.Typed row)
    (hkey : lookup m' (keyOf tdef.keyPrefix (row.take tdef.npkeys)) =
      some (encoded (row.drop tdef.npkeys)))
    (hnew : ∀ key ∈ tdef.indexKeys row, lookup m' key = some [])
    (hold : ∀ old, rows (row.take tdef.npkeys) = some old → ∀ key ∈ tdef.indexKeys old,
      key ∉ tdef.indexKeys row → lookup m' key = none)
    (hother : ∀ key, key ≠ keyOf tdef.keyPrefix (row.take tdef.npkeys) → key ∉ tdef.indexKeys row →
      (∀ old, rows (row.take tdef.npkeys) = some old → key ∉ tdef.indexKeys old) →
        lookup m' key = lookup m key) :
    tdef.Represents m' (Function.update rows (row.take tdef.npkeys) (some row)) := by
  refine hrep.write hs (fun r he => ?_) (fun r he key val hb => ?_)
    (fun old ho key val hb hno => ?_)
    fun key ho hno => ?_
  · rw [← Option.some.inj he]
    exact ⟨htyped, rfl⟩
  · rw [← Option.some.inj he] at hb
    rcases hb with ⟨rfl, rfl⟩ | ⟨hk, rfl⟩
    · rw [htyped.pick_key hs]
      exact hkey
    · exact hnew key hk
  · rcases hb with ⟨he, _⟩ | ⟨hk, _⟩
    · -- both rows have this key of their own
      have hpk : tdef.pick old tdef.keyCols = tdef.pick row tdef.keyCols := by
        rw [(hrep.fit.typed ho).pick_key hs, htyped.pick_key hs, ← hrep.fit.key ho]
      exact absurd (Or.inl ⟨by rw [← hpk]; exact he, rfl⟩) (hno row rfl _)
    · exact hold old ho key hk fun hmem => hno row rfl [] (Or.inr ⟨hmem, rfl⟩)
  · refine hother key (fun he => ?_) (fun hk => ?_) fun old ho' hk => ?_
    · refine hno row (Or.inl rfl) _ (Or.inl ⟨?_, rfl⟩)
      rw [htyped.pick_key hs]
      exact he
    · exact hno row (Or.inl rfl) [] (Or.inr ⟨hk, rfl⟩)
    · exact hno old (Or.inr ho') [] (Or.inr ⟨hk, rfl⟩)

/-- **The row is removed**, with its index keys. -/
theorem Represents.remove_row (hrep : tdef.Represents m rows) (hs : tdef.Sound)
    {pk old : List Value} (ho : rows pk = some old)
    (hkey : lookup m' (keyOf tdef.keyPrefix pk) = none)
    (hold : ∀ key ∈ tdef.indexKeys old, lookup m' key = none)
    (hother : ∀ key, key ≠ keyOf tdef.keyPrefix pk → key ∉ tdef.indexKeys old →
      lookup m' key = lookup m key) :
    tdef.Represents m' (Function.update rows pk none) := by
  have hpick : tdef.pick old tdef.keyCols = pk := by
    rw [(hrep.fit.typed ho).pick_key hs, ← hrep.fit.key ho]
  refine hrep.write hs (fun r he => nomatch he) (fun r he => nomatch he)
    (fun old' ho' key val hb _ => ?_) fun key _ hno => ?_
  · rw [ho] at ho'
    obtain rfl := Option.some.inj ho'
    rcases hb with ⟨rfl, _⟩ | ⟨hk, _⟩
    · rw [hpick]
      exact hkey
    · exact hold key hk
  · refine hother key (fun he => ?_) fun hk => ?_
    · refine hno old (Or.inr ho) _ (Or.inl ⟨?_, rfl⟩)
      rw [hpick]
      exact he
    · exact hno old (Or.inr ho) [] (Or.inr ⟨hk, rfl⟩)

theorem Untouched.of_indexKeys {row : List Value}
    (h : ∀ key, key ∉ tdef.indexKeys row → lookup m' key = lookup m key) : tdef.Untouched m m' :=
  fun key hk => h key fun hmem => hk (owns_of_mem_indexKeys hmem)

end TableDef

variable (hI : LawfulPages I E) (hE : ∀ what, ¬ E (.throws what))

include hI hE in
/-- **The indexes follow the row.** -/
theorem updateIndexes_spec (hs : tdef.Sound) (hm : Sorted m) (hrep : tdef.Represents m rows)
    {rec : Record} {row : List Value} (htyped : tdef.Typed row) (hrec : rec.Shows tdef row)
    {req : InsertReq} (hadded : req.added = (rows (row.take tdef.npkeys)).isNone)
    (hold : ∀ old, rows (row.take tdef.npkeys) = some old →
      req.old = encoded (old.drop tdef.npkeys)) :
    Spec I E (updateIndexes tdef rec (keyOf tdef.keyPrefix (row.take tdef.npkeys)) req : Tx σ Unit)
      (OrdMap.insert m (keyOf tdef.keyPrefix (row.take tdef.npkeys)) (encoded (row.drop tdef.npkeys)))
      fun r m' => tdef.Untouched m m' ∧ (r = .ok () →
        tdef.Represents m' (Function.update rows (row.take tdef.npkeys) (some row))) := by
  have huntouched : tdef.Untouched m (OrdMap.insert m (keyOf tdef.keyPrefix (row.take tdef.npkeys))
      (encoded (row.drop tdef.npkeys))) := .update hm (tdef.owns_keyOf _)
  have hself := lookup_insert_self hm (keyOf tdef.keyPrefix (row.take tdef.npkeys))
    (encoded (row.drop tdef.npkeys))
  have hne : ∀ key, key ≠ keyOf tdef.keyPrefix (row.take tdef.npkeys) →
      lookup (OrdMap.insert m (keyOf tdef.keyPrefix (row.take tdef.npkeys))
        (encoded (row.drop tdef.npkeys))) key = lookup m key :=
    fun key hk => lookup_insert_of_ne hm _ hk
  have hown : ∀ r : List Value, keyOf tdef.keyPrefix (row.take tdef.npkeys) ∉ tdef.indexKeys r :=
    fun r => hs.keyOf_notMem_indexKeys r _
  have hindex : ∀ (r : List Value), ∀ key ∈ tdef.indexKeys r,
      key ≠ keyOf tdef.keyPrefix (row.take tdef.npkeys) := fun r key hk he => hown r (he ▸ hk)
  -- of the map with the new row, only these four facts are needed
  generalize OrdMap.insert m _ _ = m1 at huntouched hself hne ⊢
  unfold updateIndexes
  cases hrow : rows (row.take tdef.npkeys) with
  -- a new row: its index keys are free
  | none =>
      rw [if_pos (by rw [hadded, hrow]; rfl)]
      refine (indexOp_spec hI hE hs htyped.plain hrec htyped.types fun key hk => ?_).imp
        fun r m' hq => ⟨huntouched.trans (.of_indexKeys hq.1), fun hr => ?_⟩
      · show lookup m1 key = none
        rw [hne key (hindex row key hk)]
        exact hrep.indexKey_free hs htyped hk fun old ho => by
          rw [hrow] at ho
          cases ho
      · refine hrep.put_row hs htyped ?_ (hq.2 hr) (fun old ho => ?_) fun key hk hkn _ => ?_
        · rw [hq.1 _ (hown row), hself]
        · rw [hrow] at ho
          cases ho
        · rw [hq.1 key hkn, hne key hk]
  -- a replaced row: the old index keys go first, and may be new ones again
  | some old =>
      have hotyped := hrep.fit.typed hrow
      have hokey := hrep.fit.key hrow
      have hdec : decodeRow tdef (keyOf tdef.keyPrefix (row.take tdef.npkeys)) req.old =
          .ok (.ofCols tdef.cols old) := by
        rw [hold old hrow, hokey]
        exact decodeRow_keyOf hotyped.plain hs.checked.types _ hotyped.types
      rw [if_neg (by rw [hadded, hrow]; exact Bool.false_ne_true), hdec]
      refine Spec.bind (Q := fun r m' => r = .ok (.ofCols tdef.cols old) ∧ m1 = m')
        (Spec.lift hI ⟨rfl, rfl⟩) ?_ ?_
      · rintro _ _ ⟨he, rfl⟩
        rw [Except.ok.inj he]
        refine Spec.bind (indexOp_spec hI hE hs htyped.plain (shows_ofCols (hotyped.length hs))
          hotyped.types fun key hk => ?_) ?_ ?_
        · show (lookup m1 key).isSome
          rw [hne key (hindex old key hk), hrep.lookup_indexKey hs hrow hk]
          rfl
        · intro _ m2 hq2
          have hgone := hq2.2 rfl
          refine (indexOp_spec hI hE hs htyped.plain hrec htyped.types fun key hk => ?_).imp
            fun r m' hq => ⟨(huntouched.trans (.of_indexKeys hq2.1)).trans (.of_indexKeys hq.1),
              fun hr => ?_⟩
          · show lookup m2 key = none
            by_cases hko : key ∈ tdef.indexKeys old
            · exact hgone key hko
            · rw [hq2.1 key hko, hne key (hindex row key hk)]
              refine hrep.indexKey_free hs htyped hk fun old' ho => ?_
              rw [hrow] at ho
              rw [← Option.some.inj ho]
              exact hko
          · refine hrep.put_row hs htyped ?_ (hq.2 hr) (fun old' ho key hk hkn => ?_)
              fun key hk hkn hko => ?_
            · rw [hq.1 _ (hown row), hq2.1 _ (hown old), hself]
            · rw [hrow] at ho
              rw [← Option.some.inj ho] at hk
              rw [hq.1 key hkn]
              exact hgone key hk
            · rw [hq.1 key hkn, hq2.1 key (hko old hrow), hne key hk]
        · intro what m2 hq2
          exact ⟨huntouched.trans (.of_indexKeys hq2.1), fun he => nomatch he⟩
      · rintro what m2 ⟨he, _⟩
        cases he

/-- What an operation on a table promises: only the table's spaces change, and if it returns, it
answers as the map's does and leaves the map as that does; a refusal leaves everything as it was. -/
def TableDef.Performs {ε α : Type} (tdef : TableDef) (m : Contents) (done : Except ε α × Rows)
    (r : Except String (Except ε α)) (m' : Contents) : Prop :=
  tdef.Untouched m m' ∧ ∀ ans, r = .ok ans → ans = done.1 ∧ tdef.Represents m' done.2 ∧
    ∀ err, ans = .error err → m' = m

theorem TableDef.Performs.throws {ε α : Type} {done : Except ε α × Rows} {what : String}
    (h : tdef.Untouched m m') : tdef.Performs m done (.error what) m' := ⟨h, fun _ he => nomatch he⟩

theorem TableDef.Performs.refuse {ε α : Type} {err : ε} (hrep : tdef.Represents m rows) :
    tdef.Performs m ((.error err, rows) : Except ε α × Rows) (.ok (.error err)) m := by
  refine ⟨.refl tdef m, fun ans he => ?_⟩
  rw [← Except.ok.inj he]
  exact ⟨rfl, hrep, fun _ _ => rfl⟩

theorem TableDef.Performs.accept {ε α : Type} {a : α} {rows' : Rows} (h : tdef.Untouched m m')
    (hrep : tdef.Represents m' rows') :
    tdef.Performs m ((.ok a, rows') : Except ε α × Rows) (.ok (.ok a)) m' := by
  refine ⟨h, fun ans he => ?_⟩
  rw [← Except.ok.inj he]
  exact ⟨rfl, hrep, fun _ he => nomatch he⟩

include hI in
/-- A computation that can throw. -/
theorem Spec.lift_ends {α : Type} {r : Except Fault α} {P : α → Prop} (h : Ends Thrown P r) :
    Spec I E (Tx.lift r : Tx σ α) m fun r m' => m = m' ∧ ∀ a, r = .ok a → P a := by
  refine Spec.lift hI (h.mono ?_ fun a ha => ⟨rfl, fun b he => Except.ok.inj he ▸ ha⟩)
  rintro _ ⟨what, rfl⟩
  exact ⟨what, rfl, rfl, fun _ he => nomatch he⟩

include hI hE in
/-- **`db_update` puts the row**, if the record is well formed and the mode allows it. -/
theorem dbUpdate_spec (hs : tdef.Sound) (hrep : tdef.Represents m rows) (rec : Record)
    (mode : UpdateMode) : Spec I E (dbUpdate tdef rec mode : Tx σ (Except Bytes Unit)) m
      (tdef.Performs m (tdef.put rows rec mode)) := by
  refine Spec.of_sorted fun hm => ?_
  unfold dbUpdate TableDef.put
  cases hcheck : checkRecord tdef rec tdef.cols.length with
  | error err => exact Spec.pure (.refuse hrep)
  | ok row =>
      have hnames := (checkRecord_eq_ok hs.checked.types).mp hcheck
      have htypes : row.map Value.type = tdef.types := by
        rw [hnames.types, hs.checked.types, List.take_length]
      dsimp only
      refine Spec.bind (Spec.lift_ends hI (encodeKey_ends tdef.keyPrefix (row.take tdef.npkeys))) ?_ ?_
      · rintro key _ ⟨rfl, hkey⟩
        obtain ⟨hplain1, rfl⟩ := hkey key rfl
        refine Spec.bind (Spec.lift_ends hI (encodeValues_ends (row.drop tdef.npkeys))) ?_ ?_
        · rintro val _ ⟨rfl, hval⟩
          obtain ⟨hplain2, rfl⟩ := hval val rfl
          -- both halves were encoded, so no value of the row is of another type
          have htyped : tdef.Typed row := by
            refine ⟨?_, htypes⟩
            have happ : (row.take tdef.npkeys).map Value.type ++ (row.drop tdef.npkeys).map Value.type =
                tdef.types := by rw [← List.map_append, List.take_append_drop, htypes]
            rw [← happ]
            exact fun type htype => (List.mem_append.mp htype).elim (hplain1 type) (hplain2 type)
          have hlook := hrep.lookup_row hs
            (show (row.take tdef.npkeys).map Value.type = _ by rw [List.map_take, htypes]) hplain1
          have hsome : (lookup m (keyOf tdef.keyPrefix (row.take tdef.npkeys))).isSome =
              (rows (row.take tdef.npkeys)).isSome := by rw [hlook, Option.isSome_map]
          have hnone : (lookup m (keyOf tdef.keyPrefix (row.take tdef.npkeys))).isNone =
              (rows (row.take tdef.npkeys)).isNone := by rw [hlook, Option.isNone_map]
          -- what `update` reports of the old row, and that it wrote exactly if the mode allows
          refine Spec.bind (Q := fun r m' => tdef.Untouched m m' ∧ ∀ out, r = .ok out →
            out.2.added = (rows (row.take tdef.npkeys)).isNone ∧
            (∀ old, rows (row.take tdef.npkeys) = some old →
              out.2.old = encoded (old.drop tdef.npkeys)) ∧
            out.1 = mode.allows (rows (row.take tdef.npkeys)).isSome ∧
            m' = if out.1 then OrdMap.insert m (keyOf tdef.keyPrefix (row.take tdef.npkeys))
              (encoded (row.drop tdef.npkeys)) else m)
            (Spec.update hI hE ?_ ?_ ?_) ?_ ?_
          · intro _ _ hallow
            refine ⟨.update hm (tdef.owns_keyOf _), fun out he => ?_⟩
            rw [← Except.ok.inj he]
            refine ⟨hnone, fun old ho => ?_, ?_, rfl⟩
            · show (lookup m _).getD [] = _
              rw [hlook, ho]
              rfl
            · rw [← hsome]
              exact hallow.symm
          · intro _ hallow
            refine ⟨.refl tdef m, fun out he => ?_⟩
            rw [← Except.ok.inj he]
            refine ⟨hnone, fun old ho => ?_, ?_, rfl⟩
            · show (lookup m _).getD [] = _
              rw [hlook, ho]
              rfl
            · rw [← hsome]
              exact hallow.symm
          · exact ⟨.refl tdef m, fun _ he => nomatch he⟩
          · intro out m' hq
            obtain ⟨wrote, req⟩ := out
            obtain ⟨huntouched, hq⟩ := hq
            obtain ⟨hadded, hold, hwrote, hm'⟩ := hq _ rfl
            dsimp only at hadded hold hwrote hm' ⊢
            cases hallow : mode.allows (rows (row.take tdef.npkeys)).isSome with
            -- refused: the text names what was found
            | false =>
                rw [hallow] at hwrote
                rw [hwrote, if_neg Bool.false_ne_true] at hm'
                rw [hwrote, if_pos Bool.false_ne_true, if_neg Bool.false_ne_true, hm']
                have htext : (Bytes.ofString (if req.added then "row does not exist in table: "
                    else "row already exists in table: ") ++ tdef.name) =
                    tdef.refusal (rows (row.take tdef.npkeys)).isSome := by
                  rw [hadded, TableDef.refusal]
                  cases rows (row.take tdef.npkeys) <;> rfl
                rw [htext]
                exact Spec.pure (.refuse hrep)
            | true =>
                rw [hallow] at hwrote
                rw [hwrote, if_pos rfl] at hm'
                rw [hwrote, if_neg (not_not.mpr rfl), if_pos rfl, hm']
                -- written: without indexes the row is all there is to it
                by_cases hindexes : tdef.indexes = []
                · rw [if_pos hindexes]
                  refine Spec.pure (.accept (.update hm (tdef.owns_keyOf _)) ?_)
                  have hno : ∀ r : List Value, tdef.indexKeys r = [] := by
                    intro r
                    rw [TableDef.indexKeys, hindexes]
                    rfl
                  refine hrep.put_row hs htyped (lookup_insert_self hm _ _) ?_ ?_ ?_
                  · rw [hno]
                    exact fun _ hk => absurd hk List.not_mem_nil
                  · intro old _
                    rw [hno]
                    exact fun _ hk => absurd hk List.not_mem_nil
                  · exact fun key hk _ _ => lookup_insert_of_ne hm _ hk
                · rw [if_neg hindexes]
                  refine Spec.bind (updateIndexes_spec hI hE hs hm hrep htyped (hnames.shows hs.nodup)
                    hadded hold) ?_ ?_
                  · intro _ m'' hq
                    exact Spec.pure (.accept hq.1 (hq.2 rfl))
                  · intro what m'' hq
                    exact .throws hq.1
          · intro what m' hq
            exact .throws hq.1
        · rintro what _ ⟨rfl, _⟩
          exact .throws (.refl tdef m)
      · rintro what _ ⟨rfl, _⟩
        exact .throws (.refl tdef m)

include hI hE in
/-- **`db_delete` removes the row**, if the record is well formed and the row is there. -/
theorem dbDelete_spec (hs : tdef.Sound) (hrep : tdef.Represents m rows) (rec : Record) :
    Spec I E (dbDelete tdef rec : Tx σ (Answer Unit)) m
      (tdef.Performs m (tdef.remove rows rec)) := by
  refine Spec.of_sorted fun hm => ?_
  unfold dbDelete TableDef.remove
  cases hcheck : checkRecord tdef rec tdef.npkeys with
  | error err => exact Spec.pure (.refuse hrep)
  | ok pk =>
      have hnames := (checkRecord_eq_ok hs.checked.types).mp hcheck
      dsimp only
      refine Spec.bind (Spec.lift_ends hI (encodeKey_ends tdef.keyPrefix pk)) ?_ ?_
      · rintro key _ ⟨rfl, hkey⟩
        obtain ⟨hplain, rfl⟩ := hkey key rfl
        have hlook := hrep.lookup_row hs hnames.types hplain
        -- what `del` reports of the old row, and that it erased exactly what was there
        refine Spec.bind (Q := fun r m' => tdef.Untouched m m' ∧ ∀ out, r = .ok out →
          out.1 = (rows pk).isSome ∧
          (∀ old, rows pk = some old → out.2.old = encoded (old.drop tdef.npkeys)) ∧
          m' = if out.1 then OrdMap.erase m (keyOf tdef.keyPrefix pk) else m)
          (Spec.delete hI hE ?_ ?_ ?_) ?_ ?_
        · intro _ old hold
          rw [hlook] at hold
          refine ⟨.erase hm (tdef.owns_keyOf _), fun out he => ?_⟩
          rw [← Except.ok.inj he]
          refine ⟨?_, fun old' ho => ?_, rfl⟩
          · cases hrow : rows pk with
            | none =>
                rw [hrow] at hold
                cases hold
            | some _ => rfl
          · rw [ho] at hold
            exact (Option.some.inj hold).symm
        · intro _ hnone
          rw [hlook, Option.map_eq_none_iff] at hnone
          refine ⟨.refl tdef m, fun out he => ?_⟩
          rw [← Except.ok.inj he, hnone]
          exact ⟨rfl, (fun _ ho => nomatch ho), rfl⟩
        · exact fun _ => ⟨.refl tdef m, fun _ he => nomatch he⟩
        · intro out m' hq
          obtain ⟨found, req⟩ := out
          obtain ⟨_, hq⟩ := hq
          obtain ⟨hfound, hold, hm'⟩ := hq _ rfl
          dsimp only at hfound hold hm' ⊢
          cases hrow : rows pk with
          | none =>
              rw [hrow] at hfound
              rw [show found = false from hfound, if_neg Bool.false_ne_true] at hm'
              rw [show found = false from hfound, if_pos Bool.false_ne_true, hm']
              exact Spec.pure (.refuse hrep)
          | some old =>
              rw [hrow] at hfound
              rw [show found = true from hfound, if_pos rfl] at hm'
              rw [show found = true from hfound, if_neg (not_not.mpr rfl), hm']
              have hotyped := hrep.fit.typed hrow
              have huntouched : tdef.Untouched m (OrdMap.erase m (keyOf tdef.keyPrefix pk)) :=
                .erase hm (tdef.owns_keyOf _)
              have hgone := lookup_erase_self m (keyOf tdef.keyPrefix pk)
              have hne : ∀ key, key ≠ keyOf tdef.keyPrefix pk →
                  lookup (OrdMap.erase m (keyOf tdef.keyPrefix pk)) key = lookup m key :=
                fun key hk => lookup_erase_of_ne hm hk
              -- of the map without the row, only these three facts are needed
              generalize OrdMap.erase m _ = m1 at huntouched hgone hne ⊢
              by_cases hindexes : tdef.indexes = []
              · rw [if_pos hindexes]
                refine Spec.pure (.accept huntouched (hrep.remove_row hs hrow hgone ?_ ?_))
                · rw [TableDef.indexKeys, hindexes]
                  exact fun _ hk => absurd hk List.not_mem_nil
                · exact fun key hk _ => hne key hk
              · rw [if_neg hindexes]
                have hdec : decodeRow tdef (keyOf tdef.keyPrefix pk) req.old =
                    .ok (.ofCols tdef.cols old) := by
                  rw [hold old hrow, hrep.fit.key hrow]
                  exact decodeRow_keyOf hotyped.plain hs.checked.types _ hotyped.types
                rw [hdec]
                refine Spec.bind (Q := fun r m' => r = .ok (.ofCols tdef.cols old) ∧ m1 = m')
                  (Spec.lift hI ⟨rfl, rfl⟩) ?_ ?_
                · rintro _ _ ⟨he, rfl⟩
                  rw [Except.ok.inj he]
                  have hown : keyOf tdef.keyPrefix pk ∉ tdef.indexKeys old :=
                    hs.keyOf_notMem_indexKeys old pk
                  refine Spec.bind (indexOp_spec hI hE hs hotyped.plain
                    (shows_ofCols (hotyped.length hs)) hotyped.types fun key hk => ?_) ?_ ?_
                  · show (lookup m1 key).isSome
                    rw [hne key fun he => hown (he ▸ hk), hrep.lookup_indexKey hs hrow hk]
                    rfl
                  · intro _ m2 hq
                    refine Spec.pure (.accept (huntouched.trans (.of_indexKeys hq.1))
                      (hrep.remove_row hs hrow ?_ (hq.2 rfl) ?_))
                    · rw [hq.1 _ hown, hgone]
                    · intro key hk hko
                      rw [hq.1 key hko, hne key hk]
                  · intro what m2 hq
                    exact .throws (huntouched.trans (.of_indexKeys hq.1))
                · rintro what m2 ⟨he, _⟩
                  cases he
        · intro what m' hq
          exact .throws hq.1
      · rintro what _ ⟨rfl, _⟩
        exact .throws (.refl tdef m)

end Specs

end SqlDb
