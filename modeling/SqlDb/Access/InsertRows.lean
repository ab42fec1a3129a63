import SqlDb.Access.TableSpec
import SqlDb.Storage.Roomy

/-!
# New rows go in

What `db_update` leaves of the bindings when it inserts a new row: the row under its primary
key and an entry in every index. With page numbers left it always gets there, and the
bindings represent the table with the row in it.
-/

namespace SqlDb

open Outcome OrdMap

/-! ## The bindings of a new row -/

/-- The bindings with these keys in addition, bound to nothing. -/
def withKeys (m : Contents) (keys : List Bytes) : Contents :=
  keys.foldl (fun m key => OrdMap.insert m key []) m

theorem lookup_withKeys {m : Contents} (hm : Sorted m) (keys : List Bytes) (k : Bytes) :
    lookup (withKeys m keys) k = if k ∈ keys then some [] else lookup m k := by
  induction keys generalizing m with
  | nil => rfl
  | cons key keys ih =>
      show lookup (withKeys (OrdMap.insert m key []) keys) k = _
      rw [ih (hm.insert _ _)]
      by_cases hk : k ∈ keys
      · rw [if_pos hk, if_pos (List.mem_cons_of_mem key hk)]
      · rw [if_neg hk]
        by_cases he : k = key
        · rw [if_pos (he ▸ List.mem_cons_self), he, lookup_insert_self hm]
        · rw [if_neg (List.not_mem_cons_of_ne_of_not_mem he hk), lookup_insert_of_ne hm _ he]

namespace TableDef

variable {tdef : TableDef} {m : Contents} {rows : Rows} {row : List Value}

/-- The bindings with a new row in addition. -/
def withRow (tdef : TableDef) (m : Contents) (row : List Value) : Contents :=
  withKeys (OrdMap.insert m (keyOf tdef.keyPrefix (row.take tdef.npkeys))
    (encoded (row.drop tdef.npkeys))) (tdef.indexKeys row)

/-- The bindings are within the store's limits. -/
structure Stores (tdef : TableDef) (row : List Value) : Prop where
  key : ValidKey (keyOf tdef.keyPrefix (row.take tdef.npkeys))
  val : ValidVal (encoded (row.drop tdef.npkeys))
  index : ∀ key ∈ tdef.indexKeys row, ValidKey key

/-- The key and the value of a row encode. -/
theorem Typed.encode (htyped : tdef.Typed row) :
    encodeKey tdef.keyPrefix (row.take tdef.npkeys) =
        .ok (keyOf tdef.keyPrefix (row.take tdef.npkeys)) ∧
      encodeValues (row.drop tdef.npkeys) = .ok (encoded (row.drop tdef.npkeys)) := by
  constructor
  · refine encodeKey_eq _ ?_
    rw [List.map_take, htyped.types]
    exact fun type htype => htyped.plain type (List.mem_of_mem_take htype)
  · refine encodeValues_eq ?_
    rw [List.map_drop, htyped.types]
    exact fun type htype => htyped.plain type (List.mem_of_mem_drop htype)

/-- **They represent the table with the row in it.** -/
theorem Represents.withRow (hrep : tdef.Represents m rows) (hs : tdef.Sound) (hm : Sorted m)
    (htyped : tdef.Typed row) (hnew : rows (row.take tdef.npkeys) = none) :
    tdef.Represents (tdef.withRow m row) (Function.update rows (row.take tdef.npkeys) (some row)) := by
  have hlook := lookup_withKeys (hm.insert (keyOf tdef.keyPrefix (row.take tdef.npkeys))
    (encoded (row.drop tdef.npkeys))) (tdef.indexKeys row)
  have hnone : ∀ old, rows (row.take tdef.npkeys) ≠ some old := fun old ho => by
    rw [hnew] at ho
    cases ho
  refine hrep.put_row hs htyped ?_ (fun key hk => ?_) (fun old ho => absurd ho (hnone old))
    fun key hne hk _ => ?_
  · rw [TableDef.withRow, hlook, if_neg (hs.keyOf_notMem_indexKeys row _), lookup_insert_self hm]
  · rw [TableDef.withRow, hlook, if_pos hk]
  · rw [TableDef.withRow, hlook, if_neg hk, lookup_insert_of_ne hm _ hne]

/-- Nothing else changes. -/
theorem untouched_withRow (hm : Sorted m) : tdef.Untouched m (tdef.withRow m row) := by
  intro key ho
  have hindex : key ∉ tdef.indexKeys row := fun hk => ho (owns_of_mem_indexKeys hk)
  have hown : key ≠ keyOf tdef.keyPrefix (row.take tdef.npkeys) := fun he =>
    ho (he ▸ tdef.owns_keyOf _)
  rw [TableDef.withRow, lookup_withKeys (hm.insert _ _), if_neg hindex, lookup_insert_of_ne hm _ hown]

end TableDef

/-! ## The row goes in -/

namespace Goes

variable {σ : Type} [PageManager σ] {m : Contents} {tdef : TableDef} {rows : Rows} {rec : Record}
  {row : List Value}

/-- What a program goes through from is sorted. -/
theorem of_sorted {α : Type} {k : Nat} {p : Tx σ α} {a : α} {m' : Contents}
    (h : Sorted m → Goes k p m a m') : Goes k p m a m' := fun n t hroomy =>
  h hroomy.readable.sorted n t hroomy

/-- **The loop of `index_op`** puts in keys that are free. -/
theorem indexOpLoop (hrec : rec.Shows tdef row) (htyped : tdef.Typed row)
    (hlen : tdef.cols.length = tdef.types.length) {indexes : List (List Bytes × Nat)}
    (hcols : ∀ index ∈ indexes, ∀ col ∈ index.1, col ∈ tdef.cols)
    (hnodup : (tdef.keysIn row indexes).Nodup)
    (hfree : ∀ key ∈ tdef.keysIn row indexes, lookup m key = none)
    (hvalid : ∀ key ∈ tdef.keysIn row indexes, ValidKey key) :
    Goes indexes.length (indexOpLoop rec .add indexes : Tx σ Unit) m ()
      (withKeys m (tdef.keysIn row indexes)) := by
  induction indexes generalizing m with
  | nil => exact .pure () m
  | cons index indexes ih =>
      refine .of_sorted fun hm => ?_
      obtain ⟨cols, p⟩ := index
      obtain ⟨hcols, hrest⟩ := List.forall_mem_cons.mp hcols
      rw [TableDef.keysIn, List.map_cons] at hnodup hfree hvalid ⊢
      obtain ⟨hnot, hnodup⟩ := List.nodup_cons.mp hnodup
      obtain ⟨hhere, hfree⟩ := List.forall_mem_cons.mp hfree
      obtain ⟨hkey, hvalid⟩ := List.forall_mem_cons.mp hvalid
      have hencode : encodeKey p (tdef.pick row cols) = .ok (keyOf p (tdef.pick row cols)) := by
        refine encodeKey_eq p ?_
        rw [TableDef.type_pick htyped.types]
        exact TableDef.plain_typesOf htyped.plain hlen hcols
      generalize keyOf p (tdef.pick row cols) = key at hencode hnot hhere hkey ⊢
      have hdone : Goes 1 (indexDone .add key : Tx σ Bool) m true (OrdMap.insert m key []) :=
        (Goes.update { key := key, val := [], mode := .insertOnly } hkey (Nat.zero_le _)
          (by rw [hhere]; rfl)).bind (.pure _ _)
      have hrest' : ∀ k ∈ tdef.keysIn row indexes, lookup (OrdMap.insert m key []) k = none := by
        intro k hk
        have hne : k ≠ key := fun he => hnot (he ▸ hk)
        rw [lookup_insert_of_ne hm [] hne]
        exact hfree k hk
      have hloop := ih hrest hnodup hrest' hvalid
      rw [SqlDb.indexOpLoop]
      exact (Goes.lift (indexValues_eq hrec hcols)).bind ((Goes.lift hencode).bind
        (hdone.bind ((Goes.assert _ rfl).bind hloop)))

/-- **`db_update` inserts a new row.** -/
theorem insertRow (hs : tdef.Sound) (hrep : tdef.Represents m rows)
    (hrec : rec.Names tdef tdef.cols.length row) (htyped : tdef.Typed row)
    (hnew : rows (row.take tdef.npkeys) = none) (hstores : tdef.Stores row) :
    Goes (tdef.indexes.length + 1) (dbUpdate tdef rec .insertOnly : Tx σ (Except Bytes Unit)) m
      (.ok ()) (tdef.withRow m row) := by
  refine .of_sorted fun hm => ?_
  have hcheck := (checkRecord_eq_ok hs.checked.types).mpr hrec
  obtain ⟨hkey, hval⟩ := htyped.encode
  have habsent : lookup m (keyOf tdef.keyPrefix (row.take tdef.npkeys)) = none := by
    rw [hrep.lookup_row hs (by rw [List.map_take, htyped.types])
      (fun type htype => htyped.plain type ?_), hnew]
    · rfl
    · rw [List.map_take, htyped.types] at htype
      exact List.mem_of_mem_take htype
  have hupdate : Goes 1 (Tx.update ⟨keyOf tdef.keyPrefix (row.take tdef.npkeys),
      encoded (row.drop tdef.npkeys), .insertOnly, false, []⟩ : Tx σ _) m _ _ :=
    Goes.update _ hstores.key hstores.val (by rw [habsent]; rfl)
  have hindex : Goes tdef.indexes.length (indexOp tdef rec .add : Tx σ Unit)
      (OrdMap.insert m (keyOf tdef.keyPrefix (row.take tdef.npkeys)) (encoded (row.drop tdef.npkeys)))
      () (tdef.withRow m row) := by
    have hlen : (tdef.indexes.zip tdef.indexPrefixes).length = tdef.indexes.length := by
      rw [List.length_zip, hs.parallel, Nat.min_self]
    have hfree : ∀ key ∈ tdef.indexKeys row, lookup (OrdMap.insert m
        (keyOf tdef.keyPrefix (row.take tdef.npkeys)) (encoded (row.drop tdef.npkeys))) key = none := by
      intro key hk
      have hne : key ≠ keyOf tdef.keyPrefix (row.take tdef.npkeys) := fun he =>
        hs.keyOf_notMem_indexKeys row _ (he ▸ hk)
      rw [lookup_insert_of_ne hm _ hne]
      exact hrep.indexKey_free hs htyped hk fun old ho => by
        rw [hnew] at ho
        cases ho
    have hloop : Goes (tdef.indexes.zip tdef.indexPrefixes).length
        (SqlDb.indexOpLoop rec .add (tdef.indexes.zip tdef.indexPrefixes) : Tx σ Unit) _ () _ :=
      indexOpLoop (hrec.shows hs.nodup) htyped hs.checked.types
        (fun index hindex => (hs.checked.index _ (List.of_mem_zip hindex).1).known)
        (hs.nodup_indexKeys row) hfree hstores.index
    rw [hlen] at hloop
    exact (Goes.assert _ hs.parallel).bind hloop
  unfold SqlDb.dbUpdate
  rw [hcheck]
  refine (Goes.lift hkey).bind ((Goes.lift hval).bind (hupdate.bind ?_))
  have hadded : (InsertReq.answered ⟨keyOf tdef.keyPrefix (row.take tdef.npkeys),
      encoded (row.drop tdef.npkeys), .insertOnly, false, []⟩ (lookup m
        (keyOf tdef.keyPrefix (row.take tdef.npkeys)))).added = true := by
    rw [habsent]
    rfl
  dsimp only
  rw [if_neg (by simp)]
  by_cases hindexes : tdef.indexes = []
  · rw [if_pos hindexes]
    have hnone : tdef.withRow m row = OrdMap.insert m (keyOf tdef.keyPrefix (row.take tdef.npkeys))
        (encoded (row.drop tdef.npkeys)) := by
      rw [TableDef.withRow, TableDef.indexKeys, hindexes]
      rfl
    rw [hindexes, hnone]
    exact .pure _ _
  · rw [if_neg hindexes]
    unfold updateIndexes
    rw [if_pos hadded]
    have hdone : Goes (0 + tdef.indexes.length) (do
        indexOp tdef rec .add
        return .ok () : Tx σ (Except Bytes Unit)) _ (.ok ()) (tdef.withRow m row) :=
      hindex.bind (.pure _ _)
    rwa [Nat.zero_add] at hdone

end Goes

/-! ## Several rows -/

namespace TableDef

/-- The bindings with these new rows in addition, the first first. -/
def withRows (tdef : TableDef) (m : Contents) (L : List (List Value)) : Contents :=
  L.foldl tdef.withRow m

/-- The rows with these in addition. -/
def putRows (tdef : TableDef) (rows : Rows) (L : List (List Value)) : Rows :=
  L.foldl (fun rows row => Function.update rows (row.take tdef.npkeys) (some row)) rows

theorem putRows_eq_some {tdef : TableDef} {L : List (List Value)}
    (hdistinct : (L.map fun row => row.take tdef.npkeys).Nodup) {rows : Rows} {pk row : List Value} :
    tdef.putRows rows L pk = some row ↔ (row ∈ L ∧ row.take tdef.npkeys = pk) ∨
      (rows pk = some row ∧ ∀ r ∈ L, r.take tdef.npkeys ≠ pk) := by
  induction L generalizing rows with
  | nil =>
      show rows pk = some row ↔ _
      simp
  | cons r L ih =>
      obtain ⟨hnot, hdistinct⟩ := List.nodup_cons.mp hdistinct
      show tdef.putRows (Function.update rows (r.take tdef.npkeys) (some r)) L pk = some row ↔ _
      rw [ih hdistinct]
      by_cases hpk : pk = r.take tdef.npkeys
      · -- the row that was put first
        have hrest : ∀ r' ∈ L, r'.take tdef.npkeys ≠ pk := fun r' hr' he =>
          hnot (List.mem_map.mpr ⟨r', hr', he.trans hpk⟩)
        rw [hpk, Function.update_self, Option.some.injEq, ← hpk]
        constructor
        · rintro (⟨hmem, he⟩ | ⟨rfl, _⟩)
          · exact absurd he (hrest row hmem)
          · exact Or.inl ⟨List.mem_cons_self, hpk.symm⟩
        · rintro (⟨hmem, he⟩ | ⟨_, hne⟩)
          · rcases List.mem_cons.mp hmem with rfl | hmem
            · exact Or.inr ⟨rfl, hrest⟩
            · exact absurd he (hrest row hmem)
          · exact absurd hpk.symm (hne r List.mem_cons_self)
      · have hhead : row = r → row.take tdef.npkeys ≠ pk := by
          rintro rfl
          exact Ne.symm hpk
        rw [Function.update_of_ne hpk, List.mem_cons, List.forall_mem_cons]
        constructor
        · rintro (⟨hmem, he⟩ | ⟨hrow, hne⟩)
          · exact Or.inl ⟨Or.inr hmem, he⟩
          · exact Or.inr ⟨hrow, Ne.symm hpk, hne⟩
        · rintro (⟨hr | hmem, he⟩ | ⟨hrow, _, hne⟩)
          · exact absurd he (hhead hr)
          · exact Or.inl ⟨hmem, he⟩
          · exact Or.inr ⟨hrow, hne⟩

end TableDef

/-- New rows go in, call by call, from a tree that stands for `m`. -/
inductive RowsIn {σ : Type} [PageManager σ] (tdef : TableDef) :
    BTree σ → Contents → List (List Value) → BTree σ → Prop where
  | nil {t : BTree σ} {m : Contents} : RowsIn tdef t m [] t
  | cons {t t₁ t' : BTree σ} {m : Contents} {row : List Value} {L : List (List Value)} :
      dbUpdate tdef (.ofCols tdef.cols row) .insertOnly t = .ok (.ok (.ok ()), t₁) →
      t₁.Readable (tdef.withRow m row) → RowsIn tdef t₁ (tdef.withRow m row) L t' →
      RowsIn tdef t m (row :: L) t'

/-- **Rows with different keys** go into a roomy tree one after another. -/
theorem Roomy.rows {σ : Type} [PageManager σ] {tdef : TableDef} (hs : tdef.Sound)
    {L : List (List Value)} (hL : ∀ row ∈ L, tdef.Typed row ∧ tdef.Stores row)
    (hdistinct : (L.map fun row => row.take tdef.npkeys).Nodup) :
    ∀ {n : Nat} {t : BTree σ} {m : Contents} {rows : Rows},
      Roomy (n + L.length * (tdef.indexes.length + 1)) t m → tdef.Represents m rows →
      (∀ row ∈ L, rows (row.take tdef.npkeys) = none) →
      ∃ t' : BTree σ, RowsIn tdef t m L t' ∧ Roomy n t' (tdef.withRows m L) ∧
        tdef.Represents (tdef.withRows m L) (tdef.putRows rows L) := by
  induction L with
  | nil =>
      intro n t m rows h hrep _
      rw [List.length_nil, Nat.zero_mul] at h
      exact ⟨t, .nil, h, hrep⟩
  | cons row L ih =>
      intro n t m rows h hrep hnew
      obtain ⟨⟨htyped, hstores⟩, hL⟩ := List.forall_mem_cons.mp hL
      obtain ⟨hnone, hnew⟩ := List.forall_mem_cons.mp hnew
      obtain ⟨hnot, hdistinct⟩ := List.nodup_cons.mp hdistinct
      rw [List.length_cons, Nat.succ_mul, ← Nat.add_assoc] at h
      have hrec : (Record.ofCols tdef.cols row).Names tdef tdef.cols.length row :=
        (names_ofCols hs (htyped.length hs)).mpr ⟨rfl, htyped.types⟩
      obtain ⟨t₁, hcall, h₁⟩ := Goes.insertRow hs hrep hrec htyped hnone hstores _ t h
      have hnew₁ : ∀ r ∈ L, Function.update rows (row.take tdef.npkeys) (some row)
          (r.take tdef.npkeys) = none := by
        intro r hr
        rw [Function.update_of_ne fun he => hnot (List.mem_map.mpr ⟨r, hr, he⟩)]
        exact hnew r hr
      obtain ⟨t', hin, h', hrep'⟩ :=
        ih hL hdistinct h₁ (hrep.withRow hs h.readable.sorted htyped hnone) hnew₁
      exact ⟨t', .cons hcall h₁.readable hin, h', hrep'⟩

/-! ## A table in memory -/

/-- A table with an index on its second column. -/
def indexed : TableDef where
  name := .ofString "t"
  cols := [.ofString "k", .ofString "v", .ofString "x"]
  types := [.int64, .bytes, .bytes]
  pkeys := 1
  indexes := [[.ofString "v", .ofString "k"]]
  keyPrefix := 3
  indexPrefixes := [4]

theorem indexed_sound : indexed.Sound where
  checked := (tableDefCheck_checked (show tableDefCheck indexed = .ok indexed by decide)).1
  nodup := by decide
  parallel := rfl
  spaces := by decide
  small := by decide

theorem indexed_plain : Plain indexed.types := by
  unfold Plain
  decide

/-- Two of these rows have one value in the second column. -/
def threeRows : List (List Value) :=
  [[.int64 1, .bytes [97], .bytes [120]], [.int64 2, .bytes [98], .bytes [121]],
    [.int64 3, .bytes [97], .bytes [122]]]

theorem threeRows_stored : ∀ row ∈ threeRows, indexed.Typed row ∧ indexed.Stores row := by
  have hrows : ∀ row ∈ threeRows, row.map Value.type = indexed.types ∧
      ValidKey (keyOf indexed.keyPrefix (row.take indexed.npkeys)) ∧
      ValidVal (encoded (row.drop indexed.npkeys)) ∧
      ∀ key ∈ indexed.indexKeys row, ValidKey key := by decide +kernel
  intro row hrow
  obtain ⟨htypes, hkey, hval, hindex⟩ := hrows row hrow
  exact ⟨⟨indexed_plain, htypes⟩, hkey, hval, hindex⟩

/-- Each has a binding in either tree. -/
theorem length_threeRows : (indexed.withRows [] threeRows).length = 6 := by decide +kernel

/-- Their table in memory. -/
theorem threeRows_in_memory : ∃ t : BTree InMemoryPageManager,
    t.Readable (indexed.withRows [] threeRows) ∧
    indexed.Represents (indexed.withRows [] threeRows)
      (indexed.putRows (fun _ => none) threeRows) := by
  obtain ⟨t, _, hroomy, hrep⟩ := Roomy.rows indexed_sound threeRows_stored (by decide)
    (roomy_in_memory (n := 0 + 6) (by decide)) (TableDef.represents_empty indexed) fun _ _ => rfl
  exact ⟨t, hroomy.readable, hrep⟩

end SqlDb
