import SqlDb.Access.ScanProof
import SqlDb.Access.TableSpec
import SqlDb.Db.Coherence

/-!
# Indexes mirror their rows

One table across a run: transactions that update and delete its rows and write beside it,
commits that fail, power losses. Whatever version is looked at, each index has one key for
each row and no other.
-/

namespace SqlDb

open Outcome OrdMap

/-- An update or a delete that returns. -/
inductive TableDef.Call (tdef : TableDef) (t t' : BTree (FreeList TxPages)) : Prop where
  | update {rec : Record} {mode : UpdateMode} {r : Except Bytes Unit} :
      dbUpdate tdef rec mode t = .ok (.ok r, t') → Call tdef t t'
  | delete {rec : Record} {r : Answer Unit} : dbDelete tdef rec t = .ok (.ok r, t') → Call tdef t t'

/-- An index in the space `p` has one key for each row, with no value, and no other key. -/
structure TableDef.Mirrors (tdef : TableDef) (m : Contents) (rows : Rows) (p : Nat)
    (cols : List Bytes) : Prop where
  has : ∀ pk row, rows pk = some row →
    ∃ key, encodeKey p (tdef.pick row cols) = .ok key ∧ lookup m key = some []
  only : ∀ key val, InSpace p key → lookup m key = some val → val = [] ∧
    ∃! pk, ∃ row, rows pk = some row ∧ encodeKey p (tdef.pick row cols) = .ok key

section Table

variable {tdef : TableDef} {rows : Rows} {m : Contents}

/-- **What represents a table has mirrors of its rows.** -/
theorem TableDef.Represents.mirrors (hrep : tdef.Represents m rows) (hs : tdef.Sound) {i p : Nat}
    {cols : List Bytes} (hp : tdef.indexPrefixes[i]? = some p)
    (hcols : tdef.indexes[i]? = some cols) :
    tdef.Mirrors m rows p cols := by
  have ht : scannedTree tdef (some i) = .ok (p, cols) := TableDef.scannedTree_some.mpr ⟨hp, hcols⟩
  have hkey : ∀ pk row, rows pk = some row →
      encodeKey p (tdef.pick row cols) = .ok (keyOf p (tdef.pick row cols)) := fun pk row hrow =>
    encodeKey_eq p (hrep.fit.plain_pick hs ht hrow)
  refine ⟨fun pk row hrow => ⟨_, hkey pk row hrow, ?_⟩, fun key val hspace hlook => ?_⟩
  · exact (hrep.entries _ p cols ht _ _ (inSpace_keyOf p _)).mpr ⟨pk, row, hrow, rfl, rfl⟩
  · obtain ⟨pk, row, hrow, rfl, rfl⟩ := (hrep.entries _ p cols ht key val hspace).mp hlook
    refine ⟨rfl, pk, ⟨row, hrow, hkey pk row hrow⟩, fun pk' hpk' => ?_⟩
    obtain ⟨row', hrow', hkey'⟩ := hpk'
    rw [hkey pk' row' hrow', Except.ok.injEq] at hkey'
    rw [hrep.fit.key hrow', hrep.fit.keyOf_inj hs ht hrow' hrow hkey', ← hrep.fit.key hrow]

end Table

namespace World

variable {tdef : TableDef} {w w' : World} {pages : Nat → Multiset Nat} {m : Contents}

/-- What a step shows was there before, but for what the transaction wrote. -/
theorem Step.shows (h : w.Inv pages) (hstep : Step w w') (hm : w'.Shows m) :
    w.Shows m ∨ ∃ tx map tx', w.stage = .running tx map ∧ w'.stage = .running tx' m := by
  have hhistory : ∀ {V}, V ∈ w.history → V.map = m → w.Shows m := fun hV he => Or.inl ⟨_, hV, he⟩
  cases hstep with
  | beginRead _ => exact Or.inl hm
  | endRead _ hend =>
      obtain ⟨_, _, he⟩ := bind_eq_ok.mp hend
      cases he
      exact Or.inl hm
  -- a transaction begins with what the latest version shows
  | begin _ =>
      rcases hm with ⟨V, hV, he⟩ | hm
      · exact Or.inl (hhistory hV he)
      · exact Or.inl (hhistory h.base.latest_mem (Option.some.inj hm))
  | set hst _ =>
      rcases hm with ⟨V, hV, he⟩ | hm
      · exact Or.inl (hhistory hV he)
      · rw [← Option.some.inj hm]
        exact Or.inr ⟨_, _, _, hst, rfl⟩
  | del hst _ =>
      rcases hm with ⟨V, hV, he⟩ | hm
      · exact Or.inl (hhistory hV he)
      · rw [← Option.some.inj hm]
        exact Or.inr ⟨_, _, _, hst, rfl⟩
  -- the version published shows what the transaction did
  | publish hst _ =>
      rcases hm with ⟨V, hV, he⟩ | hm
      · rcases List.mem_append.mp hV with hV | hV
        · exact Or.inl (hhistory hV he)
        · rw [List.mem_singleton.mp hV] at he
          refine Or.inl (Or.inr ?_)
          rw [hst, ← he]
          rfl
      · cases hm
  | commit hst _ =>
      rcases hm with ⟨V, hV, he⟩ | hm
      · exact Or.inl (hhistory hV he)
      · exact Or.inl (Or.inr (by rw [hst]; exact hm))
  | write hst =>
      rcases hm with ⟨V, hV, he⟩ | hm
      · exact Or.inl (hhistory hV he)
      · exact Or.inl (Or.inr (by rw [hst]; exact hm))
  | sync hst =>
      rcases hm with ⟨V, hV, he⟩ | hm
      · exact Or.inl (hhistory hV he)
      · exact Or.inl (Or.inr (by rw [hst]; exact hm))
  | powerLoss _ _ =>
      rcases hm with ⟨V, hV, he⟩ | hm
      · exact Or.inl (hhistory (List.mem_of_mem_take hV) he)
      · cases hm
  | _ =>
      rcases hm with ⟨V, hV, he⟩ | hm
      · exact Or.inl (hhistory hV he)
      · cases hm

/-- The step leaves the table's keys alone. -/
def Beside (tdef : TableDef) (w w' : World) : Prop :=
  ∀ tx map tx' map', w.stage = .running tx map → w'.stage = .running tx' map' →
    ∀ key, tdef.Owns key → lookup map' key = lookup map key

/-- The states of runs from a new file in which the table's keys are written by its own calls. -/
inductive TableRun (tdef : TableDef) : World → Prop where
  | start : TableRun tdef {}
  | beside {w w' : World} : TableRun tdef w → Step w w' → Beside tdef w w' → TableRun tdef w'
  | call {w : World} {tx : KVTX} {map map' : Contents} {t' : BTree (FreeList TxPages)} :
      TableRun tdef w → w.stage = .running tx map → tdef.Call tx.tree t' → t'.Readable map' →
      TableRun tdef { w with stage := .running { tx with tree := t' } map' }

/-- Some rows are the table's in everything that can be seen. -/
def Tabled (tdef : TableDef) (w : World) : Prop :=
  ∀ m, w.Shows m → ∃ rows, tdef.Represents m rows

/-- **A call keeps the table**, and the store's invariant. -/
theorem Inv.tableCall (h : w.Inv pages) (hs : tdef.Sound) (htabled : w.Tabled tdef) {tx : KVTX}
    {map map' : Contents} {t' : BTree (FreeList TxPages)} (hst : w.stage = .running tx map)
    (hcall : tdef.Call tx.tree t') (hread : t'.Readable map') :
    Inv { w with stage := .running { tx with tree := t' } map' } pages ∧
      ∃ rows, tdef.Represents map' rows := by
  have hstage := h.stage
  rw [hst] at hstage
  obtain ⟨b, hbegan, hfile, ps, ht⟩ := hstage
  have hlaw := TxPages.lawful hbegan.sound
  have hE : ∀ what, ¬ ((Fault.throws what) = .overflow) := fun _ he => nomatch he
  obtain ⟨rows, hrep⟩ := htabled map (Or.inr (by rw [hst]; rfl))
  obtain ⟨ps', hd, hrows⟩ :
      ∃ ps', t'.Denotes (TxOwns b) map' ps' ∧ ∃ rows, tdef.Represents map' rows := by
    cases hcall with
    | @update rec mode r hrun =>
        have hspec := dbUpdate_spec hlaw hE hs hrep rec mode tx.tree ps ht
        rw [hrun] at hspec
        obtain ⟨m', ps', hd, hq⟩ := hspec
        obtain rfl : m' = map' := (hd.readable hlaw).unique hread
        exact ⟨ps', hd, _, (hq.2 r rfl).2.1⟩
    | @delete rec r hrun =>
        have hspec := dbDelete_spec hlaw hE hs hrep rec tx.tree ps ht
        rw [hrun] at hspec
        obtain ⟨m', ps', hd, hq⟩ := hspec
        obtain rfl : m' = map' := (hd.readable hlaw).unique hread
        exact ⟨ps', hd, _, (hq.2 r rfl).2.1⟩
  exact ⟨h.base.setStage ⟨b, hbegan, hfile, ps', hd⟩, hrows⟩

/-- **The table is kept** in every state. -/
theorem TableRun.tabled (h : TableRun tdef w) (hs : tdef.Sound) :
    (∃ pages, w.Inv pages) ∧ w.Tabled tdef := by
  induction h with
  | start =>
      refine ⟨⟨_, Inv.start⟩, fun m hm => ?_⟩
      rcases hm with ⟨V, hV, he⟩ | hm
      · rw [← he, List.mem_singleton.mp hV]
        exact ⟨_, tdef.represents_empty⟩
      · cases hm
  | @beside w w' _ hstep hbeside ih =>
      obtain ⟨⟨pages, hinv⟩, htabled⟩ := ih
      refine ⟨hinv.step hstep, fun m hm => ?_⟩
      rcases hstep.shows hinv hm with hm | ⟨tx, map, tx', hst, hst'⟩
      · exact htabled m hm
      · obtain ⟨rows, hrep⟩ := htabled map (Or.inr (by rw [hst]; rfl))
        exact ⟨rows, hrep.congr (hbeside tx map tx' m hst hst')⟩
  | @call w tx map map' t' _ hst hcall hread ih =>
      obtain ⟨⟨pages, hinv⟩, htabled⟩ := ih
      obtain ⟨hinv', hrows⟩ := hinv.tableCall hs htabled hst hcall hread
      refine ⟨⟨pages, hinv'⟩, fun m hm => ?_⟩
      rcases hm with hm | hm
      · exact htabled m (Or.inl hm)
      · rw [← Option.some.inj hm]
        exact hrows

/-- **Secondary indexes always mirror the rows.** In every state of every run, in every version and
in the transaction, each index of the table has one key for each row, with no value, and no other;
and no call fails because an index is not as it should be, nor does reading a scanner. -/
theorem indexes_mirror_rows (hs : tdef.Sound) (h : TableRun tdef w) :
    (∀ m, w.Shows m → ∃ rows, tdef.Represents m rows ∧ ∀ (i p : Nat) (cols : List Bytes),
      tdef.indexPrefixes[i]? = some p → tdef.indexes[i]? = some cols → tdef.Mirrors m rows p cols) ∧
    (∀ tx map, w.stage = .running tx map →
      (∀ rec mode, dbUpdate tdef rec mode tx.tree ≠ .error (.asserts .indexDone)) ∧
      (∀ rec, dbDelete tdef rec tx.tree ≠ .error (.asserts .indexDone)) ∧
      ∀ sc, Scanner.Walks tx.tree tdef sc → sc.deref tx.tree tdef ≠ .error (.asserts .scanFound)) ∧
    ∀ id ∈ w.readers, ∀ sc, Scanner.Walks ((w.reader id).tree w.file) tdef sc →
      sc.deref ((w.reader id).tree w.file) tdef ≠ .error (.asserts .scanFound) := by
  obtain ⟨⟨pages, hinv⟩, htabled⟩ := h.tabled hs
  refine ⟨fun m hm => ?_, fun tx map hst => ?_, fun id hid sc hsc hfound => ?_⟩
  · obtain ⟨rows, hrep⟩ := htabled m hm
    exact ⟨rows, hrep, fun i p cols hp hcols => hrep.mirrors hs hp hcols⟩
  · obtain ⟨rows, hrep⟩ := htabled map (Or.inr (by rw [hst]; rfl))
    have hstage := hinv.stage
    rw [hst] at hstage
    obtain ⟨b, hbegan, _, ps, ht⟩ := hstage
    have hlaw := TxPages.lawful hbegan.sound
    -- an overflow is the one fault that may stop a call, and an assertion is none
    have hE : ∀ what, ¬ ((Fault.throws what) = .overflow) := fun _ he => nomatch he
    refine ⟨fun rec mode hdone => ?_, fun rec hdone => ?_, fun sc hsc hfound => ?_⟩
    · have hspec := dbUpdate_spec hlaw hE hs hrep rec mode tx.tree ps ht
      rw [hdone] at hspec
      rcases hspec with hf | hf <;> cases hf
    · have hspec := dbDelete_spec hlaw hE hs hrep rec tx.tree ps ht
      rw [hdone] at hspec
      rcases hspec with hf | hf <;> cases hf
    · rcases hsc.deref hs (ht.readable hlaw) hrep with ⟨_, _, _, hok⟩ | hno
      · rw [hok] at hfound
        cases hfound
      · rw [hno] at hfound
        cases hfound
  · obtain ⟨V, hV, _, hread⟩ := hinv.reader_readable hid
    obtain ⟨rows, hrep⟩ := htabled V.map (Or.inl ⟨V, hV, rfl⟩)
    rcases hsc.deref hs hread hrep with ⟨_, _, _, hok⟩ | hno
    · rw [hok] at hfound
      cases hfound
    · rw [hno] at hfound
      cases hfound

/-! ### Rows in a new table -/

/-- Rows that go in. -/
theorem TableRun.rows (h : TableRun tdef w) {tx : KVTX} {map : Contents}
    (hst : w.stage = .running tx map) {L : List (List Value)} {t' : BTree (FreeList TxPages)}
    (hin : RowsIn tdef tx.tree map L t') : TableRun tdef
      { w with stage := .running { tx with tree := t' } (tdef.withRows map L) } := by
  induction L generalizing w tx map with
  | nil =>
      cases hin
      have hself : { w with stage := .running { tx with tree := tx.tree } (tdef.withRows map []) } =
          w := by
        show { w with stage := .running tx map } = w
        rw [← hst]
      rwa [hself]
  | cons row L ih =>
      cases hin with
      | @cons _ t₁ _ _ _ _ hcall hread hin =>
          exact @ih _ (.call h hst (.update hcall) hread) { tx with tree := t₁ } _ rfl hin

/-- Their keys in the index. -/
theorem indexes_mirror_rows_three : ∃ w rows, TableRun indexed w ∧
    w.Shows (indexed.withRows [] threeRows) ∧
    indexed.Mirrors (indexed.withRows [] threeRows) rows 4 [.ofString "v", .ofString "k"] := by
  have hbegun : TableRun indexed { stage := .running (KV.fresh.begin .empty) [] } :=
    .beside .start (.begin rfl) fun _ _ _ _ he => nomatch he
  obtain ⟨t', hin, _, _⟩ := Roomy.rows indexed_sound threeRows_stored (by decide)
    (DB.roomy_begin (n := 0 + 6) (by decide)) (TableDef.represents_empty indexed) fun _ _ => rfl
  have hrun := hbegun.rows rfl hin
  obtain ⟨rows, _, hmirror⟩ := (indexes_mirror_rows indexed_sound hrun).1 _ (Or.inr rfl)
  exact ⟨_, rows, hrun, Or.inr rfl, hmirror 0 4 _ rfl rfl⟩

end World

end SqlDb
