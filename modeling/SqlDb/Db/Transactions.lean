import SqlDb.Db.DBReader
import SqlDb.Db.Durability

/-!
# Calls of transactions and of readers

A call of the write transaction that returned is an entry of the journal, and does to the
relations what it means. A reader's calls answer from the relations of the version that it
began on, whatever the write transaction did since.
-/

namespace SqlDb

open Outcome OrdMap

/-! ## Readers -/

/-- An open reader reads a version, and its tree stands for what that version holds. -/
theorem World.Inv.reading {w : World} {pages : Nat → Multiset Nat} (h : w.Inv pages) {id : Nat}
    (hid : id ∈ w.readers) : ∃ V, w.Reads id V ∧ ((w.reader id).tree w.file).Readable (w.seen id) := by
  obtain ⟨V, hV⟩ := h.base.reads id hid
  obtain ⟨ps, hview, _⟩ := h.view hid
  refine ⟨V, hV, ps, ?_, fun p hp => (hview.page p hp).1, hview.count⟩
  exact hview.tree.congr fun p hp => (hview.page p hp).2

/-- A result that is made a reply is of the same call. -/
theorem DBTX.reply_left {σ α : Type} {f : α → DBReply} {c : Call σ α} {tx tx' : DBTX σ}
    {r : Except String DBReply} (h : reply f c tx = .ok (r, tx')) : ∃ r', c tx = .ok (r', tx') := by
  unfold reply at h
  cases hc : c tx with
  | error e =>
      rw [hc] at h
      cases h
  | ok out =>
      rw [hc] at h
      obtain ⟨r', tx1⟩ := out
      cases r' with
      | error what =>
          obtain ⟨_, rfl⟩ := Prod.mk.inj (Except.ok.inj h)
          exact ⟨_, rfl⟩
      | ok a =>
          obtain ⟨_, rfl⟩ := Prod.mk.inj (Except.ok.inj h)
          exact ⟨_, rfl⟩

namespace DBReader

variable {σ α : Type} [PageManager σ] {m : Contents} {rd rd' : DBReader σ} {op : ReadOp}

/-- A reader's call leaves the tree, and what it has of the catalog is in the bindings. -/
theorem call_good {r : Except String DBReply} (hread : rd.tree.Readable m)
    (hgood : rd.asTx.catalog.Good m) (hcall : call op rd = .ok (r, rd')) :
    rd'.tree = rd.tree ∧ rd'.asTx.catalog.Good m := by
  have htable : ∀ {ε α : Type} {f : Except ε α → DBReply} {table : Bytes} {miss : Bytes → ε}
      (look : TableDef → BTree σ → Except Fault (Except ε α)),
      DBTX.reply f (DBTX.onTable table miss fun tdef => Tx.look (look tdef)) rd.asTx =
        .ok (r, rd'.asTx) → rd'.tree = rd.tree ∧ rd'.asTx.catalog.Good m := by
    intro ε α f table miss look h
    obtain ⟨r', hrun⟩ := DBTX.reply_left h
    exact DBTX.onTable_look hread hgood hrun
  have hcall := (mirrors_call op).ok hcall
  cases op with
  | get table rec => exact htable (fun tdef t => dbGet t tdef rec) hcall
  | scan table req => exact htable (fun tdef t => dbScan t tdef req) hcall
  | tableDef table => exact htable (fun tdef _ => .ok (.ok tdef)) hcall

end DBReader

namespace DB

/-- The open reader, with the definitions it has read so far. -/
def opened (db : DB) (id : Nat) (tables : Bytes → Option TableDef) : DBReader MappedPages :=
  ⟨(db.world.reader id).tree db.world.file, tables⟩

/-- What a reader's calls do, any of them. -/
abbrev Uses := DBReader MappedPages → DBReader MappedPages → Prop

/-- A reader `id` that was opened somewhere in a run, with calls of its own and steps of the run
since. It has read these definitions. -/
inductive Reading (ok : DBOp → Prop) (uses : Uses) (id : Nat) :
    DB → (Bytes → Option TableDef) → Prop where
  | begin {db : DB} : Reachable ok db → id ∉ db.world.readers →
      Reading ok uses id { db with world := db.world.beginRead id } fun _ => none
  | use {db : DB} {tables : Bytes → Option TableDef} {rd' : DBReader MappedPages} :
      Reading ok uses id db tables → uses (db.opened id tables) rd' →
        Reading ok uses id db rd'.tables
  | step {db db' : DB} {tables : Bytes → Option TableDef} : Reading ok uses id db tables →
      Step ok db db' → id ∈ db'.world.readers → Reading ok uses id db' tables

/-- What is used leaves what the reader has of the catalog in the bindings. -/
def Uses.Good (uses : Uses) : Prop := ∀ {rd rd' m}, uses rd rd' → rd.tree.Readable m →
  rd.asTx.catalog.Good m → rd'.asTx.catalog.Good m

section Reading

variable {ok : DBOp → Prop} {uses : Uses} {db db' : DB} {id : Nat}
  {tables : Bytes → Option TableDef}
  {pages : Nat → Multiset Nat}

/-- A step leaves an open reader on its version. -/
theorem Step.reader (hstep : Step ok db db') (hinv : db.world.Inv pages)
    (hid : id ∈ db.world.readers) (hid' : id ∈ db'.world.readers) :
    db'.world.reader id = db.world.reader id ∧ db'.world.seen id = db.world.seen id := by
  rcases hstep.store with hworld | ⟨stage, hworld⟩
  · obtain ⟨hreader, hseen, _⟩ := hinv.step_reader hworld hid hid'
    exact ⟨hreader, hseen⟩
  · rw [hworld]
    exact ⟨rfl, rfl⟩

/-- The reader just opened is open. -/
theorem mem_beginRead (hb : db.world.Base pages) (hid : id ∉ db.world.readers) :
    id ∈ (db.world.beginRead id).readers := by
  obtain ⟨_, hreaders, _⟩ :=
    ReaderHeap.push_spec (hb.heap.setVersion hid db.world.kv.version) (r := id) hid
  show id ∈ (db.world.kv.beginRead id).2.readers.readers
  rw [KV.beginRead, hreaders]
  exact Multiset.mem_cons_self _ _

/-- **An open reader** has of the catalog what is in its version. -/
theorem Reading.good (huses : uses.Good) (h : Reading ok uses id db tables) :
    Reachable ok db ∧ id ∈ db.world.readers ∧
      (db.opened id tables).asTx.catalog.Good (db.world.seen id) := by
  induction h with
  | begin hr hid =>
      obtain ⟨pages, hinv⟩ := hr.world
      exact ⟨.step hr (.beginRead hid), mem_beginRead hinv.base hid, fun _ _ he => nomatch he⟩
  | use _ huse ih =>
      obtain ⟨hr, hid, hgood⟩ := ih
      obtain ⟨pages, hinv⟩ := hr.world
      obtain ⟨V, _, hread⟩ := hinv.reading hid
      have hgood' := huses huse hread hgood
      exact ⟨hr, hid, hgood'⟩
  | step _ hstep hid' ih =>
      obtain ⟨hr, hid, hgood⟩ := ih
      obtain ⟨pages, hinv⟩ := hr.world
      obtain ⟨_, hseen⟩ := hstep.reader hinv hid hid'
      refine ⟨.step hr hstep, hid', ?_⟩
      rw [hseen]
      exact hgood

end Reading

/-! ## Calls -/

/-- A call of the write transaction, and the database after it. -/
def Calling (db : DB) (op : DBOp) (r : Except String DBReply) (db' : DB) : Prop :=
  ∃ tx map tx' map', db.world.stage = .running tx map ∧
    DBTX.call op (db.session tx) = .ok (r, tx') ∧ tx'.tree.Readable map' ∧
    db' = db.called tx map op r tx' map'

/-- The calls of transactions, one by one. -/
def calls : Acts (DBOp × DBReply) where
  returned db e db' := e.1.Proper ∧ db.Calling e.1 (.ok e.2) db'
  threw db db' := ∃ op what, op.Proper ∧ db.Calling op (.error what) db'

/-- The calls of readers. -/
def readCalls : Uses := fun rd rd' => ∃ op r, DBReader.call op rd = .ok (r, rd')

theorem readCalls_good : readCalls.Good := by
  rintro rd rd' m ⟨op, r, hcall⟩ hread hgood
  exact (DBReader.call_good hread hgood hcall).2

section Calls

variable {db db' : DB} {j : Journal (DBOp × DBReply)}

theorem Calling.calls {op : DBOp} {r : Except String DBReply} (h : db.Calling op r db')
    (hop : op.Proper) : db.world.stage.Running ∧ Calls DBOp.Proper db db' := by
  obtain ⟨tx, map, tx', map', hst, hcall, hread, rfl⟩ := h
  exact ⟨⟨tx, map, hst⟩, .call .refl hst hop hcall hread⟩

/-- **Calls do to the relations what they mean.** -/
theorem calls_lawful : calls.Lawful (fun _ => True) fun D e D' => D.Call e.1 e.2 D' where
  returned _ h := h.2.calls h.1
  threw _ h := by
    obtain ⟨op, what, hop, hcalling⟩ := h
    exact hcalling.calls hop
  refines := by
    rintro db ⟨op, reply⟩ db' pages tx map D ⟨hop, hcalling⟩ hsound hinv hn hst hstands _
    obtain ⟨tx1, map1, tx', map', hst1, hcall, hread, rfl⟩ := hcalling
    obtain ⟨rfl, rfl⟩ := Stage.running.inj (hst.symm.trans hst1)
    have hmap : db.world.stage.map? = some map := by
      rw [hst]
      rfl
    have hstage := hinv.stage
    rw [hst] at hstage
    obtain ⟨b, hbegan, _, ps, ht⟩ := hstage
    obtain ⟨D', hstep, hstands'⟩ := hstands.call (TxPages.lawful hbegan.sound).stops
      (hsound.views map (Or.inr hmap)) (hsound.cached.running tx map hst).1
      (show (db.session tx).tree.Denotes _ map ps from ht) hop hn hcall hread
    exact ⟨_, map', D', rfl, hstep, hstands', trivial⟩

/-- The relations of the version that a reader is on. -/
theorem Serial.version {ε : Type} {P : Relations → Prop} {step : Relations → ε → Relations → Prop}
    {j : Journal ε} {Ds : List Relations} {pages : Nat → Multiset Nat} (h : Serial P step db j Ds)
    (hinv : db.world.Inv pages) {id : Nat} (hid : id ∈ db.world.readers) :
    ∃ D, Ds[(db.world.reader id).version]? = some D ∧ Stands (db.world.seen id) D ∧ P D ∧
      ((db.world.reader id).tree db.world.file).Readable (db.world.seen id) ∧
      db.world.Shows (db.world.seen id) := by
  obtain ⟨V, hV, hread⟩ := hinv.reading hid
  obtain ⟨D, hD, hstands, hP⟩ := h.stands V.version V (hinv.base.mem_iff.mp hV.mem)
  rw [hV.version, hV.seen]
  rw [hV.seen] at hread
  exact ⟨D, hD, hstands, hP, hread, Or.inl ⟨V, hV.mem, rfl⟩⟩

end Calls

/-! ## A first transaction -/

section First

variable {ε : Type} {A : Acts ε} {P : Relations → Prop} {step : Relations → ε → Relations → Prop}
  {db : DB} {es : List ε} {tx : KVTX} {map : Contents}

/-- The first transaction begins. -/
theorem orderly_begun (A : Acts ε) : Orderly A begun (({} : Journal ε).next begun) := by
  have hidle : ¬ (({} : DB).world.stage.Running) := fun ⟨_, _, he⟩ => nomatch he
  exact .next .refl (.step (.begin rfl) (fun hrunning => absurd hrunning hidle) fun he => nomatch he)

/-- One that left bindings can be committed. -/
theorem Orderly.first_commit (hA : A.Lawful P step) (hP : P fun _ => none)
    (h : Orderly A db { current := es }) (hst : db.world.stage = .running tx map)
    (hread : tx.tree.Readable map) (hne : map ≠ []) (hkv : db.world.kv = .fresh)
    (hn : db.allocated < 2 ^ 32 - 3) : ∃ db', Orderly A db' { committed := [es] } ∧
      db'.world.stage = .rooted ∧ db'.world.kv.version = 1 ∧ db'.allocated = db.allocated := by
  have hroot : tx.tree.root ≠ db.world.kv.root := by
    obtain ⟨ps, ht, _⟩ := hread
    rw [hkv]
    exact ht.elim (fun h => absurd h.2.1 hne) fun h => h.1
  obtain ⟨db', hcommits, hrooted, halloc⟩ := Follows.commits (A := A) (j := { current := es }) hst hroot
    (by rw [hkv]; decide) (by rw [hkv]; rfl) rfl
  have horderly : Orderly A db' { committed := [es] } := Follows.trans h hcommits
  obtain ⟨_, hserial⟩ := Orderly.serial hA hP horderly (by rwa [halloc])
  exact ⟨db', horderly, hrooted, hserial.count.symm, halloc⟩

/-- A reader can be opened on what it left. -/
theorem Orderly.first_read (hA : A.Lawful P step) (uses : Uses)
    (h : Orderly A db { committed := [es] }) (hrooted : db.world.stage = .rooted)
    (hversion : db.world.kv.version = 1) : ∃ db' id, Orderly A db' { committed := [es] } ∧
      Reading DBOp.Proper uses id db' (fun _ => none) ∧ (db'.world.reader id).version = 1 ∧
      db'.allocated = db.allocated := by
  obtain ⟨id, hid⟩ := Infinite.exists_notMem_finset db.world.readers.toFinset
  rw [Multiset.mem_toFinset] at hid
  have hstep : Step DBOp.Proper db { db with world := db.world.beginRead id } := .beginRead hid
  have hadvances := Advances.commits (A := A) (j := { committed := [es] }) hstep
    (not_running (hrooted ▸ Or.inr (Or.inr (Or.inr rfl)))) rfl
  have hnext : Journal.next { committed := [es] } { db with world := db.world.beginRead id } =
      { committed := [es] } := by
    have hstage : (db.world.beginRead id).stage = .rooted := hrooted
    have hkv : (db.world.beginRead id).kv.version = 1 := hversion
    unfold Journal.next
    dsimp only
    rw [hstage, hkv]
    rfl
  rw [hnext] at hadvances
  refine ⟨_, id, h.next hadvances, .begin (h.reachable hA) hid, ?_, rfl⟩
  show (Function.update db.world.reader id (db.world.kv.beginRead id).1 id).version = 1
  rw [Function.update_self, ← hversion]
  rfl

end First

end DB

end SqlDb
