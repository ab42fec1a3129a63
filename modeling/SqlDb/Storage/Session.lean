import SqlDb.Storage.Cursor
import SqlDb.Storage.FirstCommit

/-!
# Calls of one process

The calls a process makes on its store, one after another, each with what it returns. What
the outside decides is part of the call: how far the writes of a commit get. So a list of
calls has one outcome, and two stores can be compared by what a caller sees of each.
-/

namespace SqlDb

open Outcome OrdMap

/-- How a commit that has writes ends. -/
inductive CommitEnd where
  /-- `mmap` fails, before anything is written. -/
  | mmapFails
  /-- `pwritev` or the first `fsync` fails, with these of the buffered pages in the file. -/
  | writeFails (landed : Nat → Bool)
  /-- The meta page's `pwrite` fails. -/
  | rootFails
  /-- The second `fsync` fails. -/
  | settleFails
  | completes

/-- The commit fails in phase 1. -/
def CommitEnd.Early : CommitEnd → Prop
  | .mmapFails => True
  | .writeFails _ => True
  | _ => False

/-- A call of the store, of an open reader, or of the running transaction. A `seek` comes with the
steps its iterator takes. -/
inductive StoreCall where
  | beginRead (id : Nat)
  | endRead (id : Nat)
  | readerGet (id : Nat) (key : Bytes)
  | readerSeek (id : Nat) (key : Bytes) (cmp : CMP) (moves : List Move)
  | begin
  | get (key : Bytes)
  | seek (key : Bytes) (cmp : CMP) (moves : List Move)
  | set (key val : Bytes)
  | del (key : Bytes)
  | commit (how : CommitEnd)
  | abort

inductive StoreReply where
  | done
  /-- A commit threw. -/
  | failed
  /-- An argument was refused. -/
  | threw (what : String)
  | found (val : Option Bytes)
  /-- Where the iterator is. -/
  | entry (r : Option (Bytes × Bytes))
  | deleted (found : Bool)
  /-- There is no such reader, or no transaction, or there is one already. -/
  | notNow

namespace World

/-! ## A commit, to its end -/

/-- `KV::commit` of a transaction, which is over however the commit ends. -/
def commit (w : World) (tx : KVTX) (map : Contents) (how : CommitEnd) :
    Except Fault (StoreReply × World) :=
  let w := { w with stage := .idle }
  if tx.tree.root = w.kv.root then
    return (.done, w)
  else
    match how with
    | .mmapFails => return (.failed, w)
    | .writeFails landed =>
        return (.failed, (w.mapped tx).wrote
          ((pageWrites tx.pageUpdates).filter fun pw => landed pw.ptr))
    | .rootFails => do
        require (w.kv.version + 1 < 2 ^ 63) .overflow
        return (.failed, (w.phaseOne tx).published tx map)
    | .settleFails => do
        require (w.kv.version + 1 < 2 ^ 63) .overflow
        let w := (w.phaseOne tx).published tx map
        return (.failed, w.wrote [w.rootWrite])
    | .completes => do
        require (w.kv.version + 1 < 2 ^ 63) .overflow
        let w := (w.phaseOne tx).published tx map
        return (.done, (w.wrote [w.rootWrite]).settled)

/-! ## The calls -/

/-- A call that throws an argument out changes nothing. -/
def caught (w : World) : Except Fault (StoreReply × World) → Except Fault (StoreReply × World)
  | .error (.throws what) => .ok (.threw what, w)
  | r => r

/-- A call that only reads. -/
def reads {α : Type} (w : World) (reply : α → StoreReply) (r : Except Fault α) :
    Except Fault (StoreReply × World) :=
  w.caught do
    let a ← r
    return (reply a, w)

/-- A call of the reader `id`. -/
def ofReader {α : Type} (w : World) (id : Nat) (reply : α → StoreReply)
    (f : BTree MappedPages → Except Fault α) : Except Fault (StoreReply × World) :=
  if id ∈ w.readers then w.reads reply (f ((w.reader id).tree w.file)) else .ok (.notNow, w)

/-- A call of the running transaction. -/
def ofTx (w : World) (f : KVTX → Contents → Except Fault (StoreReply × World)) :
    Except Fault (StoreReply × World) :=
  match w.stage with
  | .running tx map => f tx map
  | _ => .ok (.notNow, w)

def openReader (w : World) (id : Nat) : Except Fault (StoreReply × World) :=
  if id ∈ w.readers then .ok (.notNow, w) else .ok (.done, w.beginRead id)

def closeReader (w : World) (id : Nat) : Except Fault (StoreReply × World) :=
  if id ∈ w.readers then do
    let kv ← w.kv.endRead id
    return (.done, { w with kv := kv })
  else
    return (.notNow, w)

/-- The writer's lock is free. -/
def openTx (w : World) : Except Fault (StoreReply × World) :=
  match w.stage with
  | .idle => .ok (.done, { w with stage := .running (w.kv.begin w.file) w.latest.map })
  | _ => .ok (.notNow, w)

def call (w : World) : StoreCall → Except Fault (StoreReply × World)
  | .beginRead id => w.openReader id
  | .endRead id => w.closeReader id
  | .readerGet id key => w.ofReader id .found fun t => t.get key
  | .readerSeek id key cmp moves => w.ofReader id .entry fun t => t.walk key cmp moves
  | .begin => w.openTx
  | .get key => w.ofTx fun tx _ => w.reads .found (tx.tree.get key)
  | .seek key cmp moves => w.ofTx fun tx _ => w.reads .entry (tx.tree.walk key cmp moves)
  | .set key val => w.ofTx fun tx map => w.caught do
      let tx ← tx.set key val
      return (.done, { w with stage := .running tx (OrdMap.insert map key val) })
  | .del key => w.ofTx fun tx map => w.caught do
      let (found, tx) ← tx.del key
      return (.deleted found, { w with stage := .running tx (erase map key) })
  | .commit how => w.ofTx fun tx map => w.commit tx map how
  | .abort => w.ofTx fun _ _ => .ok (.done, { w with stage := .idle })

end World

/-! ## What is seen -/

/-- What a transaction is at: its root, its list, and the numbers of the pages it appended and
wrote. -/
structure TxNumbers where
  version : Nat
  root : Nat
  free : FreeListState
  pageAppend : Nat
  updates : List Nat
  map : Contents

/-- What a store is at: the numbers of its committed pages, every committed map with its root and
list, and the running transaction. -/
structure Numbers where
  root : Nat
  version : Nat
  durableVersion : Nat
  flushed : Nat
  free : FreeListState
  history : List Version
  tx : Option TxNumbers

namespace World

def numbers (w : World) : Numbers where
  root := w.kv.root
  version := w.kv.version
  durableVersion := w.kv.durableVersion
  flushed := w.kv.flushed
  free := w.kv.free
  history := w.history
  tx := match w.stage with
    | .running tx map => some {
        version := tx.version
        root := tx.tree.root
        free := tx.free.state
        pageAppend := tx.free.pages.pageAppend
        updates := tx.pageUpdates.map Prod.fst
        map := map }
    | _ => none

/-- What each call returns, and where it leaves the store. The first that does not return is the
last. -/
def results (w : World) : List StoreCall → List (Except Fault (StoreReply × Numbers))
  | [] => []
  | c :: calls =>
      match w.call c with
      | .ok (reply, w') => .ok (reply, w'.numbers) :: w'.results calls
      | .error f => [.error f]

/-! ## Calls are steps -/

section Runs

variable {w w' : World} {tx : KVTX} {map : Contents} {reply : StoreReply}

theorem commit_runs (hrun : w.stage = .running tx map) {how : CommitEnd}
    (h : w.commit tx map how = .ok (reply, w')) : Runs w w' := by
  unfold World.commit at h
  dsimp only at h
  by_cases hroot : tx.tree.root = w.kv.root
  · rw [if_pos hroot] at h
    cases h
    exact .single (.commitNone hrun hroot)
  rw [if_neg hroot] at h
  cases how with
  | mmapFails =>
      cases h
      exact .single (.mmapFails hrun hroot)
  | writeFails landed =>
      cases h
      exact .head (.commit hrun hroot) (.single (.writeFails rfl List.filter_sublist))
  | rootFails =>
      obtain ⟨_, hlt, he⟩ := bind_eq_ok.mp h
      cases he
      exact (runs_published hrun hroot (require_eq_ok.mp hlt)).tail (.rootFails rfl)
  | settleFails =>
      obtain ⟨_, hlt, he⟩ := bind_eq_ok.mp h
      cases he
      exact ((runs_published hrun hroot (require_eq_ok.mp hlt)).tail (.writeRoot rfl)).tail
        (.settleFails rfl)
  | completes =>
      obtain ⟨_, hlt, he⟩ := bind_eq_ok.mp h
      cases he
      exact ((runs_published hrun hroot (require_eq_ok.mp hlt)).tail (.writeRoot rfl)).tail
        (.settle rfl)

theorem runs_caught {r : Except Fault (StoreReply × World)} (h : w.caught r = .ok (reply, w'))
    (hr : r = .ok (reply, w') → Runs w w') : Runs w w' := by
  cases r with
  | ok a => exact hr h
  | error f =>
      cases f with
      | throws what =>
          cases h
          exact .refl
      | _ => cases h

theorem runs_reads {α : Type} {f : α → StoreReply} {r : Except Fault α}
    (h : w.reads f r = .ok (reply, w')) : Runs w w' := by
  refine runs_caught h fun hr => ?_
  obtain ⟨_, _, he⟩ := bind_eq_ok.mp hr
  cases he
  exact .refl

theorem runs_ofReader {α : Type} {id : Nat} {f : α → StoreReply}
    {g : BTree MappedPages → Except Fault α} (h : w.ofReader id f g = .ok (reply, w')) :
    Runs w w' := by
  unfold World.ofReader at h
  split at h
  · exact runs_reads h
  · cases h
    exact .refl

theorem runs_ofTx {f : KVTX → Contents → Except Fault (StoreReply × World)}
    (h : w.ofTx f = .ok (reply, w'))
    (hf : ∀ tx map, w.stage = .running tx map → f tx map = .ok (reply, w') → Runs w w') :
    Runs w w' := by
  unfold World.ofTx at h
  cases hw : w.stage with
  | running tx map =>
      rw [hw] at h
      exact hf tx map hw h
  | _ =>
      rw [hw] at h
      cases h
      exact .refl

/-- **A call is a run of steps.** -/
theorem call_runs {c : StoreCall} (h : w.call c = .ok (reply, w')) : Runs w w' := by
  cases c with
  | beginRead id =>
      have h : w.openReader id = .ok (reply, w') := h
      unfold World.openReader at h
      split at h
      · cases h
        exact .refl
      · rename_i hid
        cases h
        exact .single (.beginRead hid)
  | endRead id =>
      have h : w.closeReader id = .ok (reply, w') := h
      unfold World.closeReader at h
      split at h
      · rename_i hid
        obtain ⟨kv, hkv, he⟩ := bind_eq_ok.mp h
        cases he
        exact .single (.endRead hid hkv)
      · cases h
        exact .refl
  | readerGet id key =>
      have h : w.ofReader id .found (fun t => t.get key) = .ok (reply, w') := h
      exact runs_ofReader h
  | readerSeek id key cmp moves =>
      have h : w.ofReader id .entry (fun t => t.walk key cmp moves) = .ok (reply, w') := h
      exact runs_ofReader h
  | begin =>
      have h : w.openTx = .ok (reply, w') := h
      unfold World.openTx at h
      cases hw : w.stage with
      | idle =>
          rw [hw] at h
          cases h
          exact .single (.begin hw)
      | _ =>
          rw [hw] at h
          cases h
          exact .refl
  | get key => exact runs_ofTx h fun _ _ _ hr => runs_reads hr
  | seek key cmp moves => exact runs_ofTx h fun _ _ _ hr => runs_reads hr
  | set key val =>
      refine runs_ofTx h fun tx map hrun hr => runs_caught hr fun hr => ?_
      obtain ⟨tx', hset, he⟩ := bind_eq_ok.mp hr
      cases he
      exact .single (.set hrun hset)
  | del key =>
      refine runs_ofTx h fun tx map hrun hr => runs_caught hr fun hr => ?_
      obtain ⟨⟨found, tx'⟩, hdel, he⟩ := bind_eq_ok.mp hr
      cases he
      exact .single (.del hrun hdel)
  | commit how => exact runs_ofTx h fun tx map hrun hr => commit_runs hrun hr
  | abort =>
      refine runs_ofTx h fun tx map hrun hr => ?_
      cases hr
      exact .single (.abort hrun)

end Runs

end World

end SqlDb
