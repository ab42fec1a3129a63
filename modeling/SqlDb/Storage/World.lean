import SqlDb.Storage.Version

/-!
# The store against its disk

The calls of the store, taken apart where something else can come in between. Readers
begin and end at any moment. A commit writes page by page and can stop at any of them;
what it wrote is seen through the mapping at once, and is durable only after an `fsync`
that succeeds. A power loss keeps what is durable and any of the writes since, each for
itself, and the file is opened again.

`history`, `map` and `seen` are ghosts: what was published, what the running
transaction's calls add up to, and what was published when a reader began. They are
filled in by the reference operations on sorted lists, never by reading the tree.
-/

namespace SqlDb

open Outcome

/-- Where the writer is. A commit is in `writing` up to its first `fsync`, in `synced` until
`root_` and `version_` are set, in `published` until the meta page is written, and in `rooted` until
the second `fsync`. -/
inductive Stage where
  | idle
  | running (tx : KVTX) (map : Contents)
  | writing (tx : KVTX) (map : Contents) (todo : List PageWrite)
  | synced (tx : KVTX) (map : Contents)
  | published
  | rooted

structure World where
  /-- What is durable. -/
  disk : File := .empty
  /-- Written since the last successful `fsync`, the first first. -/
  pending : List PageWrite := []
  kv : KV := .fresh
  stage : Stage := .idle
  reader : Nat → KVReader := fun _ => {}
  seen : Nat → Contents := fun _ => []
  /-- The published versions, by number. -/
  history : List Version := [.initial]

namespace World

/-- The file as every process sees it. -/
def file (w : World) : File := w.disk.pwrites w.pending

/-- The numbers of the open readers, which are those in the heap. -/
def readers (w : World) : Multiset Nat := w.kv.readers.readers

/-- The version the store is at. -/
def latest (w : World) : Version := w.history.getD w.kv.version .initial

def beginRead (w : World) (id : Nat) : World :=
  { w with
    kv := (w.kv.beginRead id).2
    reader := Function.update w.reader id (w.kv.beginRead id).1
    seen := Function.update w.seen id w.latest.map }

/-- What a commit of `tx` is to publish. -/
def next (w : World) (tx : KVTX) (map : Contents) : Version where
  root := tx.tree.root
  flushed := w.kv.flushed + tx.free.pages.pageAppend
  freeState := tx.free.state
  version := w.kv.version + 1
  map := map
  nodes := tx.free.nodes
  items := tx.free.items

/-- The meta page's write. -/
def rootWrite (w : World) : PageWrite := ⟨0, w.kv.saveMeta⟩

/-- What a successful `fsync` does. -/
def sync (w : World) : World := { w with disk := w.file, pending := [] }

/-- The store opened on what a power loss left of the file. -/
def restart (w : World) (kept : List PageWrite) (kv : KV) : World where
  disk := w.disk.pwrites kept
  kv := kv
  history := w.history.take (kv.version + 1)

/-- One step of a run. A call that throws an argument out changes nothing and is no step; one that
fails an assertion ends the run. -/
inductive Step : World → World → Prop where
  | beginRead {w : World} {id : Nat} : id ∉ w.readers → Step w (w.beginRead id)
  | endRead {w : World} {id : Nat} {kv : KV} : id ∈ w.readers → w.kv.endRead id = .ok kv →
      Step w { w with kv := kv }
  | begin {w : World} : w.stage = .idle →
      Step w { w with stage := .running (w.kv.begin w.file) w.latest.map }
  | set {w : World} {tx tx' : KVTX} {map : Contents} {key val : Bytes} :
      w.stage = .running tx map → tx.set key val = .ok tx' →
      Step w { w with stage := .running tx' (OrdMap.insert map key val) }
  | del {w : World} {tx tx' : KVTX} {map : Contents} {key : Bytes} {found : Bool} :
      w.stage = .running tx map → tx.del key = .ok (found, tx') →
      Step w { w with stage := .running tx' (OrdMap.erase map key) }
  | abort {w : World} {tx : KVTX} {map : Contents} : w.stage = .running tx map →
      Step w { w with stage := .idle }
  /-- `commit` without writes. -/
  | commitNone {w : World} {tx : KVTX} {map : Contents} : w.stage = .running tx map →
      tx.tree.root = w.kv.root → Step w { w with stage := .idle }
  /-- `mmap` fails. -/
  | mmapFails {w : World} {tx : KVTX} {map : Contents} : w.stage = .running tx map →
      tx.tree.root ≠ w.kv.root → Step w { w with stage := .idle }
  /-- `write_pages` starts. -/
  | commit {w : World} {tx : KVTX} {map : Contents} : w.stage = .running tx map →
      tx.tree.root ≠ w.kv.root → Step w { w with
        kv := w.kv.extendMmap (w.kv.commitSize tx)
        stage := .writing tx map (pageWrites tx.pageUpdates) }
  | write {w : World} {tx : KVTX} {map : Contents} {pw : PageWrite} {todo : List PageWrite} :
      w.stage = .writing tx map (pw :: todo) →
      Step w { w with pending := w.pending ++ [pw], stage := .writing tx map todo }
  /-- `pwritev` or the first `fsync` fails, after any of the writes left. -/
  | writeFails {w : World} {tx : KVTX} {map : Contents} {todo landed : List PageWrite} :
      w.stage = .writing tx map todo → landed.Sublist todo →
      Step w { w with pending := w.pending ++ landed, stage := .idle }
  | sync {w : World} {tx : KVTX} {map : Contents} : w.stage = .writing tx map [] →
      Step w { w.sync with stage := .synced tx map }
  /-- Versions stay below half of `uint64_t`. -/
  | publish {w : World} {tx : KVTX} {map : Contents} : w.stage = .synced tx map →
      w.kv.version + 1 < 2 ^ 63 → Step w { w with
        kv := w.kv.publish tx
        history := w.history ++ [w.next tx map]
        stage := .published }
  | writeRoot {w : World} : w.stage = .published →
      Step w { w with pending := w.pending ++ [w.rootWrite], stage := .rooted }
  /-- The meta page's `pwrite` fails, with nothing written. If it was, the second `fsync` is the
  one to fail. -/
  | rootFails {w : World} : w.stage = .published → Step w { w with stage := .idle }
  | settle {w : World} : w.stage = .rooted →
      Step w { w.sync with kv := w.kv.settle, stage := .idle }
  /-- The second `fsync` fails. -/
  | settleFails {w : World} : w.stage = .rooted → Step w { w with stage := .idle }
  | powerLoss {w : World} {kept : List PageWrite} {kv : KV} : kept.Sublist w.pending →
      KV.readRoot (w.disk.pwrites kept) = .ok kv → Step w (w.restart kept kv)

/-- The states of runs that start from a new file. -/
inductive Reachable : World → Prop where
  | start : Reachable {}
  | step {w w' : World} : Reachable w → Step w w' → Reachable w'

/-! ## What a power loss can bring back -/

end World

/-- The file starts with these bytes. -/
def File.HoldsMeta (f : File) (data : Bytes) : Prop :=
  metaDataSize ≤ f.size ∧ Bytes.readAt (f.page 0) 0 metaDataSize = data

/-- The file has no meta page yet. -/
def File.NoMeta (f : File) : Prop := Bytes.readAt (f.page 0) 0 2 ≠ dbSig

namespace World

/-- A power loss may leave the version's meta page: it is the durable one, or was written since. -/
def MayHold (w : World) (V : Version) : Prop :=
  w.disk.HoldsMeta V.save ∨ ⟨0, V.save⟩ ∈ w.pending

/-- Some commit is durable. -/
def Durable (w : World) : Prop := ¬ w.disk.NoMeta

/-- The version may still be read: it is the latest, an open reader's, or one a power loss may
bring back. -/
structure Protected (w : World) (V : Version) : Prop where
  mem : V ∈ w.history
  ne : V.version ≠ 0
  why : V.version = w.kv.version ∨ (∃ id ∈ w.readers, (w.reader id).version = V.version) ∨
    w.MayHold V

end World

end SqlDb
