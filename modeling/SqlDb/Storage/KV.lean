import SqlDb.Base.OrdMap
import SqlDb.Storage.File
import SqlDb.Storage.FreeList
import SqlDb.Storage.ReaderHeap

/-!
# The key-value store

One file, one writer at a time, any number of readers. A write transaction works on
its own view of the file: pages it wrote are buffered by number and shadow the mapped
ones, and its free list starts from the committed position. A commit writes the
buffered pages, waits for them to be durable, publishes the new root and version, and
only then writes the meta page.

What a call does to the file is left to the caller here: the functions say which
bytes are written where, and `SqlDb/Storage/World.lean` runs them against a disk that
fails and loses power.
-/

namespace SqlDb

open Outcome

/-! ## The meta page -/

def dbSig : Bytes := [68, 66]
def metaSigSize : Nat := 16

/-- The 8-byte fields following the signature, in order. -/
inductive MetaField where
  | root
  | flushed
  | headPage
  | headSeq
  | tailPage
  | tailSeq
  | version

def MetaField.index : MetaField → Nat
  | root => 0
  | flushed => 1
  | headPage => 2
  | headSeq => 3
  | tailPage => 4
  | tailSeq => 5
  | version => 6

def metaFieldCount : Nat := 7

def metaDataSize : Nat := metaSigSize + metaFieldCount * 8

def metaOffset (field : MetaField) : Nat := metaSigSize + field.index * 8

/-- The decoded meta page: the state of the last committed update. -/
structure Meta where
  root : Nat := 0
  flushed : Nat := 0
  freeState : FreeListState := {}
  version : Nat := 0
deriving DecidableEq, Repr

def parseMeta (data : Bytes) : Meta where
  root := Bytes.readU64 data (metaOffset .root)
  flushed := Bytes.readU64 data (metaOffset .flushed)
  freeState := {
    headPage := Bytes.readU64 data (metaOffset .headPage)
    headSeq := Bytes.readU64 data (metaOffset .headSeq)
    tailPage := Bytes.readU64 data (metaOffset .tailPage)
    tailSeq := Bytes.readU64 data (metaOffset .tailSeq) }
  version := Bytes.readU64 data (metaOffset .version)

/-- The bytes `save_meta` writes for these fields. -/
def Meta.save (m : Meta) : Bytes :=
  let data := List.replicate metaDataSize 0
  let data := Bytes.writeAt data 0 dbSig
  let data := Bytes.writeU64 data (metaOffset .root) m.root
  let data := Bytes.writeU64 data (metaOffset .flushed) m.flushed
  let data := Bytes.writeU64 data (metaOffset .headPage) m.freeState.headPage
  let data := Bytes.writeU64 data (metaOffset .headSeq) m.freeState.headSeq
  let data := Bytes.writeU64 data (metaOffset .tailPage) m.freeState.tailPage
  let data := Bytes.writeU64 data (metaOffset .tailSeq) m.freeState.tailSeq
  Bytes.writeU64 data (metaOffset .version) m.version

/-- The checks of `read_root`: a committed file has the meta page and one list node, every pointer
falls inside it, and every commit counts in its version. -/
def Meta.Valid (m : Meta) : Prop :=
  m.version ≠ 0 ∧ m.flushed ≥ 2 ∧ m.root < m.flushed ∧
    m.freeState.headPage ≠ 0 ∧ m.freeState.headPage < m.flushed ∧
    m.freeState.tailPage ≠ 0 ∧ m.freeState.tailPage < m.flushed ∧
    m.freeState.headSeq ≤ m.freeState.tailSeq

instance (m : Meta) : Decidable m.Valid := by unfold Meta.Valid; infer_instance

/-! ## A transaction's pages -/

/-- `KVTX`'s view of the file: the mapped pages, under the ones it wrote. -/
structure TxPages extends MappedPages where
  /-- `kv_->flushed_` -/
  flushed : Nat
  pageUpdates : List (Nat × Bytes) := []
  pageAppend : Nat := 0

namespace TxPages

def pageRead (s : TxPages) (ptr : Nat) : Except Fault Bytes :=
  match OrdMap.lookup s.pageUpdates ptr with
  | some page => .ok page
  | none => s.pageGetMapped ptr

/-- `page_updates_[ptr] = page` -/
def put (s : TxPages) (ptr : Nat) (page : Bytes) : TxPages :=
  { s with pageUpdates := OrdMap.insert s.pageUpdates ptr page }

def pageUse (s : TxPages) (ptr : Nat) (f : Bytes → Bytes) : Except Fault TxPages := do
  let page ← s.pageRead ptr
  return s.put ptr (f page)

/-- The number after the last page: `kv_->flushed_ + page_append_`. -/
def stop (s : TxPages) : Nat := s.flushed + s.pageAppend

/-- `++page_append_`, and the number of the page that makes. -/
def grow (s : TxPages) : Except Fault (Nat × TxPages) := do
  require (s.stop + 1 < 2 ^ 64) .overflow
  return (s.stop, { s with pageAppend := s.pageAppend + 1 })

def appendPage (s : TxPages) : Except Fault (Nat × TxPages) := do
  let (ptr, s) ← s.grow
  return (ptr, s.put ptr (List.replicate btreePageSize 0))

instance : FreeListPages TxPages where
  readPage := pageRead
  writePage := pageUse
  appendPage := appendPage

/-- The number for a new page: a free one, or the next of the file. -/
def takePage (fl : FreeList TxPages) : Except Fault (Nat × FreeList TxPages) := do
  let (ptr, fl) ← fl.popHead
  if ptr = 0 then
    let (ptr, pages) ← fl.pages.grow
    return (ptr, { fl with pages := pages })
  else
    return (ptr, fl)

def pageGet (fl : FreeList TxPages) (ptr : Nat) : Except Fault BNode := do
  let page ← fl.pages.pageRead ptr
  decode page

def pageNew (fl : FreeList TxPages) (node : BNode) : Except Fault (Nat × FreeList TxPages) := do
  let (ptr, fl) ← takePage fl
  let page ← encode node
  return (ptr, { fl with pages := fl.pages.put ptr page })

def pageDel (fl : FreeList TxPages) (ptr : Nat) : Except Fault (FreeList TxPages) := fl.pushTail ptr

instance : PageManager (FreeList TxPages) where
  get := pageGet
  newPage := pageNew
  del := pageDel
  pageCount fl := fl.pages.stop

end TxPages

/-! ## Transactions -/

structure KVReader where
  version : Nat := 0
  root : Nat := 0
  chunks : List MmapChunk := []

/-- The reader's tree, in the file as it stands. -/
def KVReader.tree (tx : KVReader) (file : File) : BTree MappedPages := ⟨tx.root, ⟨tx.chunks, file⟩⟩

namespace KVReader

def get (tx : KVReader) (file : File) (key : Bytes) : Except Fault (Option Bytes) :=
  (tx.tree file).get key

def seek (tx : KVReader) (file : File) (key : Bytes) (cmp : CMP) : Except Fault BIter :=
  (tx.tree file).seek key cmp

end KVReader

structure KVTX where
  version : Nat
  tree : BTree (FreeList TxPages)

namespace KVTX

def set (tx : KVTX) (key val : Bytes) : Except Fault KVTX := do
  let tree ← tx.tree.insert key val
  return { tx with tree := tree }

def del (tx : KVTX) (key : Bytes) : Except Fault (Bool × KVTX) := do
  let (found, tree) ← tx.tree.remove key
  return (found, { tx with tree := tree })

/-- The transaction's free list. -/
def free (tx : KVTX) : FreeList TxPages := tx.tree.pages

/-- The buffered writes, by page number. -/
def pageUpdates (tx : KVTX) : List (Nat × Bytes) := tx.free.pages.pageUpdates

end KVTX

/-! ## Coalesced writes -/

def maxIovs : Nat := 64

/-- The inner loop of `write_pages`: the pages from `ptr` on that can join a run of `count`. -/
def takeRun : Nat → Nat → List (Nat × Bytes) → List Bytes × List (Nat × Bytes)
  | _, _, [] => ([], [])
  | ptr, count, (p, page) :: updates =>
      if p = ptr ∧ count < maxIovs then
        let (iovs, rest) := takeRun (ptr + 1) (count + 1) updates
        (page :: iovs, rest)
      else
        ([], (p, page) :: updates)

theorem length_takeRun (ptr count : Nat) (updates : List (Nat × Bytes)) :
    (takeRun ptr count updates).2.length ≤ updates.length := by
  induction updates generalizing ptr count with
  | nil => exact le_refl _
  | cons u updates ih =>
      rw [takeRun]
      split
      · exact (ih _ _).trans (Nat.le_succ _)
      · exact le_refl _

/-- The `pwritev` calls of `write_pages`: the first page number, and the buffers. -/
def writeRuns : List (Nat × Bytes) → List (Nat × List Bytes)
  | [] => []
  | (first, page) :: updates =>
      let run := takeRun (first + 1) 1 updates
      (first, page :: run.1) :: writeRuns run.2
termination_by updates => updates.length
decreasing_by exact Nat.lt_succ_of_le (length_takeRun _ _ _)

/-- One `pwritev`, buffer by buffer. -/
def runWrites : Nat → List Bytes → List PageWrite
  | _, [] => []
  | first, page :: iovs => ⟨first, page⟩ :: runWrites (first + 1) iovs

/-- The writes of `write_pages`, in order. -/
def pageWrites (updates : List (Nat × Bytes)) : List PageWrite :=
  (writeRuns updates).flatMap fun run => runWrites run.1 run.2

/-! ## The store -/

structure KV where
  root : Nat := 0
  version : Nat := 0
  chunks : List MmapChunk := []
  readers : ReaderHeap := {}
  flushed : Nat := 0
  free : FreeListState := {}
  durableVersion : Nat := 0
  mmapTotal : Nat := 0

def minMmapSize : Nat := 64 * 2 ^ 20

/-- The loop of `extend_mmap`. -/
def growAlloc (total size : Nat) : Nat → Nat → Nat
  | 0, alloc => alloc
  | fuel + 1, alloc => if total + alloc < size then growAlloc total size fuel (alloc * 2) else alloc

namespace KV

/-- `extend_mmap`, when the mapping succeeds. -/
def extendMmap (kv : KV) (size : Nat) : KV :=
  if size ≤ kv.mmapTotal then kv
  else
    let alloc := growAlloc kv.mmapTotal size size (max kv.mmapTotal minMmapSize)
    { kv with
      chunks := kv.chunks ++ [⟨kv.mmapTotal, alloc⟩]
      mmapTotal := kv.mmapTotal + alloc }

def saveMeta (kv : KV) : Bytes := Meta.save ⟨kv.root, kv.flushed, kv.free, kv.version⟩

/-- The store of a new file: page 0 is for the meta page, page 1 is the free list's first node. -/
def fresh : KV where
  flushed := 2
  free := ⟨1, 0, 1, 0⟩

/-- The store at a meta page that was read, which is taken for durable. -/
def ofMeta (m : Meta) : KV where
  root := m.root
  version := m.version
  durableVersion := m.version
  flushed := m.flushed
  free := m.freeState

/-- `read_root`, on a file just opened. The product is not cut to 64 bits, nor is that of
`commitSize`: a file of 2^52 pages has offsets beyond `off_t`. -/
def readRoot (file : File) : Except Fault KV :=
  if file.size = 0 then
    return fresh
  else do
    require (file.size ≥ metaDataSize) (.throws "KV: file too small to contain a meta page")
    let data := Bytes.readAt (file.page 0) 0 metaDataSize
    require (Bytes.readAt data 0 2 = dbSig) (.throws "KV: not a valid db file (bad signature)")
    let m := parseMeta data
    require m.Valid (.throws "KV: corrupt meta page")
    return (ofMeta m).extendMmap (m.flushed * btreePageSize)

/-! ### Readers -/

def snapshot (kv : KV) : KVReader := ⟨kv.version, kv.root, kv.chunks⟩

/-- The reader numbered `id` starts on the latest version. -/
def beginRead (kv : KV) (id : Nat) : KVReader × KV :=
  let heap := { kv.readers with version := Function.update kv.readers.version id kv.version }
  (kv.snapshot, { kv with readers := heap.push id })

def endRead (kv : KV) (id : Nat) : Except Fault KV := do
  let (_, heap) ← kv.readers.remove (kv.readers.heapIndex id)
  return { kv with readers := heap }

/-! ### The writer -/

/-- The oldest version that pages are kept for. -/
def minReader (kv : KV) : Nat :=
  match kv.readers.min with
  | some oldest =>
      if versionBefore (kv.readers.version oldest) kv.durableVersion then kv.readers.version oldest
      else kv.durableVersion
  | none => kv.durableVersion

/-- The pages a transaction begins with. A new file's first list node is not on disk yet. -/
def beginPages (kv : KV) (file : File) : TxPages where
  chunks := kv.chunks
  file := file
  flushed := kv.flushed
  pageUpdates := if kv.version = 0 then [(1, List.replicate btreePageSize 0)] else []

/-- `begin`, the file being what the mapping shows. -/
def begin (kv : KV) (file : File) : KVTX where
  version := kv.version
  tree := ⟨kv.root, ⟨kv.beginPages file, kv.free, kv.version, kv.minReader⟩⟩

/-- The bytes that must be mapped before `tx`'s pages are written. -/
def commitSize (kv : KV) (tx : KVTX) : Nat :=
  (kv.flushed + tx.free.pages.pageAppend) * btreePageSize

/-- Between the two phases: `tx`'s version becomes the latest one. -/
def publish (kv : KV) (tx : KVTX) : KV :=
  { kv with
    flushed := kv.flushed + tx.free.pages.pageAppend
    free := tx.free.state
    root := tx.tree.root
    version := kv.version + 1 }

/-- The end of a commit whose meta page is durable. -/
def settle (kv : KV) : KV := { kv with durableVersion := kv.version }

end KV

end SqlDb
