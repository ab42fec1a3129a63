import SqlDb.Storage.BTreeIter
import Mathlib.Logic.Function.Basic

/-!
# The file and its mapping

One file of pages, written with `pwrite` and read through memory mappings that
share it. Every write of the source starts at a page's first byte and stays in that
page, so a write is a page number and the bytes; a `pwritev` is one write for each of
its buffers.

A reader holds its own list of the mapped regions. It looks a page up in the region
that covers it, and what it sees there is the file as it stands.
-/

namespace SqlDb

open Outcome

structure File where
  size : Nat
  page : Nat → Bytes
  length_page : ∀ p, (page p).length = btreePageSize

/-- Bytes for the start of a page. -/
structure PageWrite where
  ptr : Nat
  bytes : Bytes
deriving DecidableEq

namespace File

/-- A new file. -/
def empty : File where
  size := 0
  page _ := List.replicate btreePageSize 0
  length_page _ := List.length_replicate

def pwrite (f : File) (w : PageWrite) : File where
  size := max f.size (w.ptr * btreePageSize + w.bytes.length)
  page := Function.update f.page w.ptr (Bytes.writeAt (f.page w.ptr) 0 w.bytes)
  length_page p := by
    by_cases h : p = w.ptr
    · rw [h, Function.update_self, Bytes.length_writeAt, f.length_page]
    · rw [Function.update_of_ne h, f.length_page]

/-- Writes one after another, the first first. -/
def pwrites (f : File) (ws : List PageWrite) : File := ws.foldl pwrite f

/-- The page mapped at a page-aligned offset. Past the end of the file there is none. -/
def mapped (f : File) (offset : Nat) : Except Fault Bytes :=
  if offset < f.size then .ok (f.page (offset / btreePageSize)) else .error .busError

@[simp] theorem pwrites_nil (f : File) : f.pwrites [] = f := rfl

@[simp] theorem pwrites_cons (f : File) (w : PageWrite) (ws : List PageWrite) :
    f.pwrites (w :: ws) = (f.pwrite w).pwrites ws := rfl

theorem pwrites_append (f : File) (ws ws' : List PageWrite) :
    f.pwrites (ws ++ ws') = (f.pwrites ws).pwrites ws' := List.foldl_append

theorem page_pwrite_of_ne (f : File) {w : PageWrite} {p : Nat} (h : p ≠ w.ptr) :
    (f.pwrite w).page p = f.page p := Function.update_of_ne h _ _

/-- A whole page is replaced. -/
theorem page_pwrite_self (f : File) {w : PageWrite} (h : w.bytes.length = btreePageSize) :
    (f.pwrite w).page w.ptr = w.bytes := by
  show Function.update f.page w.ptr _ w.ptr = _
  rw [Function.update_self]
  have hl := f.length_page w.ptr
  refine List.ext_getElem (by rw [Bytes.length_writeAt, hl, h]) fun i hi hi' => ?_
  have hi2 : i < (f.page w.ptr).length := by rwa [Bytes.length_writeAt] at hi
  have : (Bytes.writeAt (f.page w.ptr) 0 w.bytes).getD i 0 = _ := Bytes.getD_writeAt hi2
  rw [if_pos ⟨Nat.zero_le _, by omega⟩, Nat.sub_zero] at this
  rw [List.getD_eq_getElem _ _ hi, List.getD_eq_getElem _ _ hi'] at this
  exact this

theorem size_le_pwrite (f : File) (w : PageWrite) : f.size ≤ (f.pwrite w).size := le_max_left _ _

/-- A write reaches the end of its bytes. -/
theorem end_le_pwrite (f : File) (w : PageWrite) :
    w.ptr * btreePageSize + w.bytes.length ≤ (f.pwrite w).size := le_max_right _ _

theorem size_le_pwrites (f : File) (ws : List PageWrite) : f.size ≤ (f.pwrites ws).size := by
  induction ws generalizing f with
  | nil => exact le_refl _
  | cons w ws ih => exact (f.size_le_pwrite w).trans (ih _)

theorem size_pwrites {f : File} {ws : List PageWrite} {w : PageWrite} (h : w ∈ ws) :
    w.ptr * btreePageSize + w.bytes.length ≤ (f.pwrites ws).size := by
  induction ws generalizing f with
  | nil => cases h
  | cons w' ws ih =>
      rcases List.mem_cons.mp h with h | h
      · rw [h]
        exact (f.end_le_pwrite w').trans (size_le_pwrites _ ws)
      · exact ih h

/-- A page none of the writes is for. -/
theorem page_pwrites_of_notMem {f : File} {ws : List PageWrite} {p : Nat}
    (h : ∀ w ∈ ws, w.ptr ≠ p) : (f.pwrites ws).page p = f.page p := by
  induction ws generalizing f with
  | nil => rfl
  | cons w ws ih =>
      rw [pwrites_cons, ih fun w' hw' => h w' (List.mem_cons_of_mem _ hw'),
        page_pwrite_of_ne _ (h w (by simp)).symm]

/-- A page that one write alone is for. -/
theorem page_pwrites_of_mem {f : File} {ws : List PageWrite} {w : PageWrite} (h : w ∈ ws)
    (hnd : (ws.map PageWrite.ptr).Nodup) (hlen : w.bytes.length = btreePageSize) :
    (f.pwrites ws).page w.ptr = w.bytes := by
  induction ws generalizing f with
  | nil => cases h
  | cons w' ws ih =>
      obtain ⟨hnew, hnd⟩ := List.nodup_cons.mp hnd
      rcases List.mem_cons.mp h with h | h
      · rw [h] at hlen ⊢
        rw [pwrites_cons, page_pwrites_of_notMem, page_pwrite_self _ hlen]
        exact fun x hx he => hnew (he ▸ List.mem_map_of_mem hx)
      · exact ih h hnd

theorem mapped_of_lt {f : File} {p : Nat} (h : (p + 1) * btreePageSize ≤ f.size) :
    f.mapped (p * btreePageSize) = .ok (f.page p) := by
  unfold btreePageSize at h
  rw [mapped, if_pos (by unfold btreePageSize; omega), Nat.mul_div_cancel _ (by decide)]

end File

/-! ## Mappings -/

/-- A mapped region: `size` bytes of the file from `offset` on. -/
structure MmapChunk where
  offset : Nat
  size : Nat
deriving DecidableEq

/-- The loop of `page_get_mapped`; `start` is the first page of the regions left. -/
def pageGetMappedLoop (file : File) (ptr : Nat) : List MmapChunk → Nat → Except Fault Bytes
  | [], _ => .error (.throws "KVReader: bad ptr")
  | chunk :: chunks, start =>
      let stop := start + chunk.size / btreePageSize
      if ptr < stop then
        file.mapped (chunk.offset + btreePageSize * (ptr - start))
      else
        pageGetMappedLoop file ptr chunks stop

/-- The file as a reader sees it. -/
structure MappedPages where
  chunks : List MmapChunk
  file : File

namespace MappedPages

def pageGetMapped (s : MappedPages) (ptr : Nat) : Except Fault Bytes :=
  pageGetMappedLoop s.file ptr s.chunks 0

instance : PageManager MappedPages where
  get s ptr := do
    let page ← s.pageGetMapped ptr
    decode page
  newPage _ _ := .error (.throws "KVReader: a reader can't write")
  del _ _ := .error (.throws "KVReader: a reader can't write")
  pageCount s := (s.chunks.map fun chunk => chunk.size / btreePageSize).sum

end MappedPages

/-- The regions lie one after another, from page `start` to page `stop`. -/
inductive Tiled : List MmapChunk → Nat → Nat → Prop where
  | nil {start : Nat} : Tiled [] start start
  | cons {chunk : MmapChunk} {chunks : List MmapChunk} {start stop : Nat} (n : Nat) :
      chunk.offset = start * btreePageSize → chunk.size = n * btreePageSize →
      Tiled chunks (start + n) stop → Tiled (chunk :: chunks) start stop

theorem Tiled.le {chunks : List MmapChunk} {start stop : Nat} (h : Tiled chunks start stop) :
    start ≤ stop := by
  induction h with
  | nil => exact le_refl _
  | cons n _ _ _ ih => omega

theorem Tiled.append {chunks chunks' : List MmapChunk} {start mid stop : Nat}
    (h : Tiled chunks start mid) (h' : Tiled chunks' mid stop) :
    Tiled (chunks ++ chunks') start stop := by
  induction h with
  | nil => exact h'
  | cons n ho hs _ ih => exact .cons n ho hs (ih h')

theorem pageSize_pos : 0 < btreePageSize := by decide

theorem Tiled.count {chunks : List MmapChunk} {start stop : Nat} (h : Tiled chunks start stop) :
    start + (chunks.map fun chunk => chunk.size / btreePageSize).sum = stop := by
  induction h with
  | nil => rfl
  | cons n _ hs _ ih =>
      rw [List.map_cons, List.sum_cons, hs, Nat.mul_div_cancel _ pageSize_pos]
      omega

/-- **A page that the regions cover** is read from the file's own page. -/
theorem pageGetMappedLoop_spec {chunks : List MmapChunk} {start stop ptr : Nat} (file : File)
    (h : Tiled chunks start stop) (hle : start ≤ ptr) : pageGetMappedLoop file ptr chunks start =
      if ptr < stop then file.mapped (ptr * btreePageSize) else .error (.throws "KVReader: bad ptr") := by
  induction h with
  | nil => rw [if_neg (by omega)]; rfl
  | @cons chunk chunks start stop n ho hs ht ih =>
      rw [pageGetMappedLoop, hs, Nat.mul_div_cancel _ pageSize_pos]
      by_cases hlt : ptr < start + n
      · have hle' := ht.le
        have hstop : ptr < stop := by omega
        have hoff : start * btreePageSize + btreePageSize * (ptr - start) = ptr * btreePageSize := by
          rw [Nat.mul_comm btreePageSize, ← Nat.add_mul, Nat.add_sub_cancel' hle]
        rw [if_pos hlt, if_pos hstop, ho, hoff]
      · rw [if_neg hlt]
        exact ih (by omega)

/-- Reading through regions that cover the page, from a file that reaches it. -/
theorem MappedPages.get_of_lt {s : MappedPages} {stop ptr : Nat} (h : Tiled s.chunks 0 stop)
    (hlt : ptr < stop) (hsize : (ptr + 1) * btreePageSize ≤ s.file.size) :
    s.pageGetMapped ptr = .ok (s.file.page ptr) := by
  rw [pageGetMapped, pageGetMappedLoop_spec s.file h (Nat.zero_le _), if_pos hlt,
    File.mapped_of_lt hsize]

end SqlDb
