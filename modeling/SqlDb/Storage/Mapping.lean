import SqlDb.Storage.WorldCommit

/-!
# Mapped chunks tile the file

`extend_mmap` adds one region behind the others, as large as all of them together, or twice
that, until the bytes asked for are covered. `page_get_mapped` finds a page by counting the
pages of the regions in front of it, in the list a reader copied when it began, while the
store may have mapped more since.

The store's list is `KV.extendMmap`'s, in numbers without a bound. Here the sizes are
`size_t`s, whose sums wrap; below 2^62 bytes none does, and the loop that doubles ends.
-/

namespace SqlDb

open Outcome

/-- The loop of `extend_mmap` in a `size_t`'s arithmetic. Past 64 doublings there is nothing
left of `alloc`, and the loop would go on with 0 for ever. -/
def growLoop (total size : Nat) : Nat → Nat → Except Fault Nat
  | 0, _ => .error .diverges
  | fuel + 1, alloc =>
      if (total + alloc) % 2 ^ 64 < size then growLoop total size fuel (alloc * 2 % 2 ^ 64)
      else .ok alloc

/-- `extend_mmap`; `maps` is whether `mmap` finds the room. -/
def KV.tryExtendMmap (kv : KV) (size : Nat) (maps : Bool) : Except Fault KV :=
  if size ≤ kv.mmapTotal then .ok kv
  else do
    let alloc ← growLoop kv.mmapTotal size 65 (max kv.mmapTotal minMmapSize)
    require (maps = true) (.throws "KV: mmap failed")
    return { kv with
      chunks := kv.chunks ++ [⟨kv.mmapTotal, alloc⟩]
      mmapTotal := (kv.mmapTotal + alloc) % 2 ^ 64 }

/-- The address `page_get_mapped` returns: a region, and how far into it. -/
def pageAddr (ptr : Nat) : List MmapChunk → Nat → Except Fault (MmapChunk × Nat)
  | [], _ => .error (.throws "KVReader: bad ptr")
  | chunk :: chunks, start =>
      let stop := start + chunk.size / btreePageSize
      if ptr < stop then .ok (chunk, btreePageSize * (ptr - start)) else pageAddr ptr chunks stop

/-! ## Runs -/

/-- What a store's mapping goes through while the store is open. -/
inductive MapCall where
  | extend (size : Nat) (maps : Bool)
  | snapshot

/-- The store, and what those who began on it copied. -/
structure Mapper where
  kv : KV
  readers : List KVReader := []

namespace Mapper

/-- One call. A call that throws leaves the store as it was. -/
def call (m : Mapper) : MapCall → Except Fault Mapper
  | .extend size maps =>
      match m.kv.tryExtendMmap size maps with
      | .ok kv => .ok { m with kv := kv }
      | .error (.throws _) => .ok m
      | .error fault => .error fault
  | .snapshot => .ok { m with readers := m.kv.snapshot :: m.readers }

def run (m : Mapper) (calls : List MapCall) : Except Fault Mapper := calls.foldlM call m

/-- The regions are the file's first `mmap_total_` bytes, in order; a copy is the regions
there were. -/
structure Inv (m : Mapper) : Prop where
  tiled : ∃ stop, Tiled m.kv.chunks 0 stop ∧ m.kv.mmapTotal = stop * btreePageSize
  copies : ∀ tx ∈ m.readers, tx.chunks <+: m.kv.chunks ∧ ∃ stop, Tiled tx.chunks 0 stop

end Mapper

/-! ## The loop -/

/-- Whatever the bound on the doublings, as long as it is enough. -/
theorem growAlloc_fuel {total size : Nat} : ∀ {fuel fuel' alloc : Nat},
    size ≤ total + alloc * 2 ^ fuel → size ≤ total + alloc * 2 ^ fuel' →
    growAlloc total size fuel alloc = growAlloc total size fuel' alloc
  | 0, 0, _, _, _ => rfl
  | 0, fuel' + 1, alloc, h, _ => by
      rw [growAlloc, growAlloc, if_neg (by omega)]
  | fuel + 1, 0, alloc, _, h' => by
      rw [growAlloc, growAlloc, if_neg (by omega)]
  | fuel + 1, fuel' + 1, alloc, h, h' => by
      have hpow : ∀ n, alloc * 2 * 2 ^ n = alloc * 2 ^ (n + 1) := fun n => by ring
      rw [growAlloc, growAlloc]
      by_cases hlt : total + alloc < size
      · rw [if_pos hlt, if_pos hlt]
        exact growAlloc_fuel (by rw [hpow]; exact h) (by rw [hpow]; exact h')
      · rw [if_neg hlt, if_neg hlt]

/-- **The loop ends**, and no sum in it wraps: while the regions fall short of the size, twice
`alloc` is still less than 2^63. -/
theorem growLoop_eq {total size : Nat} (htotal : total < 2 ^ 62) (hsize : size < 2 ^ 62) :
    ∀ {fuel alloc : Nat}, alloc < 2 ^ 63 → size ≤ total + alloc * 2 ^ fuel →
    growLoop total size (fuel + 1) alloc = .ok (growAlloc total size fuel alloc) ∧
      growAlloc total size fuel alloc < 2 ^ 63
  | 0, alloc, halloc, h => by
      have hwrap : (total + alloc) % 2 ^ 64 = total + alloc := Nat.mod_eq_of_lt (by omega)
      rw [growLoop, hwrap, if_neg (by omega), growAlloc]
      exact ⟨rfl, halloc⟩
  | fuel + 1, alloc, halloc, h => by
      have hwrap : (total + alloc) % 2 ^ 64 = total + alloc := Nat.mod_eq_of_lt (by omega)
      have hpow : alloc * 2 * 2 ^ fuel = alloc * 2 ^ (fuel + 1) := by ring
      rw [growLoop, hwrap, growAlloc]
      by_cases hlt : total + alloc < size
      · have hdouble : alloc * 2 % 2 ^ 64 = alloc * 2 := Nat.mod_eq_of_lt (by omega)
        rw [if_pos hlt, if_pos hlt, hdouble]
        exact growLoop_eq htotal hsize (by omega) (by rw [hpow]; exact h)
      · rw [if_neg hlt, if_neg hlt]
        exact ⟨rfl, halloc⟩

namespace KV

/-- Below 2^62 bytes the call is `extendMmap`, or throws. -/
theorem tryExtendMmap_eq {kv : KV} {size : Nat} (maps : Bool) (hsize : size < 2 ^ 62) :
    kv.tryExtendMmap size maps = if size ≤ kv.mmapTotal ∨ maps = true then .ok (kv.extendMmap size)
      else .error (.throws "KV: mmap failed") := by
  unfold tryExtendMmap extendMmap
  by_cases hle : size ≤ kv.mmapTotal
  · rw [if_pos hle, if_pos hle, if_pos (.inl hle)]
  · rw [if_neg hle, if_neg hle]
    have hfloor : minMmapSize = 2 ^ 26 := by decide
    have hmax : max kv.mmapTotal minMmapSize < 2 ^ 63 ∧ 1 ≤ max kv.mmapTotal minMmapSize := by
      rw [hfloor]
      omega
    -- 64 doublings reach the size, and so do `size` of them
    have h64 : size ≤ kv.mmapTotal + max kv.mmapTotal minMmapSize * 2 ^ 64 :=
      le_doubled hmax.2 (by omega)
    obtain ⟨hloop, hbound⟩ := growLoop_eq (by omega) hsize hmax.1 h64
    have hfuel := growAlloc_fuel h64 (le_doubled hmax.2 (Nat.lt_two_pow_self).le)
    have hwrap : (kv.mmapTotal + growAlloc kv.mmapTotal size 64 (max kv.mmapTotal minMmapSize)) %
        2 ^ 64 = kv.mmapTotal + growAlloc kv.mmapTotal size 64 (max kv.mmapTotal minMmapSize) :=
      Nat.mod_eq_of_lt (by omega)
    rw [hloop, ok_bind]
    by_cases hmaps : maps = true
    · rw [require_pos hmaps, ok_bind, if_pos (.inr hmaps), hwrap, hfuel]
      rfl
    · rw [if_neg fun h => h.elim hle hmaps, require_neg hmaps]
      rfl

theorem extendMmap_prefix (kv : KV) (size : Nat) : kv.chunks <+: (kv.extendMmap size).chunks := by
  unfold extendMmap
  split
  · exact List.prefix_refl _
  · exact List.prefix_append _ _

end KV

/-! ## The lookup -/

/-- What is read at a page's number is what the mapping shows at its address. -/
theorem pageGetMappedLoop_eq (file : File) (ptr : Nat) : ∀ (chunks : List MmapChunk) (start : Nat),
    pageGetMappedLoop file ptr chunks start =
      (pageAddr ptr chunks start >>= fun addr => file.mapped (addr.1.offset + addr.2))
  | [], _ => rfl
  | chunk :: chunks, start => by
      rw [pageGetMappedLoop, pageAddr]
      split
      · rfl
      · exact pageGetMappedLoop_eq file ptr chunks _

/-- **A page's address** is in the region that covers it, at the page's own offset. -/
theorem pageAddr_of_lt {chunks : List MmapChunk} {start stop ptr : Nat}
    (h : Tiled chunks start stop) (hle : start ≤ ptr) (hlt : ptr < stop) :
    ∃ chunk ∈ chunks, ∃ k, pageAddr ptr chunks start = .ok (chunk, k) ∧
      chunk.offset + k = ptr * btreePageSize ∧ k + btreePageSize ≤ chunk.size := by
  induction h with
  | nil => omega
  | @cons chunk chunks start stop n ho hs ht ih =>
      rw [pageAddr, hs, Nat.mul_div_cancel _ pageSize_pos]
      by_cases hhere : ptr < start + n
      · have hoff : start * btreePageSize + btreePageSize * (ptr - start) = ptr * btreePageSize := by
          rw [Nat.mul_comm btreePageSize, ← Nat.add_mul, Nat.add_sub_cancel' hle]
        have hroom : btreePageSize * (ptr - start) + btreePageSize ≤ n * btreePageSize :=
          calc btreePageSize * (ptr - start) + btreePageSize
              = btreePageSize * (ptr - start + 1) := (Nat.mul_add_one _ _).symm
            _ ≤ btreePageSize * n := Nat.mul_le_mul_left _ (by omega)
            _ = n * btreePageSize := Nat.mul_comm _ _
        rw [if_pos hhere]
        refine ⟨chunk, List.mem_cons_self, btreePageSize * (ptr - start), rfl, ?_, ?_⟩
        · rw [ho]
          exact hoff
        · rw [hs]
          exact hroom
      · rw [if_neg hhere]
        obtain ⟨c, hc, k, haddr, hk⟩ := ih (by omega) hlt
        exact ⟨c, List.mem_cons_of_mem _ hc, k, haddr, hk⟩

/-- Past the regions there is no page. -/
theorem pageAddr_of_ge {chunks : List MmapChunk} {start stop ptr : Nat}
    (h : Tiled chunks start stop) (hle : stop ≤ ptr) :
    pageAddr ptr chunks start = .error (.throws "KVReader: bad ptr") := by
  induction h with
  | nil => rfl
  | @cons chunk chunks start stop n _ hs ht ih =>
      have := ht.le
      rw [pageAddr, hs, Nat.mul_div_cancel _ pageSize_pos, if_neg (by omega)]
      exact ih hle

/-! ## Every run -/

namespace Mapper

theorem Inv.opened {kv : KV} (hchunks : kv.chunks = []) (htotal : kv.mmapTotal = 0) :
    Inv ⟨kv, []⟩ :=
  ⟨⟨0, hchunks ▸ .nil, htotal⟩, fun _ htx => absurd htx List.not_mem_nil⟩

/-- **One call** returns, keeps the invariant, and shrinks nothing. -/
theorem Inv.call {m : Mapper} (h : m.Inv) {c : MapCall}
    (hsize : ∀ size maps, c = .extend size maps → size < 2 ^ 62) :
    ∃ m', m.call c = .ok m' ∧ m'.Inv ∧ m.kv.mmapTotal ≤ m'.kv.mmapTotal ∧
      ∀ size, c = .extend size true → size ≤ m'.kv.mmapTotal := by
  obtain ⟨stop, ht, htotal⟩ := h.tiled
  cases c with
  | extend size maps =>
      rw [Mapper.call, KV.tryExtendMmap_eq maps (hsize size maps rfl)]
      by_cases hmaps : size ≤ m.kv.mmapTotal ∨ maps = true
      · rw [if_pos hmaps]
        obtain ⟨stop', ht', htotal', hle, hcover⟩ := KV.extendMmap_spec ht htotal size
        refine ⟨_, rfl, ⟨⟨stop', ht', htotal'⟩, fun tx htx => ?_⟩, ?_, fun size' he => ?_⟩
        · obtain ⟨hfront, htiled⟩ := h.copies tx htx
          exact ⟨hfront.trans (m.kv.extendMmap_prefix size), htiled⟩
        · rw [htotal, htotal']
          exact Nat.mul_le_mul_right _ hle
        · rw [← (MapCall.extend.inj he).1, htotal']
          exact hcover
      · rw [if_neg hmaps]
        refine ⟨m, rfl, h, le_refl _, fun size' he => ?_⟩
        exact absurd (.inr (MapCall.extend.inj he).2) hmaps
  | snapshot =>
      refine ⟨_, rfl, ⟨⟨stop, ht, htotal⟩, ?_⟩, le_refl _, fun size he => by cases he⟩
      exact List.forall_mem_cons.mpr ⟨⟨List.prefix_refl _, stop, ht⟩, h.copies⟩

theorem Inv.run {m : Mapper} (h : m.Inv) {calls : List MapCall}
    (hsize : ∀ size maps, MapCall.extend size maps ∈ calls → size < 2 ^ 62) :
    ∃ m', m.run calls = .ok m' ∧ m'.Inv ∧ m.kv.mmapTotal ≤ m'.kv.mmapTotal ∧
      ∀ size, MapCall.extend size true ∈ calls → size ≤ m'.kv.mmapTotal := by
  induction calls generalizing m with
  | nil => exact ⟨m, rfl, h, le_refl _, fun _ hc => absurd hc List.not_mem_nil⟩
  | cons c calls ih =>
      obtain ⟨m₁, hcall, h₁, hle₁, hcover₁⟩ := h.call (c := c) fun size maps he =>
        hsize size maps (he ▸ List.mem_cons_self)
      obtain ⟨m₂, hrun, h₂, hle₂, hcover₂⟩ := ih h₁ fun size maps hc =>
        hsize size maps (List.mem_cons_of_mem _ hc)
      refine ⟨m₂, ?_, h₂, hle₁.trans hle₂, fun size hc => ?_⟩
      · rw [Mapper.run, List.foldlM_cons, hcall, ok_bind]
        exact hrun
      · rcases List.mem_cons.mp hc with he | hc
        · exact (hcover₁ size he.symm).trans hle₂
        · exact hcover₂ size hc

end Mapper

/-- **Mapped chunks tile the file.** However a store that was just opened is asked for more, and
whichever of the mappings fail, every call ends. The regions follow one another from the file's
first byte, whole pages each, to the end of the mapped bytes, which reach every size that was
granted; a list copied on the way is a beginning of them. In the store's list and in every copy a
page it covers is found in one of its regions, at the page's offset in the file, and every other
page is refused. -/
theorem mapped_chunks_tile {kv : KV} {calls : List MapCall} (hchunks : kv.chunks = [])
    (htotal : kv.mmapTotal = 0)
    (hsize : ∀ size maps, MapCall.extend size maps ∈ calls → size < 2 ^ 62) :
    ∃ m, Mapper.run ⟨kv, []⟩ calls = .ok m ∧
      (∃ stop, Tiled m.kv.chunks 0 stop ∧ m.kv.mmapTotal = stop * btreePageSize) ∧
      (∀ size, MapCall.extend size true ∈ calls → size ≤ m.kv.mmapTotal) ∧
      ∀ tx, tx = m.kv.snapshot ∨ tx ∈ m.readers → tx.chunks <+: m.kv.chunks ∧
        ∃ stop, Tiled tx.chunks 0 stop ∧
          (∀ ptr, ptr < stop → ∃ chunk ∈ tx.chunks, ∃ k,
            pageAddr ptr tx.chunks 0 = .ok (chunk, k) ∧ chunk.offset + k = ptr * btreePageSize ∧
              k + btreePageSize ≤ chunk.size ∧
              ∀ file : File, MappedPages.pageGetMapped ⟨tx.chunks, file⟩ ptr =
                file.mapped (ptr * btreePageSize)) ∧
          ∀ ptr, stop ≤ ptr → pageAddr ptr tx.chunks 0 = .error (.throws "KVReader: bad ptr") := by
  obtain ⟨m, hrun, hinv, _, hcover⟩ := (Mapper.Inv.opened hchunks htotal).run hsize
  have hview : ∀ tx, tx = m.kv.snapshot ∨ tx ∈ m.readers →
      tx.chunks <+: m.kv.chunks ∧ ∃ stop, Tiled tx.chunks 0 stop := by
    rintro tx (rfl | htx)
    · obtain ⟨stop, ht, _⟩ := hinv.tiled
      exact ⟨List.prefix_refl _, stop, ht⟩
    · exact hinv.copies tx htx
  refine ⟨m, hrun, hinv.tiled, hcover, fun tx htx => ?_⟩
  obtain ⟨hfront, stop, ht⟩ := hview tx htx
  refine ⟨hfront, stop, ht, fun ptr hlt => ?_, fun ptr hle => pageAddr_of_ge ht hle⟩
  obtain ⟨chunk, hchunk, k, haddr, hoffset, hroom⟩ := pageAddr_of_lt ht (Nat.zero_le _) hlt
  refine ⟨chunk, hchunk, k, haddr, hoffset, hroom, fun file => ?_⟩
  rw [MappedPages.pageGetMapped, pageGetMappedLoop_eq, haddr, ok_bind, hoffset]

/-- A reader between two growths, the second of which fails once. -/
theorem grown_chunks_tile : ∃ m, Mapper.run ⟨KV.fresh, []⟩
      [.extend 8192 true, .snapshot, .extend (2 ^ 28) false, .extend (2 ^ 28) true] = .ok m ∧
    2 ^ 28 ≤ m.kv.mmapTotal := by
  have hsize : ∀ size maps, MapCall.extend size maps ∈ [.extend 8192 true, .snapshot,
      .extend (2 ^ 28) false, .extend (2 ^ 28) true] → size < 2 ^ 62 := by
    intro size maps hcall
    simp only [List.mem_cons, MapCall.extend.injEq, List.not_mem_nil, or_false, reduceCtorEq,
      false_or] at hcall
    omega
  have hopened : KV.fresh.chunks = [] ∧ KV.fresh.mmapTotal = 0 := ⟨rfl, rfl⟩
  obtain ⟨m, hrun, _, hcover, _⟩ := mapped_chunks_tile hopened.1 hopened.2 hsize
  exact ⟨m, hrun, hcover (2 ^ 28) (by simp)⟩

end SqlDb
