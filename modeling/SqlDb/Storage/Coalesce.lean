import SqlDb.Storage.Mapping

/-!
# Coalesced writes are page writes

`write_pages` cuts the buffered pages into runs of consecutive numbers, none longer than
`pwritev` takes buffers, and writes each run with one call at the offset of its first page.
A call writes bytes; that its bytes are whole pages, and land on the pages they are for, is
shown here. The calls together then do what one write for each page would.

An offset is a page number times the page size, in 64 bits: it is the page's own for the
numbers below 2^52, and wraps from there on.
-/

namespace SqlDb

open Outcome OrdMap

namespace File

/-- The byte at an offset. -/
def byte (f : File) (i : Nat) : UInt8 := (f.page (i / btreePageSize)).getD (i % btreePageSize) 0

/-- A `pwritev` that succeeds: the buffers' bytes, one buffer behind the other, from `offset` on. -/
def pwritev (f : File) (offset : Nat) (iovs : List Bytes) : File where
  size := if iovs.flatten = [] then f.size else max f.size (offset + iovs.flatten.length)
  page p := (List.range btreePageSize).map fun k =>
    if offset ≤ p * btreePageSize + k ∧ p * btreePageSize + k < offset + iovs.flatten.length then
      iovs.flatten.getD (p * btreePageSize + k - offset) 0
    else (f.page p).getD k 0
  length_page p := by rw [List.length_map, List.length_range]

end File

/-- One call of `write_pages`. -/
structure Pwritev where
  offset : Int
  iovs : List Bytes

/-- The offset is multiplied out in 64 bits and cast to an `off_t`. -/
def runCall (run : Nat × List Bytes) : Pwritev :=
  ⟨((run.1 * btreePageSize : Nat) : Int).bmod (2 ^ 64), run.2⟩

def writeCalls (updates : List (Nat × Bytes)) : List Pwritev := (writeRuns updates).map runCall

/-- The bytes lie within the offsets of a file. -/
def Pwritev.Succeeds (call : Pwritev) : Prop :=
  0 ≤ call.offset ∧ call.offset + call.iovs.flatten.length < 2 ^ 63

instance (call : Pwritev) : Decidable call.Succeeds := by
  unfold Pwritev.Succeeds
  infer_instance

/-- A call fails at an offset that no file has; the disk does not fail here. -/
def Pwritev.run (f : File) (call : Pwritev) : Except Fault File := do
  require call.Succeeds (.throws "KV: pwritev failed")
  return f.pwritev call.offset.toNat call.iovs

/-- The loop of `write_pages`. -/
def writeUpdates (f : File) (updates : List (Nat × Bytes)) : Except Fault File :=
  (writeCalls updates).foldlM Pwritev.run f

/-- `write_pages`, which maps the pages before it writes them; the size is a `size_t`. -/
def KV.writePages (kv : KV) (tx : TxPages) (maps : Bool) (f : File) : Except Fault (KV × File) := do
  let kv ← kv.tryExtendMmap (tx.stop * btreePageSize % 2 ^ 64) maps
  let f ← writeUpdates f tx.pageUpdates
  return (kv, f)

/-- The pages a call writes. -/
def Pwritev.pages (call : Pwritev) : List Nat :=
  (List.range call.iovs.length).map fun k => call.offset.toNat / btreePageSize + k

/-! ## Bytes and pages -/

namespace File

theorem byte_page (f : File) {p k : Nat} (hk : k < btreePageSize) :
    f.byte (p * btreePageSize + k) = (f.page p).getD k 0 := by
  rw [byte, Nat.mul_comm, Nat.mul_add_div pageSize_pos, Nat.mul_add_mod, Nat.div_eq_of_lt hk,
    Nat.mod_eq_of_lt hk, Nat.add_zero]

/-- A file is its bytes. -/
theorem ext_byte {f g : File} (hsize : f.size = g.size) (hbyte : ∀ i, f.byte i = g.byte i) :
    f = g := by
  have hpage : f.page = g.page := by
    funext p
    refine List.ext_getElem (by rw [f.length_page, g.length_page]) fun k hk hk' => ?_
    have hlt : k < btreePageSize := by rwa [f.length_page] at hk
    have := hbyte (p * btreePageSize + k)
    rwa [byte_page f hlt, byte_page g hlt, List.getD_eq_getElem _ _ hk,
      List.getD_eq_getElem _ _ hk'] at this
  cases f
  cases g
  simp_all

theorem byte_pwritev (f : File) (offset : Nat) (iovs : List Bytes) (i : Nat) :
    (f.pwritev offset iovs).byte i =
      if offset ≤ i ∧ i < offset + iovs.flatten.length then iovs.flatten.getD (i - offset) 0
      else f.byte i := by
  have hi : i / btreePageSize * btreePageSize + i % btreePageSize = i := Nat.div_add_mod' i _
  have hlt : i % btreePageSize < btreePageSize := Nat.mod_lt _ pageSize_pos
  rw [byte, pwritev]
  dsimp only
  rw [List.getD_eq_getElem?_getD, List.getElem?_map, List.getElem?_range hlt, Option.map_some,
    Option.getD_some, hi, ← byte]

theorem byte_pwrite (f : File) {w : PageWrite} (h : w.bytes.length = btreePageSize) (i : Nat) :
    (f.pwrite w).byte i =
      if i / btreePageSize = w.ptr then w.bytes.getD (i % btreePageSize) 0 else f.byte i := by
  by_cases hp : i / btreePageSize = w.ptr
  · rw [if_pos hp, byte, hp, f.page_pwrite_self h]
  · rw [if_neg hp, byte, f.page_pwrite_of_ne hp, ← byte]

/-- **The first buffer of a call**, when it is a page for a page's offset, is a page's write. -/
theorem pwritev_cons (f : File) {p : Nat} {page : Bytes} {iovs : List Bytes}
    (hlen : page.length = btreePageSize) : f.pwritev (p * btreePageSize) (page :: iovs) =
      (f.pwrite ⟨p, page⟩).pwritev ((p + 1) * btreePageSize) iovs := by
  have hdata : (page :: iovs).flatten = page ++ iovs.flatten := List.flatten_cons
  have hne : (page :: iovs).flatten ≠ [] := by
    rw [hdata]
    exact fun h => by rw [(List.append_eq_nil_iff.mp h).1] at hlen; cases hlen
  have hnext : (p + 1) * btreePageSize = p * btreePageSize + btreePageSize := Nat.succ_mul _ _
  refine ext_byte ?_ fun i => ?_
  · rw [pwritev, pwritev, pwrite]
    dsimp only
    rw [if_neg hne, hdata, List.length_append, hlen, hnext]
    by_cases hrest : iovs.flatten = []
    · rw [if_pos hrest, hrest, List.length_nil, Nat.add_zero]
    · rw [if_neg hrest]
      omega
  · rw [byte_pwritev, byte_pwritev, byte_pwrite _ hlen, hdata, List.length_append, hlen, hnext]
    -- a byte is in this page, in one of the pages behind it, or in none
    have hdiv : i / btreePageSize = p ↔
        p * btreePageSize ≤ i ∧ i < p * btreePageSize + btreePageSize := by
      rw [Nat.div_eq_iff pageSize_pos]
      have := pageSize_pos
      omega
    by_cases hhere : p * btreePageSize ≤ i ∧ i < p * btreePageSize + btreePageSize
    · have hmod : i % btreePageSize = i - p * btreePageSize := by
        have := Nat.div_add_mod' i btreePageSize
        rw [hdiv.mpr hhere] at this
        omega
      rw [if_pos (by omega), if_neg (by omega), if_pos (hdiv.mpr hhere), hmod,
        List.getD_append _ _ _ _ (by omega)]
    · by_cases hlater : p * btreePageSize + btreePageSize ≤ i ∧
          i < p * btreePageSize + btreePageSize + iovs.flatten.length
      · rw [if_pos (by omega), if_pos hlater, List.getD_append_right _ _ _ _ (by omega), hlen,
          Nat.sub_sub]
      · rw [if_neg (by omega), if_neg hlater, if_neg (hdiv.not.mpr hhere)]

/-- **A call of whole pages** is one write for each of them. -/
theorem pwritev_pages (f : File) (first : Nat) {iovs : List Bytes}
    (hlen : ∀ page ∈ iovs, page.length = btreePageSize) :
    f.pwritev (first * btreePageSize) iovs = f.pwrites (runWrites first iovs) := by
  induction iovs generalizing f first with
  | nil =>
      rw [runWrites, pwrites_nil]
      refine ext_byte ?_ fun i => ?_
      · rw [pwritev]
        dsimp only
        rw [if_pos List.flatten_nil]
      rw [byte_pwritev, List.flatten_nil, List.length_nil, if_neg (by omega)]
  | cons page iovs ih =>
      obtain ⟨hpage, hrest⟩ := List.forall_mem_cons.mp hlen
      rw [pwritev_cons f hpage, ih _ _ hrest, runWrites, pwrites_cons]

end File

/-! ## Runs -/

/-- A run takes pages of consecutive numbers, and leaves room for those it has. -/
theorem takeRun_run (ptr : Nat) {count : Nat} (updates : List (Nat × Bytes))
    (hcount : count ≤ maxIovs) :
    count + (takeRun ptr count updates).1.length ≤ maxIovs ∧
      ∀ k page, (takeRun ptr count updates).1[k]? = some page → (ptr + k, page) ∈ updates := by
  induction updates generalizing ptr count with
  | nil => exact ⟨hcount, fun k page h => by simp [takeRun] at h⟩
  | cons u updates ih =>
      rw [takeRun]
      by_cases h : u.1 = ptr ∧ count < maxIovs
      · rw [if_pos h]
        obtain ⟨hle, hmem⟩ := ih (ptr + 1) (Nat.succ_le_of_lt h.2)
        rw [Nat.succ_eq_add_one] at hle hmem
        refine ⟨?_, fun k page hk => ?_⟩
        · dsimp only
          rw [List.length_cons]
          omega
        · cases k with
          | zero =>
              obtain rfl : u.2 = page := Option.some.inj hk
              rw [← h.1]
              exact List.mem_cons_self
          | succ k =>
              have := hmem k page hk
              rw [Nat.add_right_comm] at this
              exact List.mem_cons_of_mem _ this
      · rw [if_neg h]
        exact ⟨hcount, fun k page hk => by simp at hk⟩

/-- What a run leaves were updates before. -/
theorem takeRun_rest {ptr count : Nat} {updates : List (Nat × Bytes)} {u : Nat × Bytes}
    (h : u ∈ (takeRun ptr count updates).2) : u ∈ updates := by
  induction updates generalizing ptr count with
  | nil => exact h
  | cons v updates ih =>
      rw [takeRun] at h
      split at h
      · exact List.mem_cons_of_mem _ (ih h)
      · exact h

/-- **Every run** has some buffers and no more than a call takes, of consecutive pages. -/
structure IsRun (updates : List (Nat × Bytes)) (run : Nat × List Bytes) : Prop where
  ne : run.2 ≠ []
  le : run.2.length ≤ maxIovs
  page : ∀ k page, run.2[k]? = some page → (run.1 + k, page) ∈ updates

theorem IsRun.mono {updates updates' : List (Nat × Bytes)} {run : Nat × List Bytes}
    (h : IsRun updates run) (hsub : ∀ u ∈ updates, u ∈ updates') : IsRun updates' run :=
  ⟨h.ne, h.le, fun k page hk => hsub _ (h.page k page hk)⟩

theorem writeRuns_isRun (updates : List (Nat × Bytes)) :
    ∀ run ∈ writeRuns updates, IsRun updates run := by
  induction updates using writeRuns.induct with
  | case1 => rw [writeRuns]; exact fun _ h => absurd h List.not_mem_nil
  | case2 first page updates run ih =>
      rw [writeRuns]
      obtain ⟨hle, hmem⟩ := takeRun_run (first + 1) updates (by decide : 1 ≤ maxIovs)
      refine List.forall_mem_cons.mpr ⟨⟨List.cons_ne_nil _ _, ?_, fun k bytes hk => ?_⟩, ?_⟩
      · rw [List.length_cons]
        omega
      · cases k with
        | zero =>
            obtain rfl : page = bytes := Option.some.inj hk
            exact List.mem_cons_self
        | succ k =>
            have := hmem k bytes hk
            rw [Nat.add_right_comm] at this
            exact List.mem_cons_of_mem _ this
      · exact fun r hr => (ih r hr).mono fun u hu => List.mem_cons_of_mem _ (takeRun_rest hu)

/-! ## Calls -/

/-- **An offset that did not wrap** and is not negative is the first page's own. -/
theorem runCall_offset {run : Nat × List Bytes} (hnum : run.1 < 2 ^ 52)
    (h : (runCall run).Succeeds) : (runCall run).offset = (run.1 * btreePageSize : Nat) := by
  have hpos : 0 ≤ (runCall run).offset := h.1
  unfold runCall btreePageSize at hpos ⊢
  dsimp only at hpos ⊢
  rw [Int.bmod_def] at hpos ⊢
  split at hpos <;> split <;> omega

theorem runCall_iovs (run : Nat × List Bytes) : (runCall run).iovs = run.2 := rfl

theorem ptr_runWrites (first : Nat) (iovs : List Bytes) :
    (runWrites first iovs).map PageWrite.ptr = (List.range iovs.length).map fun k => first + k := by
  induction iovs generalizing first with
  | nil => rfl
  | cons page iovs ih =>
      rw [runWrites, List.map_cons, ih, List.length_cons, List.range_succ_eq_map, List.map_cons,
        List.map_map]
      refine congrArg₂ _ (Nat.add_zero _).symm (List.map_congr_left fun k _ => ?_)
      rw [Function.comp_apply]
      omega

theorem runCall_pages {run : Nat × List Bytes} (hnum : run.1 < 2 ^ 52)
    (h : (runCall run).Succeeds) :
    (runCall run).pages = (runWrites run.1 run.2).map PageWrite.ptr := by
  rw [Pwritev.pages, runCall_offset hnum h, runCall_iovs, Int.toNat_natCast,
    Nat.mul_div_cancel _ pageSize_pos, ptr_runWrites]

theorem length_flatten_pages {iovs : List Bytes}
    (hlen : ∀ page ∈ iovs, page.length = btreePageSize) :
    iovs.flatten.length = iovs.length * btreePageSize := by
  induction iovs with
  | nil => rw [List.flatten_nil, List.length_nil, List.length_nil, Nat.zero_mul]
  | cons page iovs ih =>
      obtain ⟨hpage, hrest⟩ := List.forall_mem_cons.mp hlen
      rw [List.flatten_cons, List.length_append, hpage, ih hrest, List.length_cons, Nat.succ_mul,
        Nat.add_comm]

/-- **No call fails** for pages that end within the offsets of a file. -/
theorem writeCalls_succeed {updates : List (Nat × Bytes)}
    (hlen : ∀ u ∈ updates, u.2.length = btreePageSize)
    (hend : ∀ u ∈ updates, (u.1 + 1) * btreePageSize < 2 ^ 63) :
    ∀ call ∈ writeCalls updates, call.Succeeds := by
  intro call hcall
  obtain ⟨run, hrun, rfl⟩ := List.mem_map.mp hcall
  have hisRun := writeRuns_isRun updates run hrun
  have hpos : 0 < run.2.length := List.length_pos_iff.mpr hisRun.ne
  have hpages : ∀ page ∈ run.2, page.length = btreePageSize := by
    intro page hpage
    obtain ⟨k, hk⟩ := List.mem_iff_getElem?.mp hpage
    exact hlen _ (hisRun.page k page hk)
  -- the last page of the run ends where the call does
  have hlast : (run.1 + run.2.length) * btreePageSize < 2 ^ 63 := by
    have h := hend _ (hisRun.page (run.2.length - 1) _ (List.getElem?_eq_getElem (by omega)))
    dsimp only at h
    rwa [Nat.add_assoc, Nat.sub_add_cancel hpos] at h
  rw [Nat.add_mul] at hlast
  have hoffset : (runCall run).offset = (run.1 * btreePageSize : Nat) := by
    unfold runCall
    dsimp only
    rw [Int.bmod_eq_of_le (by omega) (by omega)]
  rw [Pwritev.Succeeds, hoffset, runCall_iovs, length_flatten_pages hpages]
  omega

/-- The calls one after another are the writes of their pages. -/
theorem foldlM_runCall (f : File) {runs : List (Nat × List Bytes)}
    (h : ∀ run ∈ runs, run.1 < 2 ^ 52 ∧ (runCall run).Succeeds ∧
      ∀ page ∈ run.2, page.length = btreePageSize) :
    (runs.map runCall).foldlM Pwritev.run f =
      .ok (f.pwrites (runs.flatMap fun run => runWrites run.1 run.2)) := by
  induction runs generalizing f with
  | nil => rfl
  | cons run runs ih =>
      obtain ⟨⟨hnum, hsucceeds, hlen⟩, hrest⟩ := List.forall_mem_cons.mp h
      have hrun : (runCall run).run f = .ok (f.pwrites (runWrites run.1 run.2)) := by
        rw [Pwritev.run, require_pos hsucceeds, ok_bind, runCall_offset hnum hsucceeds,
          Int.toNat_natCast]
        exact congrArg Except.ok (f.pwritev_pages run.1 hlen)
      rw [List.map_cons, List.foldlM_cons, hrun, ok_bind, ih _ hrest, List.flatMap_cons,
        File.pwrites_append]

/-! ## The file afterwards -/

theorem File.size_pwrites_le {f : File} {updates : List (Nat × Bytes)}
    (hlen : ∀ u ∈ updates, u.2.length = btreePageSize) {size : Nat} :
    (f.pwrites (updates.map toWrite)).size ≤ size ↔
      f.size ≤ size ∧ ∀ u ∈ updates, (u.1 + 1) * btreePageSize ≤ size := by
  induction updates generalizing f with
  | nil => simp
  | cons u updates ih =>
      obtain ⟨hu, hrest⟩ := List.forall_mem_cons.mp hlen
      have hsize : (f.pwrite (toWrite u)).size = max f.size ((u.1 + 1) * btreePageSize) := by
        rw [File.pwrite, toWrite]
        dsimp only
        rw [hu, Nat.succ_mul]
      rw [List.map_cons, File.pwrites_cons, ih hrest, hsize, List.forall_mem_cons, Nat.max_le,
        and_assoc]

/-- **Coalesced writes are page writes**, of pages whose offsets do not wrap. Once the mapping
is extended and when no call fails, the loop ends with every buffered page in its place and every
other byte as it was, the file reaching to the end of the last page; the calls write every page
once, each of them at the offset of its first page and no more than 64 consecutive ones. -/
theorem write_pages_coalesced {kv kv' : KV} {tx : TxPages} {maps : Bool} {f : File}
    (hmapped : kv.tryExtendMmap (tx.stop * btreePageSize % 2 ^ 64) maps = .ok kv')
    (hsorted : Sorted tx.pageUpdates) (hlen : ∀ u ∈ tx.pageUpdates, u.2.length = btreePageSize)
    (hnum : ∀ u ∈ tx.pageUpdates, u.1 < 2 ^ 52)
    (hsucceed : ∀ call ∈ writeCalls tx.pageUpdates, call.Succeeds) :
    (∃ f', kv.writePages tx maps f = .ok (kv', f') ∧
      (∀ p page, lookup tx.pageUpdates p = some page → f'.page p = page) ∧
      (∀ i, lookup tx.pageUpdates (i / btreePageSize) = none → f'.byte i = f.byte i) ∧
      ∀ size, f'.size ≤ size ↔
        f.size ≤ size ∧ ∀ u ∈ tx.pageUpdates, (u.1 + 1) * btreePageSize ≤ size) ∧
    ((writeCalls tx.pageUpdates).flatMap Pwritev.pages = tx.pageUpdates.map Prod.fst ∧
      (tx.pageUpdates.map Prod.fst).Nodup) ∧
    ∀ call ∈ writeCalls tx.pageUpdates, call.iovs ≠ [] ∧ call.iovs.length ≤ maxIovs ∧
      ∃ first : Nat, call.offset = (first * btreePageSize : Nat) ∧
        ∀ k page, call.iovs[k]? = some page → lookup tx.pageUpdates (first + k) = some page := by
  have hruns := writeRuns_isRun tx.pageUpdates
  have hfits : ∀ run ∈ writeRuns tx.pageUpdates, run.1 < 2 ^ 52 ∧ (runCall run).Succeeds ∧
      ∀ page ∈ run.2, page.length = btreePageSize := by
    intro run hrun
    refine ⟨?_, hsucceed _ (List.mem_map_of_mem hrun), fun page hpage => ?_⟩
    · obtain ⟨page, hpage⟩ : ∃ page, run.2[0]? = some page :=
        ⟨_, List.getElem?_eq_getElem (List.length_pos_iff.mpr (hruns run hrun).ne)⟩
      exact hnum _ ((hruns run hrun).page 0 page hpage)
    · obtain ⟨k, hk⟩ := List.mem_iff_getElem?.mp hpage
      exact hlen _ ((hruns run hrun).page k page hk)
  have hnodup : (tx.pageUpdates.map Prod.fst).Nodup :=
    (sorted_iff_map.mp hsorted).imp fun hlt => ne_of_lt hlt
  -- no page is written twice, so the last write of a page is its own
  have hptrs : ((tx.pageUpdates.map toWrite).map PageWrite.ptr).Nodup := by
    rw [List.map_map]
    exact hnodup
  have hmem : ∀ {w : PageWrite}, w ∈ tx.pageUpdates.map toWrite →
      (w.ptr, w.bytes) ∈ tx.pageUpdates := by
    intro w hw
    obtain ⟨u, hu, rfl⟩ := List.mem_map.mp hw
    exact hu
  have hwritten : writeUpdates f tx.pageUpdates = .ok (f.pwrites (tx.pageUpdates.map toWrite)) := by
    rw [writeUpdates, writeCalls, foldlM_runCall f hfits, ← pageWrites_eq, pageWrites]
  refine ⟨⟨f.pwrites (tx.pageUpdates.map toWrite), ?_, fun p page hp => ?_, fun i hi => ?_,
    fun size => File.size_pwrites_le hlen⟩, ⟨?_, hnodup⟩, fun call hcall => ?_⟩
  · rw [KV.writePages, hmapped, ok_bind, hwritten, ok_bind]
    rfl
  · have hu := lookup_mem hp
    exact File.page_pwrites_of_mem (List.mem_map_of_mem (f := toWrite) hu) hptrs (hlen _ hu)
  · rw [File.byte, File.page_pwrites_of_notMem fun w hw he => ?_, ← File.byte]
    exact lookup_eq_none.mp hi _ (hmem hw) he
  · have hcalls : (writeCalls tx.pageUpdates).flatMap Pwritev.pages =
        (writeRuns tx.pageUpdates).flatMap fun run =>
          (runWrites run.1 run.2).map PageWrite.ptr := by
      rw [writeCalls, List.flatMap_map]
      exact List.flatMap_congr fun run hrun => runCall_pages (hfits run hrun).1 (hfits run hrun).2.1
    rw [hcalls, ← List.map_flatMap, ← pageWrites, pageWrites_eq, List.map_map]
    rfl
  · obtain ⟨run, hrun, rfl⟩ := List.mem_map.mp hcall
    refine ⟨(hruns run hrun).ne, (hruns run hrun).le, run.1, ?_, fun k page hk => ?_⟩
    · exact runCall_offset (hfits run hrun).1 (hfits run hrun).2.1
    · exact (lookup_eq_some hsorted).mpr ((hruns run hrun).page k page hk)

/-- A transaction that updated one page of two, and appended 73 and buffered all but the first
three. -/
def gapPages : TxPages where
  chunks := []
  file := .empty
  flushed := 2
  pageUpdates := (1, List.replicate btreePageSize 7) ::
    (List.range 70).map fun i => (5 + i, List.replicate btreePageSize 9)
  pageAppend := 73

theorem gapPages_runs : (writeRuns gapPages.pageUpdates).map (fun run => (run.1, run.2.length)) =
    [(1, 1), (5, 64), (69, 6)] := by
  decide +kernel

/-- A page by itself, and behind a gap a run that is too long for one call. -/
theorem gap_coalesced : ∃ kv' f', KV.fresh.writePages gapPages true .empty = .ok (kv', f') ∧
    f'.page 1 = List.replicate btreePageSize 7 ∧
    (∀ i < 70, f'.page (5 + i) = List.replicate btreePageSize 9) ∧
    f'.byte 0 = File.empty.byte 0 ∧
    (writeCalls gapPages.pageUpdates).map (fun call => call.iovs.length) = [1, 64, 6] := by
  have hsorted : Sorted gapPages.pageUpdates := by
    have hptrs : (gapPages.pageUpdates.map Prod.fst).Pairwise (· < ·) := by decide +kernel
    exact sorted_iff_map.mpr hptrs
  have hall : ∀ u ∈ gapPages.pageUpdates, u.2.length = btreePageSize ∧ u.1 < 75 := by
    refine List.forall_mem_cons.mpr ⟨⟨List.length_replicate, by decide⟩, fun u hu => ?_⟩
    obtain ⟨i, hi, rfl⟩ := List.mem_map.mp hu
    have hlt : i < 70 := List.mem_range.mp hi
    exact ⟨List.length_replicate, by omega⟩
  have hmapped : KV.fresh.tryExtendMmap (gapPages.stop * btreePageSize % 2 ^ 64) true =
      .ok (KV.fresh.extendMmap (gapPages.stop * btreePageSize % 2 ^ 64)) := by
    rw [KV.tryExtendMmap_eq true (by decide), if_pos (.inr rfl)]
  have hlen := fun u hu => (hall u hu).1
  have hnum : ∀ u ∈ gapPages.pageUpdates, u.1 < 2 ^ 52 := fun u hu =>
    lt_trans (hall u hu).2 (by decide)
  have hend : ∀ u ∈ gapPages.pageUpdates, (u.1 + 1) * btreePageSize < 2 ^ 63 := fun u hu =>
    lt_of_le_of_lt (Nat.mul_le_mul_right btreePageSize (hall u hu).2) (by decide)
  obtain ⟨⟨f', hf, hpage, hbyte, _⟩, _⟩ := write_pages_coalesced (f := .empty) hmapped hsorted hlen
    hnum (writeCalls_succeed hlen hend)
  refine ⟨_, f', hf, hpage 1 _ rfl, fun i hi => hpage (5 + i) _ ?_, hbyte 0 rfl, ?_⟩
  · refine (lookup_eq_some hsorted).mpr (List.mem_cons_of_mem _ (List.mem_map.mpr ?_))
    exact ⟨i, List.mem_range.mpr hi, rfl⟩
  · have hruns := congrArg (List.map Prod.snd) gapPages_runs
    rw [List.map_map] at hruns
    rw [writeCalls, List.map_map]
    exact hruns

theorem writeCalls_singleton (u : Nat × Bytes) : writeCalls [u] = [runCall (u.1, [u.2])] := by
  rw [writeCalls, writeRuns, takeRun, writeRuns, List.map_cons, List.map_nil]

/-- A transaction in a file of 2^52 pages: the number of the page it appends is no file offset. -/
def farPages : TxPages where
  chunks := []
  file := .empty
  flushed := 2 ^ 52
  pageUpdates := [(2 ^ 52, List.replicate btreePageSize 7)]
  pageAppend := 1

/-- The offset of page 2^52 wraps to 0: every call succeeds, and the page lands on page 0. And a
mapping that fails leaves the pages unwritten. -/
theorem wrapped_page :
    (∃ kv' f', KV.fresh.writePages farPages true .empty = .ok (kv', f') ∧
      f'.page (2 ^ 52) ≠ List.replicate btreePageSize 7 ∧ f'.page 0 ≠ File.empty.page 0) ∧
    KV.fresh.writePages gapPages false .empty = .error (.throws "KV: mmap failed") := by
  have hcall : runCall (2 ^ 52, [List.replicate btreePageSize 7]) =
      ⟨((0 * btreePageSize : Nat) : Int), [List.replicate btreePageSize 7]⟩ := by
    unfold runCall
    refine congrArg (Pwritev.mk · _) ?_
    decide
  have hlen : ∀ page ∈ [List.replicate btreePageSize (7 : UInt8)], page.length = btreePageSize :=
    List.forall_mem_singleton.mpr List.length_replicate
  have hsucceeds : Pwritev.Succeeds (runCall (2 ^ 52, [List.replicate btreePageSize 7])) := by
    rw [hcall, Pwritev.Succeeds, length_flatten_pages hlen]
    decide
  have hwritten : writeUpdates .empty farPages.pageUpdates =
      .ok (File.empty.pwrite ⟨0, List.replicate btreePageSize 7⟩) := by
    rw [writeUpdates, farPages, writeCalls_singleton, List.foldlM_cons, Pwritev.run,
      require_pos hsucceeds, ok_bind, hcall, Int.toNat_natCast]
    exact congrArg Except.ok (File.empty.pwritev_pages 0 hlen)
  have hdiffer : List.replicate btreePageSize (7 : UInt8) ≠ List.replicate btreePageSize 0 := by
    rw [ne_eq, List.replicate_right_inj (by decide)]
    decide
  refine ⟨⟨KV.fresh.extendMmap (farPages.stop * btreePageSize % 2 ^ 64),
    File.empty.pwrite ⟨0, List.replicate btreePageSize 7⟩, ?_, ?_, ?_⟩, ?_⟩
  · rw [KV.writePages, KV.tryExtendMmap_eq true (by decide), if_pos (.inr rfl), ok_bind, hwritten]
    rfl
  · rw [File.page_pwrite_of_ne _ (by decide)]
    exact hdiffer.symm
  · rw [File.page_pwrite_self _ List.length_replicate]
    exact hdiffer
  · rw [KV.writePages, KV.tryExtendMmap_eq false (by decide), if_neg (by decide)]
    rfl

end SqlDb
