import SqlDb.Storage.NodeProof

/-!
# What is appended to a node reads back

A node is written in one pass: the header with its final key count, then the entries in
their order. The key count fixes where the tables end, so every append only fills in its
own slot of each table and its own record behind the records so far; what earlier appends
wrote, and the header, are read as they were. A node built this way reads back as the list
it was built from, as it stands and from the page it is stored in.
-/

namespace SqlDb

open Outcome

namespace BNode

/-- One slot, read through the three accessors. -/
def entryAt (n : BNode) (i : Nat) : Entry := ⟨n.getPtr i, n.getKey i, n.getVal i⟩

/-- One append for each entry, from slot `idx` on. -/
def appendEntries (n : BNode) (idx : Nat) : List Entry → Except Fault BNode
  | [] => return n
  | e :: es => do
      let n ← n.nodeAppendKv idx e.ptr e.key e.val
      appendEntries n (idx + 1) es

/-- A zeroed buffer given its header. -/
def headed (size type cnt : Nat) : BNode := (zeroed size).setHeader type cnt

/-- The header first, then every entry in its order. -/
def build (size type : Nat) (es : List Entry) : Except Fault BNode :=
  (headed size type es.length).appendEntries 0 es

end BNode

/-- The bytes of a node: the header, and for each entry a pointer, an offset and a record. -/
def totalBytes (es : List Entry) : Nat :=
  4 + (es.map fun e => 14 + e.key.length + e.val.length).sum

theorem nodeSize_eq_totalBytes (es : List Entry) : nodeSize es = totalBytes es := by
  induction es with
  | nil => rfl
  | cons e es ih =>
      rw [nodeSize_cons, ih, totalBytes, totalBytes, List.map_cons, List.sum_cons]
      omega

/-- The node reads as the list: its header, its size and every slot. -/
structure BNode.ReadsAs (n : BNode) (type : Nat) (es : List Entry) : Prop where
  btype : n.btype = type
  nkeys : n.nkeys = es.length
  nbytes : n.nbytes = totalBytes es
  entry : ∀ i e, es[i]? = some e → n.entryAt i = e

/-- The header and the first `k` slots read the same in both nodes. -/
structure BNode.SameUpTo (k : Nat) (n m : BNode) : Prop where
  btype : m.btype = n.btype
  nkeys : m.nkeys = n.nkeys
  entry : ∀ i < k, m.entryAt i = n.entryAt i

/-! ## Reading a node that is not full yet -/

theorem exists_of_getElem? {es : List Entry} {i : Nat} {e : Entry} (h : es[i]? = some e) :
    ∃ a b, es = a ++ e :: b ∧ a.length = i := by
  obtain ⟨hi, rfl⟩ := List.getElem?_eq_some_iff.mp h
  refine ⟨es.take i, es.drop (i + 1), ?_, by rw [List.length_take]; omega⟩
  rw [List.getElem_cons_drop, List.take_append_drop]

/-- The slots filled so far read back, whatever the header still leaves room for. -/
theorem Filled.entryAt {n : BNode} {t cnt i : Nat} {es : List Entry} {e : Entry}
    (h : Filled n t cnt es) (he : es[i]? = some e) : n.entryAt i = e := by
  obtain ⟨a, b, hes, rfl⟩ := exists_of_getElem? he
  obtain ⟨hptr, hoff, hrec⟩ := h.entry a e b hes
  have hpos : n.kvPos a.length = 4 + 10 * cnt + recBytes a := by
    rw [BNode.kvPos, kvBaseOffset_eq h.nkeys, hoff]
  have hkey : n.getKey a.length = e.key := by
    unfold BNode.getKey
    simp only [hpos, hrec.klen, hrec.key]
  have hval : n.getVal a.length = e.val := by
    unfold BNode.getVal
    simp only [hpos, hrec.klen, hrec.vlen, hrec.val]
  rw [BNode.entryAt, hptr, hkey, hval]

/-- What is filled further reads the same up to where it was filled before. -/
theorem Filled.sameUpTo {n m : BNode} {t cnt : Nat} {es fs : List Entry} (h : Filled n t cnt es)
    (h' : Filled m t cnt (es ++ fs)) : n.SameUpTo es.length m where
  btype := h'.btype.trans h.btype.symm
  nkeys := h'.nkeys.trans h.nkeys.symm
  entry := by
    intro i hi
    have he : es[i]? = some es[i] := List.getElem?_eq_getElem hi
    have he' : (es ++ fs)[i]? = some es[i] := by rw [List.getElem?_append_left hi, he]
    rw [h.entryAt he, h'.entryAt he']

theorem Holds.readsAs {n : BNode} {t : Nat} {es : List Entry} (h : Holds n t es) :
    n.ReadsAs t es where
  btype := h.btype
  nkeys := h.nkeys
  nbytes := h.nbytes.trans (nodeSize_eq_totalBytes es)
  entry := fun _ _ he => Filled.entryAt h he

/-! ## A run of appends -/

/-- **A run of appends extends the list by the run**, unless the buffer is too short. -/
theorem appendEntries_spec {n : BNode} {t cnt : Nat} {es fs : List Entry} (h : Filled n t cnt es)
    (hlen : es.length + fs.length ≤ cnt) (hfs : ∀ e ∈ fs, e.Fits) :
    Builds n.size t cnt (es ++ fs) (n.appendEntries es.length fs) := by
  induction fs generalizing n es with
  | nil =>
      rw [List.append_nil]
      exact ⟨h, rfl⟩
  | cons e fs ih =>
      obtain ⟨he, hfs⟩ := List.forall_mem_cons.mp hfs
      rw [List.length_cons] at hlen
      rw [BNode.appendEntries, show es ++ e :: fs = (es ++ [e]) ++ fs by simp]
      refine (nodeAppendKv_spec h (by omega) he).bind fun m hm hsize => ?_
      have hrest := ih hm (by rw [List.length_append, List.length_singleton]; omega) hfs
      rwa [hsize, List.length_append, List.length_singleton] at hrest

/-- With room in the buffer no append of the run fails. -/
theorem appendEntries_of_room {n : BNode} {t cnt : Nat} {es fs : List Entry}
    (h : Filled n t cnt es) (hlen : es.length + fs.length ≤ cnt) (hfs : ∀ e ∈ fs, e.Fits)
    (hroom : 4 + 10 * cnt + recBytes (es ++ fs) ≤ n.size) :
    ∃ m, n.appendEntries es.length fs = .ok m ∧ Filled m t cnt (es ++ fs) ∧ m.size = n.size :=
  (appendEntries_spec h hlen hfs).exists_ok fun _ hf => Nat.not_lt.mpr hroom hf.2

theorem appendEntries_append (n : BNode) (idx : Nat) (es fs : List Entry) :
    n.appendEntries idx (es ++ fs) =
      n.appendEntries idx es >>= fun m => m.appendEntries (idx + es.length) fs := by
  induction es generalizing n idx with
  | nil => rfl
  | cons e es ih =>
      have hidx : idx + (e :: es).length = idx + 1 + es.length := by
        rw [List.length_cons]
        omega
      rw [List.cons_append, BNode.appendEntries, BNode.appendEntries, bind_assoc, hidx]
      exact congrArg _ (funext fun m => ih m (idx + 1))

/-- **One append of a run** leaves the header and the slots before its own as they were. -/
theorem appendEntries_step {n node : BNode} {t cnt : Nat} {es a b : List Entry} {e : Entry}
    (h : Filled n t cnt es) (hlen : es.length + (a ++ e :: b).length ≤ cnt)
    (hfits : ∀ x ∈ a ++ e :: b, x.Fits)
    (hrun : n.appendEntries es.length (a ++ e :: b) = .ok node) :
    ∃ before after, n.appendEntries es.length a = .ok before ∧
      before.nodeAppendKv (es ++ a).length e.ptr e.key e.val = .ok after ∧
      after.appendEntries ((es ++ a).length + 1) b = .ok node ∧
      before.SameUpTo (es ++ a).length after := by
  rw [List.length_append, List.length_cons] at hlen
  rw [appendEntries_append, bind_eq_ok] at hrun
  obtain ⟨before, hbefore, hrun⟩ := hrun
  rw [BNode.appendEntries, ← List.length_append, bind_eq_ok] at hrun
  obtain ⟨after, hafter, hrun⟩ := hrun
  have hfilled : Filled before t cnt (es ++ a) :=
    ((appendEntries_spec h (by omega) fun x hx => hfits x (List.mem_append_left _ hx)).of_ok
      hbefore).1
  have hfilled' : Filled after t cnt (es ++ a ++ [e]) :=
    ((nodeAppendKv_spec hfilled (by rw [List.length_append]; omega)
      (hfits e (List.mem_append_right _ (by simp)))).of_ok hafter).1
  exact ⟨before, after, hbefore, hafter, hrun, hfilled.sameUpTo hfilled'⟩

/-! ## The page a node is stored in -/

/-- `encode` pads with zeros. -/
theorem encode_tail {n : BNode} {page : Bytes} (h : encode n = .ok page) {i : Nat}
    (hi : n.nbytes ≤ i) : page.getD i 0 = 0 := by
  unfold encode at h
  simp only [bind_eq_ok, require_eq_ok] at h
  obtain ⟨_, _, h⟩ := h
  obtain rfl := Except.ok.inj h
  by_cases hin : i < btreePageSize
  · rw [Bytes.getD_writeAt (by simpa using hin), if_neg (by rw [Bytes.length_readAt]; omega)]
    rw [List.getD_eq_getElem?_getD, List.getElem?_replicate]
    split <;> rfl
  · exact Bytes.getD_of_length_le (by simpa using hin)

/-- **The stored node** reads as the list too, and is zero behind it. -/
theorem decode_encode {n : BNode} {t : Nat} {es : List Entry} (h : Holds n t es)
    (hle : totalBytes es ≤ btreePageSize) : ∃ page node, encode n = .ok page ∧
      decode page = .ok node ∧ node.ReadsAs t es ∧
      ∀ i, node.nbytes ≤ i → node.data.getD i 0 = 0 := by
  rw [← nodeSize_eq_totalBytes] at hle
  obtain ⟨page, hencode, _, hdecode, hpage⟩ := encode_spec h hle
  refine ⟨page, ⟨page⟩, hencode, hdecode, hpage.readsAs, fun i hi => encode_tail hencode ?_⟩
  rwa [h.nbytes, ← hpage.nbytes]

/-! ## The round trip -/

theorem filled_headed {size t cnt : Nat} (ht : t < 2 ^ 16) (hsmall : size ≤ 2 * btreePageSize)
    (hroom : 4 + 10 * cnt ≤ size) : Filled (BNode.headed size t cnt) t cnt [] :=
  filled_setHeader ht (by rwa [size_zeroed]) (by rwa [size_zeroed])

/-- **A node reads back as the entries appended to it.** No append fails or disturbs the
header or a slot before its own, and what fits a page survives being stored. -/
theorem node_round_trip {type pages : Nat} {es : List Entry} (htype : type < 2 ^ 16)
    (hpages : pages = 1 ∨ pages = 2) (hes : ∀ e ∈ es, e.Fits)
    (hfit : totalBytes es ≤ pages * btreePageSize) :
    ∃ node, BNode.build (pages * btreePageSize) type es = .ok node ∧ node.ReadsAs type es ∧
      (∀ a e b, es = a ++ e :: b → ∃ before after,
        (BNode.headed (pages * btreePageSize) type es.length).appendEntries 0 a = .ok before ∧
        before.nodeAppendKv a.length e.ptr e.key e.val = .ok after ∧
        after.appendEntries (a.length + 1) b = .ok node ∧ before.SameUpTo a.length after) ∧
      (totalBytes es ≤ btreePageSize → ∃ page decoded, encode node = .ok page ∧
        decode page = .ok decoded ∧ decoded.ReadsAs type es ∧
        ∀ i, decoded.nbytes ≤ i → decoded.data.getD i 0 = 0) := by
  have hsmall : pages * btreePageSize ≤ 2 * btreePageSize :=
    Nat.mul_le_mul_right _ (by omega)
  have hroom : 4 + 10 * es.length + recBytes es ≤ pages * btreePageSize := by
    rw [← nodeSize_eq_totalBytes] at hfit
    exact hfit
  have hstart : Filled (BNode.headed (pages * btreePageSize) type es.length) type es.length [] :=
    filled_headed htype hsmall (by omega)
  have hsize : (BNode.headed (pages * btreePageSize) type es.length).size =
      pages * btreePageSize := by rw [BNode.headed, size_setHeader, size_zeroed]
  obtain ⟨node, hbuild, hnode, _⟩ := appendEntries_of_room hstart
    (by rw [List.length_nil, Nat.zero_add]) hes (by rwa [List.nil_append, hsize])
  refine ⟨node, hbuild, Holds.readsAs hnode, fun a e b heq => ?_, decode_encode hnode⟩
  refine appendEntries_step hstart ?_ (by rwa [← heq]) (by rwa [← heq])
  rw [List.length_nil, Nat.zero_add, ← heq]

/-- Two entries of a leaf, and the bytes they take. -/
theorem two_entries_round_trip : ∃ node, BNode.build (1 * btreePageSize) bnodeLeaf
    [⟨0, .ofString "k1", .ofString "hi"⟩, ⟨0, .ofString "k3", .ofString "hello"⟩] = .ok node ∧
    node.nbytes = 43 ∧ node.entryAt 1 = ⟨0, .ofString "k3", .ofString "hello"⟩ := by
  have hes : ∀ e ∈ ([⟨0, .ofString "k1", .ofString "hi"⟩,
      ⟨0, .ofString "k3", .ofString "hello"⟩] : List Entry), e.Fits :=
    List.forall_mem_cons.mpr ⟨⟨by decide, by decide, by decide⟩,
      List.forall_mem_singleton.mpr ⟨by decide, by decide, by decide⟩⟩
  obtain ⟨node, hbuild, hreads, _⟩ :=
    node_round_trip (by decide : bnodeLeaf < 2 ^ 16) (Or.inl (rfl : 1 = 1)) hes (by decide)
  exact ⟨node, hbuild, hreads.nbytes, hreads.entry 1 _ rfl⟩

end SqlDb
