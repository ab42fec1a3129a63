import SqlDb.Storage.Node
import Mathlib.Algebra.BigOperators.Group.List.Basic
import Mathlib.Tactic.Linarith

/-!
# What a node's bytes say

A node is a list of entries. `Filled n t cnt es` says that the buffer `n` carries
the header `(t, cnt)` and, read through its accessors, the entries `es` in its
first slots; `Holds n t es` that it is complete. One lemma says that appending an
entry extends the list, and every builder is a sequence of appends, so each of
them has one specification: the list it leaves, or the size assertion, which
fires exactly when the list does not fit the buffer.
-/

namespace SqlDb

open Outcome

/-- One slot of a node. -/
structure Entry where
  ptr : Nat
  key : Bytes
  val : Bytes
deriving DecidableEq

/-- An entry `node_append_kv` takes. -/
structure Entry.Fits (e : Entry) : Prop where
  ptr : e.ptr < 2 ^ 64
  key : e.key.length ≤ btreeMaxKeySize
  val : e.val.length ≤ btreeMaxValSize

/-- The bytes of the records of `es`. -/
def recBytes (es : List Entry) : Nat := (es.map fun e => 4 + e.key.length + e.val.length).sum

/-- The bytes of a node holding `es`: header, pointers, offsets and records. -/
def nodeSize (es : List Entry) : Nat := 4 + 10 * es.length + recBytes es

@[simp] theorem recBytes_nil : recBytes [] = 0 := rfl

@[simp] theorem recBytes_cons (e : Entry) (es : List Entry) :
    recBytes (e :: es) = 4 + e.key.length + e.val.length + recBytes es := by simp [recBytes]

@[simp] theorem recBytes_append (es fs : List Entry) :
    recBytes (es ++ fs) = recBytes es + recBytes fs := by simp [recBytes]

theorem recBytes_ge (es : List Entry) : 4 * es.length ≤ recBytes es := by
  induction es with
  | nil => simp
  | cons e es ih => simp only [recBytes_cons, List.length_cons]; omega

/-- An entry takes its 10 bytes of tables and its record. -/
theorem nodeSize_cons (e : Entry) (es : List Entry) :
    nodeSize (e :: es) = 14 + e.key.length + e.val.length + nodeSize es := by
  simp only [nodeSize, recBytes_cons, List.length_cons]; omega

theorem nodeSize_append (es fs : List Entry) :
    nodeSize (es ++ fs) + 4 = nodeSize es + nodeSize fs := by
  simp only [nodeSize, recBytes_append, List.length_append]; omega

/-- The record of `e` is at `pos`. -/
structure RecordAt (b : Bytes) (pos : Nat) (e : Entry) : Prop where
  klen : Bytes.readU16 b pos = e.key.length
  vlen : Bytes.readU16 b (pos + 2) = e.val.length
  key : Bytes.readAt b (pos + 4) e.key.length = e.key
  val : Bytes.readAt b (pos + 4 + e.key.length) e.val.length = e.val

/-- The buffer's header is `(t, cnt)` and its first slots hold `es`. -/
structure Filled (n : BNode) (t cnt : Nat) (es : List Entry) : Prop where
  btype : n.btype = t
  nkeys : n.nkeys = cnt
  le : es.length ≤ cnt
  small : n.size ≤ 2 * btreePageSize
  room : 4 + 10 * cnt + recBytes es ≤ n.size
  fits : ∀ e ∈ es, e.Fits
  /-- The records so far end where the next one will start. -/
  offset : n.getOffset es.length = recBytes es
  entry : ∀ a e b, es = a ++ e :: b → n.getPtr a.length = e.ptr ∧
    n.getOffset a.length = recBytes a ∧ RecordAt n.data (4 + 10 * cnt + recBytes a) e

/-- The node holds exactly `es`. -/
def Holds (n : BNode) (t : Nat) (es : List Entry) : Prop := Filled n t es.length es

/-- The size assertion fired, and the entries indeed exceed the buffer. -/
def Overfull (size cnt : Nat) (es : List Entry) (f : Fault) : Prop :=
  f = .asserts .appendSize ∧ size < 4 + 10 * cnt + recBytes es

/-- The call leaves a buffer of `size` bytes filled with `es`, unless they do not fit. -/
def Builds (size t cnt : Nat) (es : List Entry) (r : Except Fault BNode) : Prop :=
  Ends (Overfull size cnt es) (fun n => Filled n t cnt es ∧ n.size = size) r

theorem Overfull.append {size cnt : Nat} {es fs : List Entry} {f : Fault}
    (h : Overfull size cnt es f) : Overfull size cnt (es ++ fs) f :=
  ⟨h.1, by have := h.2; rw [recBytes_append]; omega⟩

/-- Building on: what comes after a partial list may assume that the part fitted. -/
theorem Builds.bind {size t cnt : Nat} {es fs : List Entry} {r : Except Fault BNode}
    {f : BNode → Except Fault BNode} (h : Builds size t cnt es r)
    (hf : ∀ n, Filled n t cnt es → n.size = size → Builds size t cnt (es ++ fs) (f n)) :
    Builds size t cnt (es ++ fs) (r >>= f) :=
  (Ends.mono h (fun _ he => he.append) (fun _ ha => ha)).bind fun n hn => hf n hn.1 hn.2

/-! ## Layout arithmetic -/

theorem offsetsOffset_eq {n : BNode} {cnt : Nat} (h : n.nkeys = cnt) :
    n.offsetsOffset = 4 + 8 * cnt := by
  simp only [BNode.offsetsOffset, BNode.ptrsOffset, h]; omega

theorem kvBaseOffset_eq {n : BNode} {cnt : Nat} (h : n.nkeys = cnt) :
    n.kvBaseOffset = 4 + 10 * cnt := by
  rw [BNode.kvBaseOffset, offsetsOffset_eq h, h]; omega

theorem Filled.kvPos {n : BNode} {t cnt : Nat} {es : List Entry} (h : Filled n t cnt es) :
    n.kvPos es.length = 4 + 10 * cnt + recBytes es := by
  rw [BNode.kvPos, kvBaseOffset_eq h.nkeys, h.offset]

theorem RecordAt.congr {b b' : Bytes} {pos : Nat} {e : Entry} (h : RecordAt b pos e)
    (hb : ∀ i, pos ≤ i → i < pos + 4 + e.key.length + e.val.length → b'.getD i 0 = b.getD i 0) :
    RecordAt b' pos e := by
  constructor
  · rw [Bytes.readU16, Bytes.readAt_congr fun i h1 h2 => hb i h1 (by omega)]; exact h.klen
  · rw [Bytes.readU16, Bytes.readAt_congr fun i h1 h2 => hb i (by omega) (by omega)]; exact h.vlen
  · rw [Bytes.readAt_congr fun i h1 h2 => hb i (by omega) (by omega)]; exact h.key
  · rw [Bytes.readAt_congr fun i h1 h2 => hb i (by omega) (by omega)]; exact h.val

/-! ## A fresh buffer -/

theorem btype_setHeader {n : BNode} {t k : Nat} (hs : 4 ≤ n.size) (ht : t < 2 ^ 16) :
    (n.setHeader t k).btype = t := by
  unfold BNode.btype BNode.setHeader
  rw [Bytes.writeU16, Bytes.readU16_writeAt_of_disjoint (Or.inl (by omega))]
  exact Bytes.readU16_writeU16_self (by unfold BNode.size at hs; omega) ht

theorem nkeys_setHeader {n : BNode} {t k : Nat} (hs : 4 ≤ n.size) (hk : k < 2 ^ 16) :
    (n.setHeader t k).nkeys = k := by
  unfold BNode.nkeys BNode.setHeader
  exact Bytes.readU16_writeU16_self (by unfold BNode.size at hs; simp; omega) hk

@[simp] theorem size_setHeader (n : BNode) (t k : Nat) : (n.setHeader t k).size = n.size := by
  simp [BNode.setHeader, BNode.size]

@[simp] theorem size_zeroed (size : Nat) : (BNode.zeroed size).size = size := by
  simp [BNode.zeroed, BNode.size]

/-- Setting the header opens an empty list. -/
theorem filled_setHeader {n : BNode} {t cnt : Nat} (ht : t < 2 ^ 16)
    (hsmall : n.size ≤ 2 * btreePageSize) (hroom : 4 + 10 * cnt ≤ n.size) :
    Filled (n.setHeader t cnt) t cnt [] where
  btype := btype_setHeader (by omega) ht
  nkeys := nkeys_setHeader (by omega) (by unfold btreePageSize at hsmall; omega)
  le := Nat.zero_le _
  small := by rwa [size_setHeader]
  room := by simpa using hroom
  fits := by simp
  offset := rfl
  entry := by intro a e b h; simp at h

/-! ## Appending one entry -/

/-- The buffer after `node_append_kv` has written everything. -/
private def appended (b : Bytes) (cnt idx pos off : Nat) (e : Entry) : Bytes :=
  let b := Bytes.writeU64 b (4 + 8 * idx) e.ptr
  let b := Bytes.writeU16 b pos e.key.length
  let b := Bytes.writeU16 b (pos + 2) e.val.length
  let b := Bytes.writeAt b (pos + 4) e.key
  let b := Bytes.writeAt b (pos + 4 + e.key.length) e.val
  Bytes.writeU16 b (4 + 8 * cnt + 2 * idx) off

@[simp] private theorem length_appended (b : Bytes) (cnt idx pos off : Nat) (e : Entry) :
    (appended b cnt idx pos off e).length = b.length := by simp [appended]

/-- Bytes outside the three places written stay. -/
private theorem readAt_appended_of_disjoint {b : Bytes} {cnt idx pos off p k : Nat} {e : Entry}
    (h1 : p + k ≤ 4 + 8 * idx ∨ 4 + 8 * idx + 8 ≤ p)
    (h2 : p + k ≤ pos ∨ pos + 4 + e.key.length + e.val.length ≤ p)
    (h3 : p + k ≤ 4 + 8 * cnt + 2 * idx ∨ 4 + 8 * cnt + 2 * idx + 2 ≤ p) :
    Bytes.readAt (appended b cnt idx pos off e) p k = Bytes.readAt b p k := by
  simp only [appended, Bytes.writeU16, Bytes.writeU64]
  rw [Bytes.readAt_writeAt_of_disjoint (by rw [Bytes.length_le]; omega),
    Bytes.readAt_writeAt_of_disjoint (by omega), Bytes.readAt_writeAt_of_disjoint (by omega),
    Bytes.readAt_writeAt_of_disjoint (by rw [Bytes.length_le]; omega),
    Bytes.readAt_writeAt_of_disjoint (by rw [Bytes.length_le]; omega),
    Bytes.readAt_writeAt_of_disjoint (by rw [Bytes.length_le]; omega)]

private theorem readU64_appended_ptr {b : Bytes} {cnt idx pos off : Nat} {e : Entry}
    (hidx : idx < cnt) (hpos : 4 + 10 * cnt ≤ pos) (hlen : pos ≤ b.length)
    (hptr : e.ptr < 2 ^ 64) :
    Bytes.readU64 (appended b cnt idx pos off e) (4 + 8 * idx) = e.ptr := by
  simp only [appended, Bytes.writeU16]
  rw [Bytes.readU64_writeAt_of_disjoint (by rw [Bytes.length_le]; omega),
    Bytes.readU64_writeAt_of_disjoint (by omega), Bytes.readU64_writeAt_of_disjoint (by omega),
    Bytes.readU64_writeAt_of_disjoint (by rw [Bytes.length_le]; omega),
    Bytes.readU64_writeAt_of_disjoint (by rw [Bytes.length_le]; omega)]
  exact Bytes.readU64_writeU64_self (by omega) hptr

private theorem readU16_appended_offset {b : Bytes} {cnt idx pos off : Nat} {e : Entry}
    (hidx : idx < cnt) (hpos : 4 + 10 * cnt ≤ pos) (hlen : pos ≤ b.length) (hoff : off < 2 ^ 16) :
    Bytes.readU16 (appended b cnt idx pos off e) (4 + 8 * cnt + 2 * idx) = off :=
  Bytes.readU16_writeU16_self (by simp; omega) hoff

private theorem recordAt_appended {b : Bytes} {cnt idx pos off : Nat} {e : Entry}
    (hidx : idx < cnt) (hpos : 4 + 10 * cnt ≤ pos) (he : e.Fits)
    (hlen : pos + 4 + e.key.length + e.val.length ≤ b.length) :
    RecordAt (appended b cnt idx pos off e) pos e := by
  have hk := he.key; have hv := he.val
  unfold btreeMaxKeySize at hk; unfold btreeMaxValSize at hv
  -- the table slot lies before the record, so it never matters
  have htab : ∀ {c : Bytes} {p k : Nat}, pos ≤ p →
      Bytes.readAt (Bytes.writeU16 c (4 + 8 * cnt + 2 * idx) off) p k = Bytes.readAt c p k :=
    fun hp => Bytes.readAt_writeAt_of_disjoint (by rw [Bytes.length_le]; omega)
  constructor
  · rw [Bytes.readU16, appended, htab (le_refl _),
      Bytes.readAt_writeAt_of_disjoint (by omega), Bytes.readAt_writeAt_of_disjoint (by omega),
      Bytes.writeU16, Bytes.readAt_writeAt_of_disjoint (by omega)]
    exact Bytes.readU16_writeU16_self (by simp; omega) (by omega)
  · rw [Bytes.readU16, appended, htab (by omega),
      Bytes.readAt_writeAt_of_disjoint (by omega), Bytes.readAt_writeAt_of_disjoint (by omega)]
    exact Bytes.readU16_writeU16_self (by simp; omega) (by omega)
  · rw [appended, htab (by omega), Bytes.readAt_writeAt_of_disjoint (by omega)]
    exact Bytes.readAt_writeAt_self (by simp; omega)
  · rw [appended, htab (by omega)]
    exact Bytes.readAt_writeAt_self (by simp; omega)

/-- When the entry fits, `node_append_kv` writes exactly these places. -/
private theorem nodeAppendKv_eq {n : BNode} {t cnt : Nat} {es : List Entry} {e : Entry}
    (h : Filled n t cnt es) (hlt : es.length < cnt) (he : e.Fits) :
    n.nodeAppendKv es.length e.ptr e.key e.val =
      if 4 + 10 * cnt + recBytes es + 4 + e.key.length + e.val.length ≤ n.size then
        .ok ⟨appended n.data cnt es.length (4 + 10 * cnt + recBytes es)
          (recBytes es + 4 + e.key.length + e.val.length) e⟩
      else .error (.asserts .appendSize) := by
  have hk := he.key; have hv := he.val
  have hroom := h.room; have hsmall := h.small
  unfold btreeMaxKeySize at hk; unfold btreeMaxValSize at hv; unfold btreePageSize at hsmall
  -- the pointer write moves neither the header nor the offsets
  have hnk : (n.setPtr es.length e.ptr).nkeys = cnt := by
    rw [← h.nkeys]
    exact Bytes.readU16_writeAt_of_disjoint (Or.inl (by unfold BNode.ptrsOffset; omega))
  have hoff : (n.setPtr es.length e.ptr).getOffset es.length = recBytes es := by
    rw [← h.offset]
    unfold BNode.getOffset
    split
    · rfl
    · rw [offsetsOffset_eq hnk, offsetsOffset_eq h.nkeys]
      refine Bytes.readU16_writeAt_of_disjoint (Or.inr ?_)
      rw [Bytes.length_le, BNode.ptrsOffset]; omega
  have hpos : (n.setPtr es.length e.ptr).kvPos es.length = 4 + 10 * cnt + recBytes es := by
    rw [BNode.kvPos, kvBaseOffset_eq hnk, hoff]
  have hsize : (n.setPtr es.length e.ptr).size = n.size := by simp [BNode.setPtr, BNode.size]
  have hkm : e.key.length % 2 ^ 16 = e.key.length := Nat.mod_eq_of_lt (by omega)
  have hvm : e.val.length % 2 ^ 16 = e.val.length := Nat.mod_eq_of_lt (by omega)
  -- neither do the record writes, which the last step reads back through
  have hdata : ∀ m : BNode, m.data = Bytes.writeAt (Bytes.writeAt (Bytes.writeU16 (Bytes.writeU16
        (n.setPtr es.length e.ptr).data (4 + 10 * cnt + recBytes es + 0) e.key.length)
        (4 + 10 * cnt + recBytes es + 2) e.val.length) (4 + 10 * cnt + recBytes es + 4) e.key)
        (4 + 10 * cnt + recBytes es + 4 + e.key.length) e.val →
      m.setOffset (es.length + 1) (m.getOffset es.length + 4 + e.key.length + e.val.length) =
        ⟨appended n.data cnt es.length (4 + 10 * cnt + recBytes es)
          (recBytes es + 4 + e.key.length + e.val.length) e⟩ := by
    intro m hm
    have hread : ∀ p, p + 2 ≤ 4 + 10 * cnt →
        Bytes.readU16 m.data p = Bytes.readU16 (n.setPtr es.length e.ptr).data p := by
      intro p hp
      rw [hm]
      simp only [Bytes.writeU16]
      rw [Bytes.readU16_writeAt_of_disjoint (by omega),
        Bytes.readU16_writeAt_of_disjoint (by omega),
        Bytes.readU16_writeAt_of_disjoint (by omega),
        Bytes.readU16_writeAt_of_disjoint (by omega)]
    have hnk' : m.nkeys = cnt := by rw [← hnk]; exact hread 2 (by omega)
    have hoff' : m.getOffset es.length = recBytes es := by
      rw [← hoff]
      unfold BNode.getOffset
      split
      · rfl
      · rw [offsetsOffset_eq hnk, offsetsOffset_eq hnk']; exact hread _ (by omega)
    rw [hoff', BNode.setOffset, offsetsOffset_eq hnk', hm, Nat.add_sub_cancel, BNode.setPtr,
      BNode.ptrsOffset, Nat.mul_comm es.length 8, Nat.mul_comm es.length 2]
    rfl
  unfold BNode.nodeAppendKv
  simp only [hpos, hsize, hkm, hvm]
  rw [require_pos he.key, ok_bind, require_pos he.val, ok_bind]
  split
  · rename_i hfit
    rw [require_pos hfit, ok_bind]
    exact congrArg Except.ok (hdata _ rfl)
  · rename_i hfit
    rw [require_neg hfit, error_bind]

/-- The buffer so written carries one entry more. -/
private theorem Filled.appended {n : BNode} {t cnt : Nat} {es : List Entry} {e : Entry}
    (h : Filled n t cnt es) (hlt : es.length < cnt) (he : e.Fits)
    (hfit : 4 + 10 * cnt + recBytes es + 4 + e.key.length + e.val.length ≤ n.data.length) :
    Filled ⟨appended n.data cnt es.length (4 + 10 * cnt + recBytes es)
      (recBytes es + 4 + e.key.length + e.val.length) e⟩ t cnt (es ++ [e]) := by
  have hsmall := h.small
  unfold btreePageSize BNode.size at hsmall
  set m : BNode := ⟨SqlDb.appended n.data cnt es.length (4 + 10 * cnt + recBytes es)
    (recBytes es + 4 + e.key.length + e.val.length) e⟩ with hm
  have hsize : m.data.length = n.data.length := by simp [hm]
  -- the header and the slots so far are read as before
  have hkeep : ∀ p k, p + k ≤ 4 + 8 * es.length ∨
      (4 + 8 * es.length + 8 ≤ p ∧ p + k ≤ 4 + 8 * cnt + 2 * es.length) ∨
      (4 + 10 * cnt ≤ p ∧ p + k ≤ 4 + 10 * cnt + recBytes es) →
      Bytes.readAt m.data p k = Bytes.readAt n.data p k := by
    intro p k hpk
    exact readAt_appended_of_disjoint (by omega) (by omega) (by omega)
  have hmk : m.nkeys = cnt := by
    rw [← h.nkeys, BNode.nkeys, BNode.nkeys, Bytes.readU16, hkeep 2 2 (by omega), Bytes.readU16]
  have hoffs : ∀ j, j ≤ es.length → m.getOffset j = n.getOffset j := by
    intro j hj
    unfold BNode.getOffset
    split
    · rfl
    · rw [offsetsOffset_eq hmk, offsetsOffset_eq h.nkeys, Bytes.readU16, hkeep _ _ (by omega),
        Bytes.readU16]
  constructor
  · rw [← h.btype, BNode.btype, BNode.btype, Bytes.readU16, hkeep 0 2 (by omega), Bytes.readU16]
  · exact hmk
  · rw [List.length_append]; exact hlt
  · unfold BNode.size; rw [hsize]; exact h.small
  · unfold BNode.size
    rw [hsize]; simp only [recBytes_append, recBytes_cons, recBytes_nil]; omega
  · intro x hx
    rcases List.mem_append.mp hx with hx | hx
    · exact h.fits x hx
    · rw [List.mem_singleton.mp hx]; exact he
  · have hr : Bytes.readU16 m.data (4 + 8 * cnt + 2 * es.length) =
        recBytes es + 4 + e.key.length + e.val.length :=
      readU16_appended_offset hlt (by omega) (by omega) (by omega)
    rw [List.length_append, List.length_singleton, BNode.getOffset, if_neg (by omega),
      offsetsOffset_eq hmk, Nat.add_sub_cancel, Nat.mul_comm es.length 2, hr]
    simp only [recBytes_append, recBytes_cons, recBytes_nil]; omega
  · intro a x b hab
    rcases List.eq_nil_or_concat b with rfl | ⟨b', y, rfl⟩
    · -- the entry just written
      obtain ⟨rfl, hx⟩ := List.append_inj' hab (by simp)
      obtain rfl : e = x := by simpa using hx
      refine ⟨?_, (hoffs _ (le_refl _)).trans h.offset, recordAt_appended hlt (by omega) he hfit⟩
      rw [BNode.getPtr, BNode.ptrsOffset, Nat.mul_comm es.length 8]
      exact readU64_appended_ptr hlt (by omega) (by omega) he.ptr
    · -- an earlier one
      have hes : es = a ++ x :: b' := by
        have : es ++ [e] = (a ++ x :: b') ++ [y] := by simpa using hab
        exact (List.append_inj' this (by simp)).1
      obtain ⟨h1, h2, h3⟩ := h.entry a x b' hes
      have hal : a.length < es.length := by rw [hes]; simp
      have hrb : recBytes a + (4 + x.key.length + x.val.length) ≤ recBytes es := by
        rw [hes]; simp only [recBytes_append, recBytes_cons]; omega
      refine ⟨?_, (hoffs _ (by omega)).trans h2, ?_⟩
      · rw [← h1, BNode.getPtr, BNode.getPtr, Bytes.readU64, BNode.ptrsOffset,
          hkeep _ _ (by omega), Bytes.readU64]
      · constructor
        · rw [Bytes.readU16, hkeep _ _ (by omega)]; exact h3.klen
        · rw [Bytes.readU16, hkeep _ _ (by omega)]; exact h3.vlen
        · rw [hkeep _ _ (by omega)]; exact h3.key
        · rw [hkeep _ _ (by omega)]; exact h3.val

/-- **Appending an entry extends the list by it**, unless the buffer is too short. -/
theorem nodeAppendKv_spec {n : BNode} {t cnt : Nat} {es : List Entry} {e : Entry}
    (h : Filled n t cnt es) (hlt : es.length < cnt) (he : e.Fits) :
    Builds n.size t cnt (es ++ [e]) (n.nodeAppendKv es.length e.ptr e.key e.val) := by
  rw [nodeAppendKv_eq h hlt he]
  split
  · rename_i hfit
    exact ⟨h.appended hlt he hfit, by simp [BNode.size]⟩
  · refine ⟨rfl, ?_⟩
    simp only [recBytes_append, recBytes_cons, recBytes_nil]; omega

/-! ## Reading a complete node -/

theorem Holds.btype {n : BNode} {t : Nat} {es : List Entry} (h : Holds n t es) : n.btype = t :=
  Filled.btype h

theorem Holds.nkeys {n : BNode} {t : Nat} {es : List Entry} (h : Holds n t es) :
    n.nkeys = es.length := Filled.nkeys h

theorem Holds.fits {n : BNode} {t : Nat} {es : List Entry} (h : Holds n t es) :
    ∀ e ∈ es, e.Fits := Filled.fits h

theorem Holds.nodeSize_le {n : BNode} {t : Nat} {es : List Entry} (h : Holds n t es) :
    nodeSize es ≤ n.size := Filled.room h

theorem Holds.small {n : BNode} {t : Nat} {es : List Entry} (h : Holds n t es) :
    n.size ≤ 2 * btreePageSize := Filled.small h

theorem Holds.getPtr {n : BNode} {t : Nat} {a b : List Entry} {e : Entry}
    (h : Holds n t (a ++ e :: b)) : n.getPtr a.length = e.ptr := (h.entry a e b rfl).1

theorem Holds.kvPos {n : BNode} {t : Nat} {a b : List Entry} {e : Entry}
    (h : Holds n t (a ++ e :: b)) :
    n.kvPos a.length = 4 + 10 * (a ++ e :: b).length + recBytes a := by
  rw [BNode.kvPos, kvBaseOffset_eq h.nkeys, (h.entry a e b rfl).2.1]

theorem Holds.getKey {n : BNode} {t : Nat} {a b : List Entry} {e : Entry}
    (h : Holds n t (a ++ e :: b)) : n.getKey a.length = e.key := by
  have hr := (h.entry a e b rfl).2.2
  unfold BNode.getKey
  simp only [h.kvPos, hr.klen, hr.key]

theorem Holds.getVal {n : BNode} {t : Nat} {a b : List Entry} {e : Entry}
    (h : Holds n t (a ++ e :: b)) : n.getVal a.length = e.val := by
  have hr := (h.entry a e b rfl).2.2
  unfold BNode.getVal
  simp only [h.kvPos, hr.klen, hr.vlen, hr.val]

/-- The first key, read at index 0. -/
theorem Holds.getKey_zero {n : BNode} {t : Nat} {e : Entry} {es : List Entry}
    (h : Holds n t (e :: es)) : n.getKey 0 = e.key := Holds.getKey (a := []) h

/-- The offset at any index is the length of the records before it. -/
theorem Holds.getOffset {n : BNode} {t : Nat} {a b : List Entry} (h : Holds n t (a ++ b)) :
    n.getOffset a.length = recBytes a := by
  cases b with
  | nil =>
      rw [List.append_nil] at h
      exact Filled.offset h
  | cons e b => exact (h.entry a e b rfl).2.1

/-- `nbytes` is the size of the entries; a `uint16_t` is wide enough for two pages. -/
theorem Holds.nbytes {n : BNode} {t : Nat} {es : List Entry} (h : Holds n t es) :
    n.nbytes = nodeSize es := by
  have hle := h.nodeSize_le; have hs := h.small
  unfold btreePageSize at hs
  rw [BNode.nbytes, h.nkeys, Filled.kvPos h]
  exact Nat.mod_eq_of_lt (by unfold nodeSize at hle; omega)

/-- A node's meaning is in its used bytes. -/
theorem Holds.congr {n n' : BNode} {t : Nat} {es : List Entry} (h : Holds n t es)
    (hsize : nodeSize es ≤ n'.size) (hsmall : n'.size ≤ 2 * btreePageSize)
    (hb : ∀ i, i < nodeSize es → n'.data.getD i 0 = n.data.getD i 0) : Holds n' t es := by
  have hrd : ∀ p k, p + k ≤ nodeSize es → Bytes.readAt n'.data p k = Bytes.readAt n.data p k :=
    fun p k hpk => Bytes.readAt_congr fun i _ hi => hb i (by omega)
  have hsz : 4 + 10 * es.length ≤ nodeSize es := by unfold nodeSize; omega
  have hnk : n'.nkeys = es.length := by
    rw [← h.nkeys, BNode.nkeys, BNode.nkeys, Bytes.readU16, hrd 2 2 (by omega), Bytes.readU16]
  have hoff : ∀ j, j ≤ es.length → n'.getOffset j = n.getOffset j := by
    intro j hj
    unfold BNode.getOffset
    split
    · rfl
    · rw [offsetsOffset_eq hnk, offsetsOffset_eq h.nkeys, Bytes.readU16, hrd _ _ (by omega),
        Bytes.readU16]
  constructor
  · rw [← h.btype, BNode.btype, BNode.btype, Bytes.readU16, hrd 0 2 (by omega), Bytes.readU16]
  · exact hnk
  · exact le_refl _
  · exact hsmall
  · exact hsize
  · exact h.fits
  · rw [hoff _ (le_refl _)]; exact Filled.offset h
  · intro a e b hab
    obtain ⟨h1, h2, h3⟩ := h.entry a e b hab
    have hal : a.length < es.length := by rw [hab]; simp
    have hrb : 4 + 10 * es.length + recBytes a + 4 + e.key.length + e.val.length ≤ nodeSize es := by
      rw [nodeSize, show recBytes es = recBytes (a ++ e :: b) from congrArg _ hab]
      simp only [recBytes_append, recBytes_cons]; omega
    refine ⟨?_, (hoff _ (by omega)).trans h2, h3.congr fun i _ hi => hb i (by omega)⟩
    rw [← h1, BNode.getPtr, BNode.getPtr, Bytes.readU64, BNode.ptrsOffset, hrd _ _ (by omega),
      Bytes.readU64]

/-! ## The builders -/

/-- **Copying a range appends it.** -/
theorem nodeAppendRange_spec {old : BNode} {t0 : Nat} : ∀ {m a b : List Entry}
    {new : BNode} {t cnt : Nat} {es : List Entry}, Holds old t0 (a ++ m ++ b) →
    Filled new t cnt es → es.length + m.length ≤ cnt →
    Builds new.size t cnt (es ++ m) (nodeAppendRange new old es.length a.length m.length)
  | [], a, b, new, t, cnt, es, _, hn, _ => by
      rw [List.append_nil]
      exact ⟨hn, rfl⟩
  | e :: m, a, b, new, t, cnt, es, ho, hn, hle => by
      have ho' : Holds old t0 (a ++ e :: (m ++ b)) := by simpa using ho
      have ho'' : Holds old t0 ((a ++ [e]) ++ m ++ b) := by simpa using ho
      rw [List.length_cons] at hle
      rw [List.length_cons, nodeAppendRange, ho'.getPtr, ho'.getKey, ho'.getVal,
        show es ++ e :: m = (es ++ [e]) ++ m by simp]
      refine (nodeAppendKv_spec hn (by omega) (ho'.fits e (by simp))).bind fun n' hn' hsz => ?_
      have hle' : (es ++ [e]).length + m.length ≤ cnt := by
        rw [List.length_append, List.length_singleton]; omega
      have ih := nodeAppendRange_spec ho'' hn' hle'
      rwa [hsz, List.length_append, List.length_append] at ih

variable {old new : BNode} {es : List Entry}

/-- `leaf_insert` puts the new pair between the entries before and after it. -/
theorem leafInsert_spec {t : Nat} {a b : List Entry} {key val : Bytes}
    (ho : Holds old t (a ++ b)) (hfit : Entry.Fits ⟨0, key, val⟩)
    (hsmall : new.size ≤ 2 * btreePageSize)
    (hroom : 4 + 10 * ((a ++ b).length + 1) ≤ new.size) :
    Builds new.size bnodeLeaf ((a ++ b).length + 1) (a ++ ⟨0, key, val⟩ :: b)
      (leafInsert new old a.length key val) := by
  unfold leafInsert
  rw [ho.nkeys, show a ++ (⟨0, key, val⟩ : Entry) :: b = ([] ++ a) ++ ([⟨0, key, val⟩] ++ b) by simp]
  have h0 := filled_setHeader (t := bnodeLeaf) (by decide) hsmall hroom
  have h1 := nodeAppendRange_spec (a := []) (m := a) (b := b) (by simpa using ho) h0
    (by simp only [List.length_nil, List.length_append]; omega)
  rw [size_setHeader] at h1
  refine h1.bind fun n1 hn1 hs1 => ?_
  have h2 := nodeAppendKv_spec hn1 (by simp only [List.nil_append, List.length_append]; omega) hfit
  rw [hs1, List.nil_append] at h2
  rw [← List.append_assoc]
  refine h2.bind fun n2 hn2 hs2 => ?_
  have h3 := nodeAppendRange_spec (a := a) (m := b) (b := []) (by simpa using ho) hn2
    (by simp only [List.length_append, List.length_singleton]; omega)
  rwa [hs2, show (a ++ [(⟨0, key, val⟩ : Entry)]).length = a.length + 1 by simp,
    show b.length = (a ++ b).length - a.length by simp] at h3

/-- Replacing entries `x` of a node by one entry: what `leaf_update`, `node_replace_2_child` and
the single-child `node_replace_child_n` all do. -/
theorem replace_spec {t u cnt : Nat} {a x b : List Entry} {e : Entry}
    (ho : Holds old t (a ++ x ++ b)) (hfit : e.Fits) (ht : u < 2 ^ 16)
    (hcnt : cnt = a.length + 1 + b.length) (hsmall : new.size ≤ 2 * btreePageSize)
    (hroom : 4 + 10 * cnt ≤ new.size) :
    Builds new.size u cnt (a ++ e :: b) (do
      let n ← nodeAppendRange (new.setHeader u cnt) old 0 0 a.length
      let n ← n.nodeAppendKv a.length e.ptr e.key e.val
      nodeAppendRange n old (a.length + 1) (a.length + x.length) b.length) := by
  rw [show a ++ e :: b = ([] ++ a) ++ ([e] ++ b) by simp]
  have h0 := filled_setHeader ht hsmall hroom
  have h1 := nodeAppendRange_spec (a := []) (m := a) (b := x ++ b) (by simpa using ho) h0
    (by simp only [List.length_nil]; omega)
  rw [size_setHeader] at h1
  refine h1.bind fun n1 hn1 hs1 => ?_
  have h2 := nodeAppendKv_spec hn1 (by simp only [List.nil_append]; omega) hfit
  rw [hs1, List.nil_append] at h2
  rw [← List.append_assoc]
  refine h2.bind fun n2 hn2 hs2 => ?_
  have h3 := nodeAppendRange_spec (a := a ++ x) (m := b) (b := []) (by simpa using ho) hn2
    (by simp only [List.length_append, List.length_singleton]; omega)
  rw [hs2, List.length_append, List.length_append, List.length_singleton] at h3
  exact h3

theorem leafUpdate_spec {t : Nat} {a b : List Entry} {x : Entry} {key val : Bytes}
    (ho : Holds old t (a ++ x :: b)) (hfit : Entry.Fits ⟨0, key, val⟩)
    (hsmall : new.size ≤ 2 * btreePageSize)
    (hroom : 4 + 10 * (a ++ x :: b).length ≤ new.size) :
    Builds new.size bnodeLeaf (a ++ x :: b).length (a ++ ⟨0, key, val⟩ :: b)
      (leafUpdate new old a.length key val) := by
  have hlen : (a ++ x :: b).length = a.length + 1 + b.length := by simp; omega
  have h := replace_spec (a := a) (x := [x]) (b := b) (u := bnodeLeaf) (by simpa using ho) hfit
    (by decide) hlen hsmall hroom
  rw [List.length_singleton] at h
  unfold leafUpdate
  rwa [ho.nkeys, show (a ++ x :: b).length - (a.length + 1) = b.length by omega]

theorem nodeReplace2Child_spec {t ptr : Nat} {a b : List Entry} {x y : Entry} {key : Bytes}
    (ho : Holds old t (a ++ x :: y :: b)) (hfit : Entry.Fits ⟨ptr, key, []⟩)
    (hsmall : new.size ≤ 2 * btreePageSize)
    (hroom : 4 + 10 * (a.length + 1 + b.length) ≤ new.size) :
    Builds new.size bnodeNode (a.length + 1 + b.length) (a ++ ⟨ptr, key, []⟩ :: b)
      (nodeReplace2Child new old a.length ptr key) := by
  have hlen : (a ++ x :: y :: b).length = a.length + 2 + b.length := by simp; omega
  have h := replace_spec (a := a) (x := [x, y]) (b := b) (u := bnodeNode) (by simpa using ho) hfit
    (by decide) rfl hsmall hroom
  rw [show [x, y].length = 2 from rfl] at h
  unfold nodeReplace2Child
  rwa [ho.nkeys, hlen, show a.length + 2 + b.length - 1 = a.length + 1 + b.length by omega,
    show a.length + 2 + b.length - (a.length + 2) = b.length by omega]

theorem leafDelete_spec {t : Nat} {a b : List Entry} {x : Entry}
    (ho : Holds old t (a ++ x :: b)) (hsmall : new.size ≤ 2 * btreePageSize)
    (hroom : 4 + 10 * (a ++ b).length ≤ new.size) :
    Builds new.size bnodeLeaf (a ++ b).length (a ++ b) (leafDelete new old a.length) := by
  have hlen : (a ++ x :: b).length = a.length + 1 + b.length := by simp; omega
  have hab : (a ++ b).length = a.length + b.length := by simp
  unfold leafDelete
  rw [ho.nkeys, hlen, show a.length + 1 + b.length - 1 = (a ++ b).length by omega,
    show a.length + 1 + b.length - (a.length + 1) = b.length by omega]
  have h0 := filled_setHeader (t := bnodeLeaf) (by decide) hsmall hroom
  have h1 := nodeAppendRange_spec (a := []) (m := a) (b := x :: b) (by simpa using ho) h0
    (by simp only [List.length_nil]; omega)
  rw [size_setHeader, List.nil_append] at h1
  refine h1.bind fun n1 hn1 hs1 => ?_
  have h2 := nodeAppendRange_spec (a := a ++ [x]) (m := b) (b := []) (by simpa using ho) hn1
    (by omega)
  rwa [hs1, show (a ++ [x]).length = a.length + 1 by simp] at h2

/-- `node_merge` concatenates. -/
theorem nodeMerge_spec {left right : BNode} {t tr : Nat} {l r : List Entry}
    (hl : Holds left t l) (hr : Holds right tr r) (ht : t < 2 ^ 16)
    (hsmall : new.size ≤ 2 * btreePageSize) (hroom : 4 + 10 * (l ++ r).length ≤ new.size) :
    Builds new.size t (l ++ r).length (l ++ r) (nodeMerge new left right) := by
  unfold nodeMerge
  rw [hl.btype, hl.nkeys, hr.nkeys, ← List.length_append]
  have h0 := filled_setHeader ht hsmall hroom
  have h1 := nodeAppendRange_spec (a := []) (m := l) (b := []) (by simpa using hl) h0
    (by simp)
  rw [size_setHeader, List.nil_append] at h1
  refine h1.bind fun n1 hn1 hs1 => ?_
  have h2 := nodeAppendRange_spec (a := []) (m := r) (b := []) (by simpa using hr) hn1 (by simp)
  rw [hs1] at h2
  exact h2

/-- A complete list fits exactly when its node does. -/
theorem Builds.holds {size t : Nat} {r : Except Fault BNode} (h : Builds size t es.length es r) :
    Ends (fun f => f = .asserts .appendSize ∧ size < nodeSize es)
      (fun n => Holds n t es ∧ n.size = size) r := h

/-- When they fit, nothing fails. -/
theorem Builds.of_fits {size t : Nat} {r : Except Fault BNode} (h : Builds size t es.length es r)
    (hfit : nodeSize es ≤ size) : ∃ n, r = .ok n ∧ Holds n t es ∧ n.size = size :=
  h.holds.exists_ok fun _ hf => Nat.not_lt.mpr hfit hf.2

/-! ## encode / decode -/

/-- **What is stored reads back**: a node that fits a page survives `encode` and `decode`. -/
theorem encode_spec {n : BNode} {t : Nat} (h : Holds n t es) (hle : nodeSize es ≤ btreePageSize) :
    ∃ page, encode n = .ok page ∧ page.length = btreePageSize ∧ decode page = .ok ⟨page⟩ ∧
      Holds ⟨page⟩ t es := by
  have hused : n.nbytes ≤ btreePageSize := by rw [h.nbytes]; exact hle
  refine ⟨Bytes.writeAt (List.replicate btreePageSize 0) 0 (Bytes.readAt n.data 0 n.nbytes),
    ?_, by simp, ?_, ?_⟩
  · unfold encode
    dsimp only
    rw [require_pos hused, ok_bind]
    rfl
  · unfold decode
    rw [require_pos (by simp), ok_bind]
    rfl
  · refine h.congr (by simpa [BNode.size] using hle) (by simp [BNode.size]; omega) fun i hi => ?_
    rw [Bytes.getD_writeAt (by simp; omega), if_pos (by simp [h.nbytes]; omega)]
    rw [Bytes.readAt, List.getD_eq_getElem?_getD, List.getElem?_map, List.getElem?_range (by
      rw [h.nbytes]; omega)]
    simp

/-- A node's positions are its entries. -/
theorem Holds.map_range {α : Type} {node : BNode} {t : Nat} {es : List Entry} (h : Holds node t es)
    {f : Nat → α} {f' : Entry → α} (hf : ∀ a e b, es = a ++ e :: b → f a.length = f' e) :
    (List.range node.nkeys).map f = es.map f' := by
  rw [h.nkeys]
  refine List.ext_getElem (by simp) fun i hi hi' => ?_
  rw [List.length_map] at hi'
  have hes : es = es.take i ++ es[i] :: es.drop (i + 1) := by
    rw [List.getElem_cons_drop, List.take_append_drop]
  have := hf _ _ _ hes
  rw [List.length_take, Nat.min_eq_left (le_of_lt hi')] at this
  simpa using this

/-! ## Lookup -/

/-- Strictly increasing keys. -/
def KeysSorted (es : List Entry) : Prop := es.Pairwise fun a b => a.key < b.key

theorem Holds.getKey_get {n : BNode} {t : Nat} (h : Holds n t es) {i : Nat}
    (hi : i < es.length) : n.getKey i = es[i].key := by
  have hsplit : es = es.take i ++ es[i] :: es.drop (i + 1) := by
    rw [List.getElem_cons_drop, List.take_append_drop]
  have hlen : (es.take i).length = i := by rw [List.length_take]; omega
  rw [hsplit] at h
  have := h.getKey
  rwa [hlen] at this

theorem KeysSorted.lt {i j : Nat} (hs : KeysSorted es) (hij : i < j) (hj : j < es.length) :
    (es.get ⟨i, by omega⟩).key < es[j].key := List.pairwise_iff_getElem.mp hs i j _ hj hij

/-- The loop invariant: `result` trails `lo` by one, everything before `lo` is at or below the key
and everything after `hi` above it. -/
theorem nodeLookupLeLoop_spec {n : BNode} {t : Nat} (key : Bytes) (h : Holds n t es)
    (hs : KeysSorted es) : ∀ (fuel : Nat) (lo hi : Int), 0 ≤ lo → lo ≤ hi + 1 →
    hi < es.length → hi + 1 - lo ≤ fuel →
    (∀ (i : Nat) (hi' : i < es.length), (i : Int) < lo → es[i].key ≤ key) →
    (∀ (i : Nat) (hi' : i < es.length), hi < (i : Int) → key < es[i].key) →
    ∃ c : Nat, c ≤ es.length ∧ nodeLookupLeLoop n key fuel lo hi (lo - 1) = (c : Int) - 1 ∧
      (∀ (i : Nat) (hi' : i < es.length), i < c → es[i].key ≤ key) ∧
      (∀ (i : Nat) (hi' : i < es.length), c ≤ i → key < es[i].key)
  | 0, lo, hi, hlo, hle, hhi, hf, h1, h2 => by
      refine ⟨lo.toNat, by omega, by rw [nodeLookupLeLoop]; omega, ?_, ?_⟩
      · intro i hi' hlt; exact h1 i hi' (by omega)
      · intro i hi' hge; exact h2 i hi' (by omega)
  | fuel + 1, lo, hi, hlo, hle, hhi, hf, h1, h2 => by
      -- entries below `lo` are at or below the key, those past `hi` are above it
      rw [nodeLookupLeLoop]
      split
      · rename_i hlohi
        dsimp only
        obtain ⟨mid, hmid⟩ : ∃ mid : Nat, lo + (hi - lo) / 2 = mid :=
          ⟨(lo + (hi - lo) / 2).toNat, by omega⟩
        have hml : mid < es.length := by omega
        rw [hmid, Int.toNat_natCast, h.getKey_get hml]
        split
        · -- an exact match
          rename_i heq
          refine ⟨mid + 1, by omega, by omega, ?_, ?_⟩
          · intro i hi' hlt
            rcases Nat.lt_or_eq_of_le (Nat.le_of_lt_succ hlt) with hlt' | rfl
            · exact le_of_lt (heq ▸ hs.lt hlt' hml)
            · exact le_of_eq heq
          · intro i hi' hge
            exact heq ▸ hs.lt (show mid < i by omega) hi'
        · rename_i hne
          split
          · -- the key is to the right
            rename_i hlt
            have ih := nodeLookupLeLoop_spec key h hs fuel (mid + 1) hi (by omega) (by omega) hhi
              (by omega) (fun i hi' hil => ?_) h2
            · rwa [show (mid : Int) + 1 - 1 = mid by omega] at ih
            · rcases Nat.lt_or_eq_of_le (show i ≤ mid by omega) with hlt' | rfl
              · exact le_of_lt (lt_trans (hs.lt hlt' hml) hlt)
              · exact le_of_lt hlt
          · -- the key is to the left
            rename_i hnlt
            have hgt : key < es[mid].key := lt_of_le_of_ne (not_lt.mp hnlt) (Ne.symm hne)
            refine nodeLookupLeLoop_spec key h hs fuel lo (mid - 1) hlo (by omega) (by omega)
              (by omega) h1 fun i hi' hil => ?_
            rcases Nat.lt_or_eq_of_le (show mid ≤ i by omega) with hlt' | rfl
            · exact lt_trans hgt (hs.lt hlt' hi')
            · exact hgt
      · rename_i hgt
        refine ⟨lo.toNat, by omega, by omega, ?_, ?_⟩
        · intro i hi' hlt; exact h1 i hi' (by omega)
        · intro i hi' hge; exact h2 i hi' (by omega)

/-- **Binary search splits the node** into the entries at or below the key and those above it. -/
theorem nodeLookupLe_spec {n : BNode} {t : Nat} (h : Holds n t es) (hs : KeysSorted es)
    (key : Bytes) : ∃ a b, es = a ++ b ∧ nodeLookupLe n key = (a.length : Int) - 1 ∧
      (∀ e ∈ a, e.key ≤ key) ∧ (∀ e ∈ b, key < e.key) := by
  obtain ⟨c, hc, hres, h1, h2⟩ := nodeLookupLeLoop_spec key h hs es.length 0
    (es.length - 1) (le_refl _) (by omega) (by omega) (by omega) (fun i _ hi => by omega)
    (fun i hi hi' => by omega)
  refine ⟨es.take c, es.drop c, (List.take_append_drop c es).symm, ?_, ?_, ?_⟩
  · rw [nodeLookupLe, h.nkeys, List.length_take, min_eq_left hc, ← hres]
    rfl
  · intro e he
    obtain ⟨i, hi, rfl⟩ := List.mem_take_iff_getElem.mp he
    exact h1 i (by omega) (by omega)
  · intro e he
    obtain ⟨i, hi, rfl⟩ := List.mem_drop_iff_getElem.mp he
    exact h2 _ (by omega) (by omega)

/-- The same as the callers use it: either no key is at or below, or the last one that is. -/
theorem nodeLookupLe_cases {n : BNode} {t : Nat} (h : Holds n t es) (hs : KeysSorted es)
    (key : Bytes) : (nodeLookupLe n key = -1 ∧ ∀ e ∈ es, key < e.key) ∨
      ∃ a e b, es = a ++ e :: b ∧ nodeLookupLe n key = a.length ∧ e.key ≤ key ∧
        (∀ x ∈ a, x.key < e.key) ∧ (∀ x ∈ b, key < x.key) := by
  obtain ⟨a, b, hab, hres, ha, hb⟩ := nodeLookupLe_spec h hs key
  rcases List.eq_nil_or_concat a with rfl | ⟨a', e, rfl⟩
  · left
    refine ⟨by rw [hres]; rfl, ?_⟩
    rw [hab, List.nil_append]
    exact hb
  · right
    have hab' : es = a' ++ e :: b := by rw [hab]; simp
    refine ⟨a', e, b, hab', ?_, ha e (by simp), ?_, hb⟩
    · rw [hres]; simp
    · intro x hx
      rw [hab'] at hs
      exact (List.pairwise_append.mp hs).2.2 x hx e (by simp)

/-! ## Split -/

/-- The largest entry: what it takes of a node. -/
def maxEntrySize : Nat := 14 + btreeMaxKeySize + btreeMaxValSize

/-- The largest node an insert builds: a full page and one more entry. -/
def maxNodeSize : Nat := btreePageSize + maxEntrySize

theorem nodeSize_cons_le {e : Entry} (he : e.Fits) (es : List Entry) :
    nodeSize (e :: es) ≤ maxEntrySize + nodeSize es := by
  have hk := he.key; have hv := he.val
  rw [nodeSize_cons, maxEntrySize]; omega

theorem nodeSize_take_drop (es : List Entry) (k : Nat) :
    nodeSize (es.take k) + nodeSize (es.drop k) = nodeSize es + 4 := by
  rw [← nodeSize_append, List.take_append_drop]

theorem nodeSize_ge (es : List Entry) : 4 ≤ nodeSize es := by unfold nodeSize; omega

theorem leftBytes_eq {n : BNode} {t k : Nat} (h : Holds n t es) (hk : k ≤ es.length) :
    leftBytes n k = nodeSize (es.take k) := by
  have hoff : n.getOffset k = recBytes (es.take k) := by
    have h' := h
    rw [← List.take_append_drop k es] at h'
    have := h'.getOffset
    rwa [List.length_take, min_eq_left hk] at this
  have hle := h.nodeSize_le; have hs := h.small
  have hsum := nodeSize_take_drop es k; have hge := nodeSize_ge (es.drop k)
  have hl : (es.take k).length = k := by rw [List.length_take]; omega
  unfold btreePageSize at hs
  rw [leftBytes, hoff, Nat.mod_eq_of_lt] <;> unfold nodeSize at * <;> omega

theorem rightBytes_eq {n : BNode} {t k : Nat} (h : Holds n t es) (hk : k ≤ es.length) :
    rightBytes n k = nodeSize (es.drop k) := by
  have hle := h.nodeSize_le; have hs := h.small
  have hsum := nodeSize_take_drop es k
  have hge := nodeSize_ge (es.take k); have hge' := nodeSize_ge (es.drop k)
  unfold btreePageSize at hs
  rw [rightBytes, leftBytes_eq h hk, h.nbytes]
  omega

theorem splitShrink_spec {n : BNode} {t : Nat} (h : Holds n t es) :
    ∀ k, k ≤ es.length → splitShrink n k ≤ k ∧ (1 ≤ k → 1 ≤ splitShrink n k) ∧
      nodeSize (es.take (splitShrink n k)) ≤ btreePageSize
  | 0, _ => ⟨le_refl _, fun h0 => absurd h0 (by omega), by
      rw [splitShrink, List.take_zero]; decide⟩
  | k + 1, hk => by
      rw [splitShrink, leftBytes_eq h hk]
      split
      · rename_i hbig
        obtain ⟨h1, h2, h3⟩ := splitShrink_spec h k (by omega)
        refine ⟨by omega, fun _ => h2 ?_, h3⟩
        -- one entry never exceeds a page, so the loop was not at the first one
        by_contra hk0
        obtain rfl : k = 0 := by omega
        cases es with
        | nil => simp at hk
        | cons e es =>
            have := nodeSize_cons_le (h.fits e (by simp)) []
            have hnil : nodeSize [] = 4 := rfl
            simp only [List.take_succ_cons, List.take_zero] at hbig
            unfold btreePageSize at hbig
            unfold maxEntrySize btreeMaxKeySize btreeMaxValSize at this
            omega
      · rename_i hle
        exact ⟨le_refl _, fun _ => by omega, by omega⟩

/-- Growing the left half past a page's worth of right half never fills it. -/
theorem splitGrow_spec {n : BNode} {t : Nat} (h : Holds n t es) (hmax : nodeSize es ≤ maxNodeSize) :
    ∀ fuel k, k < es.length → es.length ≤ fuel + k → nodeSize (es.take k) ≤ btreePageSize →
      ∃ r, splitGrow n fuel k = .ok r ∧ k ≤ r ∧ r < es.length ∧
        nodeSize (es.take r) ≤ btreePageSize ∧ nodeSize (es.drop r) ≤ btreePageSize
  | 0, k, hk, hf, _ => absurd hk (by omega)
  | fuel + 1, k, hk, hf, hl => by
      rw [splitGrow, rightBytes_eq h (by omega)]
      split
      · rename_i hbig
        have hdrop : es.drop k = es[k] :: es.drop (k + 1) := List.drop_eq_getElem_cons hk
        have hcons : nodeSize (es.drop k) ≤ maxEntrySize + nodeSize (es.drop (k + 1)) := by
          rw [hdrop]; exact nodeSize_cons_le (h.fits _ (List.getElem_mem hk)) _
        have hsum := nodeSize_take_drop es (k + 1)
        unfold maxNodeSize at hmax
        unfold maxEntrySize btreeMaxKeySize btreeMaxValSize at hmax hcons
        unfold btreePageSize at *
        -- one entry fits a page, so more than one was left
        have hk1 : k + 1 < es.length := by
          by_contra hge
          have : es.drop (k + 1) = [] := List.drop_eq_nil_of_le (by omega)
          rw [this] at hcons
          have hnil : nodeSize [] = 4 := rfl
          omega
        obtain ⟨r, h1, h2, h3, h4⟩ := splitGrow_spec h
          (by unfold maxNodeSize maxEntrySize btreePageSize btreeMaxKeySize btreeMaxValSize; omega)
          fuel (k + 1) hk1 (by omega) (by unfold btreePageSize; omega)
        exact ⟨r, h1, by omega, h3, h4⟩
      · rename_i hle
        exact ⟨k, rfl, le_refl _, hk, hl, by omega⟩

/-- One half of a split: a fresh page filled with a range of the old node. -/
theorem nodeSplit_half {old : BNode} {t : Nat} {a m b : List Entry} (h : Holds old t (a ++ m ++ b))
    (ht : t < 2 ^ 16) (hfit : nodeSize m ≤ btreePageSize) :
    ∃ n, nodeAppendRange ((BNode.zeroed btreePageSize).setHeader t m.length) old 0 a.length
        m.length = .ok n ∧ Holds n t m ∧ n.size = btreePageSize := by
  have hroom : 4 + 10 * m.length ≤ (BNode.zeroed btreePageSize).size := by
    rw [size_zeroed]; unfold nodeSize at hfit; omega
  have h0 := filled_setHeader ht (by rw [size_zeroed]; unfold btreePageSize; omega) hroom
  have h1 := nodeAppendRange_spec h h0 (by simp)
  rw [size_setHeader, size_zeroed, List.nil_append] at h1
  exact h1.of_fits hfit

/-- What `node_split` makes of a node: where its two loops end, and the two halves. -/
structure SplitsAt (old : BNode) (t : Nat) (es : List Entry) (nleft : Nat)
    (l r : BNode) : Prop where
  shrunk : 1 ≤ splitShrink old (old.nkeys / 2)
  grown : splitGrow old (old.nkeys + 1) (splitShrink old (old.nkeys / 2)) = .ok nleft
  pos : 1 ≤ nleft
  lt : nleft < old.nkeys
  split : nodeSplit (.zeroed btreePageSize) (.zeroed btreePageSize) old = .ok (l, r)
  left : Holds l t (es.take nleft)
  leftFits : nodeSize (es.take nleft) ≤ btreePageSize
  right : Holds r t (es.drop nleft)
  rightFits : nodeSize (es.drop nleft) ≤ btreePageSize

/-- **Two halves suffice.** An oversized node splits into two nodes of one page each, which
together hold its entries in order. -/
theorem nodeSplit_at {n : BNode} {t : Nat} (h : Holds n t es) (ht : t < 2 ^ 16)
    (hbig : btreePageSize < nodeSize es) (hmax : nodeSize es ≤ maxNodeSize) :
    ∃ nleft l r, SplitsAt n t es nleft l r := by
  -- no single entry is larger than a page
  have hlen : 2 ≤ es.length := by
    by_contra hlt
    match es, h, hbig with
    | [], _, hbig => exact absurd hbig (by decide)
    | [e], h, hbig =>
        have := nodeSize_cons_le (h.fits e (by simp)) []
        have hnil : nodeSize [] = 4 := rfl
        unfold btreePageSize at hbig
        unfold maxEntrySize btreeMaxKeySize btreeMaxValSize at this
        omega
    | _ :: _ :: _, _, _ => simp at hlt
  obtain ⟨hs1, hs2, hs3⟩ := splitShrink_spec h (es.length / 2) (by omega)
  obtain ⟨k, hg, hk1, hk2, hk3, hk4⟩ := splitGrow_spec h hmax (es.length + 1)
    (splitShrink n (es.length / 2)) (by omega) (by omega) hs3
  have hkl : (es.take k).length = k := by rw [List.length_take]; omega
  have hdl : (es.drop k).length = es.length - k := List.length_drop
  obtain ⟨l, hl1, hl2, hl3⟩ := nodeSplit_half (a := []) (m := es.take k) (b := es.drop k)
    (by simpa using h) ht hk3
  obtain ⟨r, hr1, hr2, hr3⟩ := nodeSplit_half (a := es.take k) (m := es.drop k) (b := [])
    (by simpa using h) ht hk4
  rw [hkl, List.length_nil] at hl1
  rw [hkl, hdl] at hr1
  refine ⟨k, l, r, ?_, ?_, by omega, ?_, ?_, hl2, hk3, hr2, hk4⟩
  · rw [h.nkeys]
    exact hs2 (by omega)
  · rw [h.nkeys]
    exact hg
  · rw [h.nkeys]
    exact hk2
  · unfold nodeSplit
    rw [h.nkeys, h.btype, require_pos hlen, ok_bind]
    dsimp only
    rw [require_pos (by omega), ok_bind, hg, ok_bind, require_pos hk2, ok_bind, hl1, ok_bind, hr1,
      ok_bind, require_pos (by rw [hl2.nbytes]; exact hk3), ok_bind,
      require_pos (by rw [hr2.nbytes]; exact hk4), ok_bind]
    rfl

/-- The pieces a node is split into: each holds a nonempty part that fits a page. -/
def Pieces (t : Nat) (ns : List BNode) (css : List (List Entry)) : Prop :=
  List.Forall₂ (fun n c => Holds n t c ∧ nodeSize c ≤ btreePageSize ∧ c ≠ []) ns css

end SqlDb
