import Mathlib.Data.List.GetD
import Mathlib.Data.List.Lex
import Mathlib.Order.Lattice
import Mathlib.Algebra.Order.Group.Nat
import Mathlib.Tactic.Ring
import Mathlib.Tactic.Linarith
import SqlDb.Base.Lex

/-!
# Byte strings

The program's keys, values, pages and names are all runs of bytes, compared
unsigned and lexicographically. This file gives `UInt8` its linear order, which
Mathlib's lexicographic order then carries to lists, and the reading and writing
of a byte buffer at a position — the model of `memcpy` in and out of a page.

Integers in memory are little-endian, the order of the machines the program is
built for; nothing above this file depends on the choice, only on a stored
integer reading back.
-/

/-- Bytes compare as unsigned numbers. -/
instance linearOrderByte : LinearOrder UInt8 where
  le_refl := UInt8.le_refl
  le_trans _ _ _ := UInt8.le_trans
  le_antisymm _ _ := UInt8.le_antisymm
  le_total := UInt8.le_total
  lt_iff_le_not_ge a b := by
    rw [UInt8.lt_iff_toNat_lt, UInt8.le_iff_toNat_le, UInt8.le_iff_toNat_le]; omega
  toDecidableLE := inferInstance
  toDecidableLT := inferInstance
  toDecidableEq := inferInstance

/-- A run of bytes. -/
abbrev Bytes := List UInt8

instance lawfulBEqBytes : LawfulBEq Bytes := inferInstance

/-- `static_cast<int>` of a size: its low 32 bits, as a signed number. -/
def castInt (n : Nat) : Int := (BitVec.ofNat 32 n).toInt

theorem castInt_of_lt {n : Nat} (h : n < 2 ^ 31) : castInt n = n := by
  rw [castInt, BitVec.toInt_ofNat']
  exact Int.bmod_eq_of_le_mul_two (by omega) (by omega)

theorem castInt_lt (n : Nat) : castInt n < 2 ^ 31 := BitVec.toInt_lt

namespace Bytes

/-- The empty string is below every other. -/
theorem nil_lt {b : Bytes} (h : b ≠ []) : [] < b := by
  cases b with
  | nil => exact absurd rfl h
  | cons x xs => exact List.nil_lt_cons x xs

theorem nil_le (b : Bytes) : [] ≤ b := by
  by_cases h : b = []
  · exact le_of_eq h.symm
  · exact le_of_lt (nil_lt h)

/-- The text of a source literal; every one of them is ASCII. -/
def ofString (s : String) : Bytes := s.toList.map fun c => UInt8.ofNat c.toNat

/-! ## Little-endian integers -/

/-- The low `n` bytes of `v`, least significant first. -/
def le : Nat → Nat → Bytes
  | 0, _ => []
  | n + 1, v => UInt8.ofNat (v % 256) :: le n (v / 256)

/-- The number that `le` stored. -/
def toNatLe : Bytes → Nat
  | [] => 0
  | b :: bs => b.toNat + 256 * toNatLe bs

@[simp] theorem length_le (n v : Nat) : (le n v).length = n := by
  induction n generalizing v with
  | zero => rfl
  | succ n ih => simp [le, ih]

theorem toNatLe_le (n v : Nat) : toNatLe (le n v) = v % 256 ^ n := by
  induction n generalizing v with
  | zero => simp [le, toNatLe, Nat.mod_one]
  | succ n ih =>
      have hb : (UInt8.ofNat (v % 256)).toNat = v % 256 := by
        rw [UInt8.toNat_ofNat']; exact Nat.mod_eq_of_lt (by omega)
      rw [le, toNatLe, ih, hb, pow_succ', Nat.mod_mul]

/-! ## Big-endian integers -/

/-- The low `n` bytes of `v`, most significant first: `v >> 8 * (n - 1)` down to `v`. -/
def be : Nat → Nat → Bytes
  | 0, _ => []
  | n + 1, v => UInt8.ofNat (v / 256 ^ n) :: be n v

/-- The number that `be` stored: `u = (u << 8) | byte`, byte by byte. -/
def toNatBe (u : Nat) (b : Bytes) : Nat := b.foldl (fun u x => u * 256 + x.toNat) u

@[simp] theorem length_be (n v : Nat) : (be n v).length = n := by
  induction n with
  | zero => rfl
  | succ n ih => simp [be, ih]

theorem toNat_ofNat_byte (v : Nat) : (UInt8.ofNat v).toNat = v % 256 := UInt8.toNat_ofNat'

theorem toNatBe_be (u n v : Nat) : toNatBe u (be n v) = u * 256 ^ n + v % 256 ^ n := by
  induction n generalizing u with
  | zero => simp [be, toNatBe, Nat.mod_one]
  | succ n ih =>
      have hstep : toNatBe u (be (n + 1) v) = toNatBe (u * 256 + v / 256 ^ n % 256) (be n v) := by
        rw [be, toNatBe, List.foldl_cons, toNat_ofNat_byte]
        rfl
      rw [hstep, ih, Nat.mod_pow_succ]
      ring

theorem toNatBe_acc (u : Nat) (b : Bytes) :
    toNatBe u b = u * 256 ^ b.length + toNatBe 0 b ∧ toNatBe 0 b < 256 ^ b.length := by
  induction b generalizing u with
  | nil => simp [toNatBe]
  | cons x b ih =>
      have hx : x.toNat < 256 := x.toNat_lt
      have h1 : toNatBe u (x :: b) = toNatBe (u * 256 + x.toNat) b := rfl
      have h0 : toNatBe 0 (x :: b) = toNatBe (0 * 256 + x.toNat) b := rfl
      rw [h1, h0, (ih (u * 256 + x.toNat)).1, (ih (0 * 256 + x.toNat)).1,
        List.length_cons, pow_succ]
      refine ⟨by ring, ?_⟩
      have hlt := (ih 0).2
      nlinarith

/-- Every byte of a string is a digit. -/
theorem be_toNatBe (b : Bytes) (u : Nat) : be b.length (toNatBe u b) = b := by
  induction b generalizing u with
  | nil => rfl
  | cons x b ih =>
      have hx : x.toNat < 256 := x.toNat_lt
      have h1 : toNatBe u (x :: b) = toNatBe (u * 256 + x.toNat) b := rfl
      rw [h1, List.length_cons, be, ih]
      obtain ⟨hacc, hlt⟩ := toNatBe_acc (u * 256 + x.toNat) b
      have hdiv : toNatBe (u * 256 + x.toNat) b / 256 ^ b.length = u * 256 + x.toNat := by
        rw [hacc, Nat.mul_comm, Nat.mul_add_div (Nat.pow_pos (by omega)), Nat.div_eq_of_lt hlt,
          Nat.add_zero]
      rw [hdiv]
      congr 1
      refine UInt8.toNat_inj.mp ?_
      rw [toNat_ofNat_byte]
      omega

/-- Numbers that fit are ordered as their bytes, which part where the first digits differ. -/
theorem be_partsBelow {n v w : Nat} (h : v % 256 ^ n < w % 256 ^ n) :
    Lex.PartsBelow (be n v) (be n w) := by
  induction n with
  | zero =>
      rw [pow_zero, Nat.mod_one, Nat.mod_one] at h
      omega
  | succ n ih =>
      rw [Nat.mod_pow_succ, Nat.mod_pow_succ] at h
      have hv : v % 256 ^ n < 256 ^ n := Nat.mod_lt _ (Nat.pow_pos (by omega))
      have hw : w % 256 ^ n < 256 ^ n := Nat.mod_lt _ (Nat.pow_pos (by omega))
      rcases lt_trichotomy (v / 256 ^ n % 256) (w / 256 ^ n % 256) with hd | hd | hd
      · refine Lex.partsBelow_cons _ _ (UInt8.lt_iff_toNat_lt.mpr ?_)
        rw [toNat_ofNat_byte, toNat_ofNat_byte]
        exact hd
      · have hhead : UInt8.ofNat (v / 256 ^ n) = UInt8.ofNat (w / 256 ^ n) :=
          UInt8.toNat_inj.mp (by rw [toNat_ofNat_byte, toNat_ofNat_byte, hd])
        rw [be, be, hhead]
        rw [hd] at h
        exact (ih (by omega)).append_left [_]
      · have := Nat.mul_le_mul_left (256 ^ n) hd
        rw [Nat.mul_succ] at this
        omega

/-! ## A buffer read and written at a position -/

/-- The `n` bytes from `pos` on; a byte past the end reads as 0. -/
def readAt (b : Bytes) (pos n : Nat) : Bytes := (List.range n).map fun i => b.getD (pos + i) 0

/-- `b` with `src` copied over it at `pos`. Never longer than `b`. -/
def writeAt (b : Bytes) (pos : Nat) (src : Bytes) : Bytes :=
  b.mapIdx fun i x => if pos ≤ i ∧ i < pos + src.length then src.getD (i - pos) 0 else x

@[simp] theorem length_readAt (b : Bytes) (pos n : Nat) : (readAt b pos n).length = n := by
  simp [readAt]

@[simp] theorem length_writeAt (b : Bytes) (pos : Nat) (src : Bytes) :
    (writeAt b pos src).length = b.length := by simp [writeAt]

theorem getD_writeAt {b src : Bytes} {pos i : Nat} (hi : i < b.length) :
    (writeAt b pos src).getD i 0 =
      if pos ≤ i ∧ i < pos + src.length then src.getD (i - pos) 0 else b.getD i 0 := by
  simp [writeAt, List.getD_eq_getElem?_getD, hi]

theorem getD_of_length_le {b : Bytes} {i : Nat} (hi : b.length ≤ i) : b.getD i 0 = 0 := by
  simp [List.getD_eq_getElem?_getD, List.getElem?_eq_none hi]

/-- A read depends only on the bytes it covers. -/
theorem readAt_congr {b b' : Bytes} {pos n : Nat}
    (h : ∀ i, pos ≤ i → i < pos + n → b.getD i 0 = b'.getD i 0) :
    readAt b pos n = readAt b' pos n := by
  refine List.map_congr_left fun i hi => ?_
  exact h (pos + i) (by omega) (by have := List.mem_range.mp hi; omega)

/-- What was written reads back. -/
theorem readAt_writeAt_self {b src : Bytes} {pos : Nat} (h : pos + src.length ≤ b.length) :
    readAt (writeAt b pos src) pos src.length = src := by
  refine List.ext_getElem (by simp) fun i hi hi' => ?_
  rw [length_readAt] at hi
  have hw : (writeAt b pos src).getD (pos + i) 0 = _ := getD_writeAt (by omega)
  rw [if_pos ⟨by omega, by omega⟩] at hw
  simp only [readAt, List.getElem_map, List.getElem_range]
  rw [hw, Nat.add_sub_cancel_left, List.getD_eq_getElem _ _ hi']

/-- A part of a part. -/
theorem readAt_readAt {b : Bytes} {pos n i k : Nat} (h : i + k ≤ n) :
    readAt (readAt b pos n) i k = readAt b (pos + i) k := by
  refine List.map_congr_left fun j hj => ?_
  have hlt : i + j < n := by
    have := List.mem_range.mp hj
    omega
  rw [readAt, List.getD_eq_getElem?_getD, List.getElem?_map, List.getElem?_range hlt,
    Option.map_some, Option.getD_some, Nat.add_assoc]

/-- A write leaves the bytes beside it alone. -/
theorem readAt_writeAt_of_disjoint {b src : Bytes} {pos p n : Nat}
    (h : p + n ≤ pos ∨ pos + src.length ≤ p) :
    readAt (writeAt b pos src) p n = readAt b p n := by
  refine readAt_congr fun i hi hi' => ?_
  by_cases hb : i < b.length
  · rw [getD_writeAt hb, if_neg (by omega)]
  · rw [getD_of_length_le (by simpa using Nat.not_lt.mp hb),
      getD_of_length_le (Nat.not_lt.mp hb)]

/-! ## Integers in a buffer -/

/-- A `uint16_t` read from memory. -/
def readU16 (b : Bytes) (pos : Nat) : Nat := toNatLe (readAt b pos 2)

/-- A `uint16_t` written to memory; higher bits of `v` are cut off, as by the cast. -/
def writeU16 (b : Bytes) (pos v : Nat) : Bytes := writeAt b pos (le 2 v)

/-- A `uint64_t` read from memory. -/
def readU64 (b : Bytes) (pos : Nat) : Nat := toNatLe (readAt b pos 8)

/-- A `uint64_t` written to memory. -/
def writeU64 (b : Bytes) (pos v : Nat) : Bytes := writeAt b pos (le 8 v)

@[simp] theorem length_writeU16 (b : Bytes) (pos v : Nat) :
    (writeU16 b pos v).length = b.length := length_writeAt _ _ _

@[simp] theorem length_writeU64 (b : Bytes) (pos v : Nat) :
    (writeU64 b pos v).length = b.length := length_writeAt _ _ _

theorem readU16_writeU16_self {b : Bytes} {pos v : Nat} (h : pos + 2 ≤ b.length)
    (hv : v < 2 ^ 16) : readU16 (writeU16 b pos v) pos = v := by
  have hr : readAt (writeAt b pos (le 2 v)) pos (le 2 v).length = le 2 v :=
    readAt_writeAt_self (by simpa using h)
  rw [length_le] at hr
  rw [readU16, writeU16, hr, toNatLe_le]
  exact Nat.mod_eq_of_lt hv

theorem readU64_writeU64_self {b : Bytes} {pos v : Nat} (h : pos + 8 ≤ b.length)
    (hv : v < 2 ^ 64) : readU64 (writeU64 b pos v) pos = v := by
  have hr : readAt (writeAt b pos (le 8 v)) pos (le 8 v).length = le 8 v :=
    readAt_writeAt_self (by simpa using h)
  rw [length_le] at hr
  rw [readU64, writeU64, hr, toNatLe_le]
  exact Nat.mod_eq_of_lt hv

theorem readU16_writeAt_of_disjoint {b src : Bytes} {pos p : Nat}
    (h : p + 2 ≤ pos ∨ pos + src.length ≤ p) : readU16 (writeAt b pos src) p = readU16 b p := by
  rw [readU16, readAt_writeAt_of_disjoint h, readU16]

theorem readU64_writeAt_of_disjoint {b src : Bytes} {pos p : Nat}
    (h : p + 8 ≤ pos ∨ pos + src.length ≤ p) : readU64 (writeAt b pos src) p = readU64 b p := by
  rw [readU64, readAt_writeAt_of_disjoint h, readU64]

end Bytes
