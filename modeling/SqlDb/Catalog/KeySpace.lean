import SqlDb.Base.Bytes

/-!
# Spaces of keys

Every key of the database starts with a number of four bytes, most significant first. The
keys that start with one number are a space; the catalog has two of its own, and gives one
to every table and every index.
-/

namespace SqlDb

/-- The big-endian table prefix of a key. -/
def keyPrefixSize : Nat := 4

/-- The key is one of the space numbered `p`. -/
def InSpace (p : Nat) (key : Bytes) : Prop := Bytes.be keyPrefixSize p <+: key

instance (p : Nat) (key : Bytes) : Decidable (InSpace p key) := by
  unfold InSpace
  infer_instance

theorem inSpace_append (p : Nat) (s : Bytes) : InSpace p (Bytes.be keyPrefixSize p ++ s) :=
  List.prefix_append _ _

theorem be_inj {p q : Nat} (hp : p < 2 ^ 32) (hq : q < 2 ^ 32)
    (h : Bytes.be keyPrefixSize p = Bytes.be keyPrefixSize q) : p = q := by
  have hv := congrArg (Bytes.toNatBe 0) h
  rw [keyPrefixSize, Bytes.toNatBe_be, Bytes.toNatBe_be, show 256 ^ 4 = 2 ^ 32 by norm_num,
    Nat.mod_eq_of_lt hp, Nat.mod_eq_of_lt hq] at hv
  omega

/-- **A key is in one space only.** -/
theorem InSpace.unique {p q : Nat} {key : Bytes} (hp : p < 2 ^ 32) (hq : q < 2 ^ 32)
    (h : InSpace p key) (h' : InSpace q key) : p = q := by
  obtain ⟨s, rfl⟩ := h
  obtain ⟨t, ht⟩ := h'
  exact be_inj hp hq (List.append_inj_left ht (by simp)).symm

end SqlDb
