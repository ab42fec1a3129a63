import SqlDb.Storage.Program
import SqlDb.Storage.SetReturns

/-!
# Programs that go through

A program writes some keys, and each write takes page numbers. `Roomy n t m` says of the
tree `t` that it stands for `m` and has numbers for `n` more writes, over whatever page
manager; `Goes k p m a m'` that a program of `k` writes goes through from there.
-/

namespace SqlDb

open Outcome OrdMap

/-! ## Trees with numbers left -/

/-- The tree stands for `m`, and the numbers suffice for `n` more writes. -/
def Roomy {σ : Type} [PageManager σ] (n : Nat) (t : BTree σ) (m : Contents) : Prop :=
  ∃ (I : σ → Multiset Nat → Prop) (W : Nat → σ → Prop) (c k : Nat) (ps : Multiset Nat),
    LawfulPages I (· = .overflow) ∧ Counts W c ∧ c ≤ 2 ∧ t.Denotes I m ps ∧
      W (8 ^ (k + 1)) t.pages ∧ k + n ≤ 20

section Roomy

variable {σ : Type} [PageManager σ] {n : Nat} {t : BTree σ} {m : Contents}

theorem Roomy.readable (h : Roomy n t m) : t.Readable m := by
  obtain ⟨I, W, c, k, ps, hI, _, _, hden, _⟩ := h
  exact hden.readable hI

theorem Roomy.mono {n' : Nat} (h : Roomy n t m) (hle : n' ≤ n) : Roomy n' t m := by
  obtain ⟨I, W, c, k, ps, hI, hW, hc, hden, hwithin, hkn⟩ := h
  exact ⟨I, W, c, k, ps, hI, hW, hc, hden, hwithin, by omega⟩

/-- **A write into a roomy tree.** -/
theorem Roomy.insert (h : Roomy (n + 1) t m) {key val : Bytes} (hk : ValidKey key)
    (hv : ValidVal val) : ∃ t', t.insert key val = .ok t' ∧ Roomy n t' (OrdMap.insert m key val) := by
  obtain ⟨I, W, c, k, ps, hI, hW, hc, hden, hwithin, hkn⟩ := h
  have hspec := BTree.insert_spec hI hden hk hv
  have hcount := hW.insert_pow hc (by omega) hwithin hk hv
  cases hr : t.insert key val with
  | error f =>
      rw [hr] at hspec hcount
      exact absurd hspec hcount
  | ok t' =>
      rw [hr] at hspec hcount
      obtain ⟨ps', hden'⟩ := hspec
      exact ⟨t', rfl, I, W, c, k + 1, ps', hI, hW, hc, hden', hcount, by omega⟩

end Roomy

/-- A tree in memory. -/
theorem roomy_in_memory {n : Nat} (hn : n ≤ 20) : Roomy n (⟨0, {}⟩ : BTree InMemoryPageManager) [] :=
  ⟨_, _, 1, 0, 0, InMemoryPageManager.lawful, InMemoryPageManager.counts, by decide,
    BTree.denotes_empty InMemoryPageManager.owns_empty, ⟨by decide, by decide⟩, by omega⟩

/-- A transaction as it begins. -/
theorem World.Rests.roomy {w : World} {k n : Nat} (h : w.Rests k) (hn : k + n ≤ 20) :
    Roomy n (w.kv.begin w.file).tree w.latest.map := by
  obtain ⟨pages, hinv⟩ := h.reachable.inv
  obtain ⟨b, hbegan, _, ps, hden⟩ := hinv.base.begin
  exact ⟨_, _, 2, k, ps, TxPages.lawful hbegan.sound, TxPages.counts, le_refl 2, hden,
    ⟨h.stop, h.seq⟩, hn⟩

/-! ## Programs -/

section Programs

variable {σ : Type} [PageManager σ]

/-- From a roomy tree that stands for `m` the program ends in one that stands for `m'`, after `k`
writes at most, and returns `a`. -/
def Goes {α : Type} (k : Nat) (p : Tx σ α) (m : Contents) (a : α) (m' : Contents) : Prop :=
  ∀ n t, Roomy (n + k) t m → ∃ t', p t = .ok (.ok a, t') ∧ Roomy n t' m'

namespace Goes

variable {α β : Type} {j k : Nat} {m m' m'' : Contents} {a : α} {b : β}

theorem pure (a : α) (m : Contents) : Goes 0 (Pure.pure a : Tx σ α) m a m := fun _ t h => ⟨t, rfl, h⟩

theorem bind {p : Tx σ α} {f : α → Tx σ β} (hp : Goes j p m a m') (hf : Goes k (f a) m' b m'') :
    Goes (k + j) (p >>= f) m b m'' := by
  intro n t h
  obtain ⟨t', hrun, h'⟩ := hp (n + k) t (by rwa [Nat.add_assoc])
  obtain ⟨t'', hrun', h''⟩ := hf n t' h'
  refine ⟨t'', ?_, h''⟩
  show Tx.bind p f t = _
  unfold Tx.bind
  rw [hrun]
  exact hrun'

theorem look {f : BTree σ → Except Fault α} (h : ∀ t, t.Readable m → f t = .ok a) :
    Goes 0 (Tx.look f) m a m := by
  intro n t hroomy
  refine ⟨t, ?_, hroomy⟩
  unfold Tx.look Tx.call
  beta_reduce
  rw [h t hroomy.readable]
  rfl

theorem lift {r : Except Fault α} (h : r = .ok a) : Goes 0 (Tx.lift r : Tx σ α) m a m :=
  look fun _ _ => h

theorem assert {p : Prop} [Decidable p] (c : Assertion) (hp : p) :
    Goes 0 (Tx.assert p c : Tx σ Unit) m () m := lift (require_pos hp)

theorem set {key val : Bytes} (hk : ValidKey key) (hv : ValidVal val) :
    Goes 1 (Tx.set key val : Tx σ Unit) m () (OrdMap.insert m key val) := by
  intro n t h
  obtain ⟨t', hins, h'⟩ := h.insert hk hv
  refine ⟨t', ?_, h'⟩
  unfold Tx.set Tx.call
  beta_reduce
  rw [hins]
  rfl

theorem update (req : InsertReq) (hk : ValidKey req.key) (hv : ValidVal req.val)
    (hallow : req.mode.allows (lookup m req.key).isSome = true) :
    Goes 1 (Tx.update req : Tx σ (Bool × InsertReq)) m (true, req.answered (lookup m req.key))
      (OrdMap.insert m req.key req.val) := by
  intro n t h
  obtain ⟨ps, htree, _, hcount⟩ := h.readable
  obtain ⟨t', hins, h'⟩ := h.insert hk hv
  refine ⟨t', ?_, h'⟩
  unfold Tx.update Tx.call
  beta_reduce
  rw [BTree.update_eq htree hcount hk, if_pos hallow, hins]
  rfl

end Goes

end Programs

end SqlDb
