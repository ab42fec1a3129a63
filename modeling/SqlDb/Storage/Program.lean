import SqlDb.Storage.Cursor
import SqlDb.Storage.Requests
import SqlDb.Storage.BTreeMap

/-!
# Programs of a transaction

What the layers above the store are written in: calls on a tree, in sequence, that can
throw on the way and leave the tree as it is then. A program's specification speaks of
the bindings the tree stands for. `Spec I E p m Q` says that from any tree that stands
for `m`, the program `p` ends in a tree that stands for some bindings again, that `Q`
holds of these and of what it returned or threw, and that it fails in no other way than
its page manager or the size assertion of `node_append_kv`.

The rules are one for each call and the usual ones for sequencing. Pages appear in none
of them.
-/

namespace SqlDb

open Outcome OrdMap

/-! ## Programs -/

/-- What was returned or thrown, and the tree that is left. -/
def Tx (σ α : Type) := BTree σ → Except Fault (Except String α × BTree σ)

namespace Tx

variable {σ α β : Type}

def pure (a : α) : Tx σ α := fun t => .ok (.ok a, t)

def bind (p : Tx σ α) (f : α → Tx σ β) : Tx σ β := fun t =>
  match p t with
  | .ok (.ok a, t) => f a t
  | .ok (.error what, t) => .ok (.error what, t)
  | .error f => .error f

instance : Monad (Tx σ) where
  pure := pure
  bind := bind

/-- A call that throws leaves the tree as it was. -/
def call (f : BTree σ → Except Fault (α × BTree σ)) : Tx σ α := fun t =>
  match f t with
  | .ok (a, t) => .ok (.ok a, t)
  | .error (.throws what) => .ok (.error what, t)
  | .error f => .error f

/-- A computation that only reads. -/
def look (f : BTree σ → Except Fault α) : Tx σ α := call fun t => do
  let a ← f t
  return (a, t)

/-- A computation without the tree. -/
def lift (r : Except Fault α) : Tx σ α := look fun _ => r

def assert (p : Prop) [Decidable p] (a : Assertion) : Tx σ Unit := lift (require p (.asserts a))

variable [PageManager σ]

def get (key : Bytes) : Tx σ (Option Bytes) := look fun t => t.get key

def set (key val : Bytes) : Tx σ Unit := call fun t => do
  let t ← t.insert key val
  return ((), t)

def del (key : Bytes) : Tx σ Bool := call fun t => t.remove key

/-- Whether it wrote, and the request as it was filled in. -/
def update (req : InsertReq) : Tx σ (Bool × InsertReq) := call fun t => do
  let (wrote, req, t) ← t.update req
  return ((wrote, req), t)

def delete (req : DeleteReq) : Tx σ (Bool × DeleteReq) := call fun t => do
  let (found, req, t) ← t.delete req
  return ((found, req), t)

end Tx

/-! ## Trees that can be read -/

section Readable

variable {σ : Type} [PageManager σ]

/-- The tree stands for the bindings `m`, as far as reading goes. -/
def BTree.Readable (t : BTree σ) (m : Contents) : Prop :=
  ∃ ps, TreeAt (PageManager.get t.pages) t.root m ps ∧ (∀ p ∈ ps, p ≠ 0) ∧
    ps.card ≤ PageManager.pageCount t.pages

theorem BTree.Readable.sorted {t : BTree σ} {m : Contents} (h : t.Readable m) : Sorted m := by
  obtain ⟨ps, ht, _⟩ := h
  exact ht.sorted

theorem BTree.Readable.readsAs {t : BTree σ} {m : Contents} (h : t.Readable m) : t.ReadsAs m := by
  obtain ⟨ps, ht, hne, hcount⟩ := h
  exact BTree.readsAs ht hne hcount

theorem BTree.Readable.get {t : BTree σ} {m : Contents} (h : t.Readable m) {key : Bytes}
    (hk : ValidKey key) : t.get key = .ok (lookup m key) := h.readsAs.get key hk

theorem walkOf_all (m : Contents) (i : Nat) :
    walkOf m [] .ge (List.replicate i .next) = m[i]? := by
  have hpos : ∀ n j, (List.replicate n Move.next).foldl (Move.apply m.length) j =
      if n = 0 then j else min (j + n) (m.length + 1) := by
    intro n
    induction n with
    | zero => intro j; rfl
    | succ n ih =>
        intro j
        rw [List.replicate_succ, List.foldl_cons, ih, Move.apply, if_neg (Nat.succ_ne_zero n)]
        split <;> omega
  have hzero : countLt m [] = 0 := by
    rw [countLt, List.countP_eq_zero]
    intro r _
    simp [not_lt.mpr (Bytes.nil_le r.1)]
  have hat : (if i = 0 then 0 + 1 else min (0 + 1 + i) (m.length + 1)) =
      min (i + 1) (m.length + 1) := by
    split <;> omega
  rw [walkOf, seekPos, hzero, hpos, hat, bindingAt]
  by_cases hi : i < m.length
  · rw [if_neg (by omega), show min (i + 1) (m.length + 1) - 1 = i by omega]
  · rw [List.getElem?_eq_none (by omega), if_neg (by omega), List.getElem?_eq_none (by omega)]

/-- **A tree stands for one list of bindings only.** -/
theorem BTree.Readable.unique {t : BTree σ} {m m' : Contents} (h : t.Readable m)
    (h' : t.Readable m') : m = m' := by
  refine List.ext_getElem? fun i => ?_
  have h1 := h.readsAs.walk [] .ge (List.replicate i .next)
  rw [h'.readsAs.walk, walkOf_all, walkOf_all, Except.ok.injEq] at h1
  exact h1.symm

theorem BTree.Denotes.readable {I : σ → Multiset Nat → Prop} {E : Fault → Prop} {t : BTree σ}
    {m : Contents} {ps : Multiset Nat} (hI : LawfulPages I E) (h : t.Denotes I m ps) :
    t.Readable m :=
  ⟨ps, h.tree, fun p hp => (hI.ptr h.owns p hp).1, hI.count h.owns⟩

end Readable

/-! ## Specifications -/

section Spec

variable {σ α β : Type} [PageManager σ] {I : σ → Multiset Nat → Prop} {E : Fault → Prop}
  {m : Contents}

/-- What a program does from a tree that stands for `m`. -/
def Spec (I : σ → Multiset Nat → Prop) (E : Fault → Prop) (p : Tx σ α) (m : Contents)
    (Q : Except String α → Contents → Prop) : Prop :=
  ∀ t ps, t.Denotes I m ps →
    Ends (DeleteFault E) (fun r => ∃ m' ps', r.2.Denotes I m' ps' ∧ Q r.1 m') (p t)

namespace Spec

variable {Q Q' : Except String α → Contents → Prop}

/-- **Consequence.** -/
theorem imp {p : Tx σ α} (h : Spec I E p m Q) (hQ : ∀ r m', Q r m' → Q' r m') :
    Spec I E p m Q' := by
  intro t ps ht
  refine (h t ps ht).imp ?_
  intro r hr
  obtain ⟨m', ps', hd, hq⟩ := hr
  exact ⟨m', ps', hd, hQ _ _ hq⟩

theorem pure {a : α} (h : Q (.ok a) m) : Spec I E (Pure.pure a : Tx σ α) m Q :=
  fun _ ps ht => ⟨m, ps, ht, h⟩

/-- What a tree stands for is sorted. -/
theorem of_sorted {p : Tx σ α} (h : Sorted m → Spec I E p m Q) : Spec I E p m Q :=
  fun t ps ht => h ht.tree.sorted t ps ht

/-- **Sequencing.** A throw in the first part is one of the whole. -/
theorem bind {p : Tx σ α} {f : α → Tx σ β} {R : Except String β → Contents → Prop}
    (h : Spec I E p m Q) (hok : ∀ a m', Q (.ok a) m' → Spec I E (f a) m' R)
    (herr : ∀ what m', Q (.error what) m' → R (.error what) m') : Spec I E (p >>= f) m R := by
  intro t ps ht
  have hp := h t ps ht
  show Ends _ _ (Tx.bind p f t)
  unfold Tx.bind
  cases hr : p t with
  | error e =>
      rw [hr] at hp
      exact hp
  | ok r =>
      rw [hr] at hp
      obtain ⟨r, t'⟩ := r
      obtain ⟨m', ps', hd, hq⟩ := hp
      cases r with
      | ok a => exact hok a m' hq t' ps' hd
      | error what => exact ⟨m', ps', hd, herr what m' hq⟩

/-- A call, from what it does to a tree that stands for `m`. -/
theorem call {f : BTree σ → Except Fault (α × BTree σ)}
    (h : ∀ t ps, t.Denotes I m ps → Ends
      (fun e => DeleteFault E e ∧ (∀ what, e ≠ .throws what) ∨
        ∃ what, e = .throws what ∧ Q (.error what) m)
      (fun r => ∃ m' ps', r.2.Denotes I m' ps' ∧ Q (.ok r.1) m') (f t)) :
    Spec I E (Tx.call f) m Q := by
  intro t ps ht
  have hf := h t ps ht
  unfold Tx.call
  cases hr : f t with
  | ok r =>
      rw [hr] at hf
      exact hf
  | error e =>
      rw [hr] at hf
      rcases hf with ⟨he, hne⟩ | ⟨what, rfl, hq⟩
      · cases e with
        | throws what => exact absurd rfl (hne what)
        | _ => exact he
      · exact ⟨m, ps, ht, hq⟩

/-- Reading. -/
theorem look (hI : LawfulPages I E) {f : BTree σ → Except Fault α}
    (h : ∀ t, t.Readable m → Ends (fun e => ∃ what, e = .throws what ∧ Q (.error what) m)
      (fun a => Q (.ok a) m) (f t)) : Spec I E (Tx.look f) m Q := by
  refine call fun t ps ht => ?_
  refine Ends.bind ((h t (ht.readable hI)).mono (fun e he => Or.inr he) fun a ha => ha) ?_
  intro a ha
  exact ⟨m, ps, ht, ha⟩

theorem lift (hI : LawfulPages I E) {r : Except Fault α}
    (h : Ends (fun e => ∃ what, e = .throws what ∧ Q (.error what) m) (fun a => Q (.ok a) m) r) :
    Spec I E (Tx.lift r : Tx σ α) m Q := look hI fun _ _ => h

theorem assert (hI : LawfulPages I E) {p : Prop} [Decidable p] {a : Assertion}
    {Q : Except String Unit → Contents → Prop} (hp : p) (h : Q (.ok ()) m) :
    Spec I E (Tx.assert p a : Tx σ Unit) m Q := by
  refine lift hI ?_
  rw [require_pos hp]
  exact h

section Calls

variable (hI : LawfulPages I E) (hE : ∀ what, ¬ E (.throws what))

include hE in
theorem not_throws {e : Fault} (h : DeleteFault E e) : ∀ what, e ≠ .throws what := by
  intro what he
  rcases h with h | h
  · exact hE what (he ▸ h)
  · rw [he] at h
    cases h

theorem limit {key : Bytes} {Q : String → Prop} (h : Q (limitText key)) :
    ∃ what, limitFault key = .throws what ∧ Q what := ⟨_, limitFault_eq key, h⟩

include hI in
/-- **`get`** finds the binding. -/
theorem get {key : Bytes} {Q : Except String (Option Bytes) → Contents → Prop}
    (hok : ValidKey key → Q (.ok (lookup m key)) m)
    (herr : ¬ ValidKey key → Q (.error (limitText key)) m) :
    Spec I E (Tx.get key : Tx σ (Option Bytes)) m Q := by
  refine look hI fun t ht => ?_
  by_cases hk : ValidKey key
  · rw [ht.get hk]
    exact hok hk
  · rw [BTree.get_invalid t hk]
    exact limit (herr hk)

include hI hE in
/-- **`set`** binds the key. -/
theorem set {key val : Bytes} {Q : Except String Unit → Contents → Prop}
    (hok : ValidKey key → ValidVal val → Q (.ok ()) (OrdMap.insert m key val))
    (herr : ¬ (ValidKey key ∧ ValidVal val) → Q (.error (limitText key)) m) :
    Spec I E (Tx.set key val : Tx σ Unit) m Q := by
  refine call fun t ps ht => ?_
  by_cases hv : ValidKey key ∧ ValidVal val
  · refine Ends.bind ((ends_delete (BTree.insert_spec hI ht hv.1 hv.2)).mono
      (fun e he => Or.inl ⟨he, not_throws hE he⟩) fun t' ht' => ht') ?_
    intro t' ht'
    obtain ⟨ps', hd⟩ := ht'
    exact ⟨_, ps', hd, hok hv.1 hv.2⟩
  · rw [BTree.insert_invalid t hv, error_bind]
    exact Or.inr (limit (herr hv))

include hI hE in
/-- **`del`** erases the key. -/
theorem del {key : Bytes} {Q : Except String Bool → Contents → Prop}
    (hok : ValidKey key → Q (.ok (lookup m key).isSome) (erase m key))
    (herr : ¬ ValidKey key → Q (.error (limitText key)) m) :
    Spec I E (Tx.del key : Tx σ Bool) m Q := by
  refine call fun t ps ht => ?_
  by_cases hk : ValidKey key
  · refine (BTree.remove_spec hI ht hk).mono (fun e he => Or.inl ⟨he, not_throws hE he⟩) ?_
    intro r hr
    obtain ⟨hfound, _, ps', hd⟩ := hr
    rw [hfound]
    exact ⟨_, ps', hd, hok hk⟩
  · rw [BTree.remove_invalid t hk]
    exact Or.inr (limit (herr hk))

include hI hE in
/-- **`update`** binds the key if the mode allows it. A value too large is only noticed then. -/
theorem update {req : InsertReq} {Q : Except String (Bool × InsertReq) → Contents → Prop}
    (hok : ValidKey req.key → ValidVal req.val →
      req.mode.allows (lookup m req.key).isSome = true →
      Q (.ok (true, req.answered (lookup m req.key))) (OrdMap.insert m req.key req.val))
    (hno : ValidKey req.key → req.mode.allows (lookup m req.key).isSome = false →
      Q (.ok (false, req.answered (lookup m req.key))) m)
    (herr : Q (.error (limitText req.key)) m) :
    Spec I E (Tx.update req : Tx σ (Bool × InsertReq)) m Q := by
  refine call fun t ps ht => ?_
  by_cases hk : ValidKey req.key
  · rw [BTree.update_eq ht.tree (hI.count ht.owns) hk]
    cases hallow : req.mode.allows (lookup m req.key).isSome with
    | false => exact ⟨m, ps, ht, hno hk hallow⟩
    | true =>
        rw [if_pos rfl]
        by_cases hv : ValidVal req.val
        · rw [bind_assoc]
          refine Ends.bind ((ends_delete (BTree.insert_spec hI ht hk hv)).mono
            (fun e he => Or.inl ⟨he, not_throws hE he⟩) fun t' ht' => ht') ?_
          intro t' ht'
          obtain ⟨ps', hd⟩ := ht'
          exact ⟨_, ps', hd, hok hk hv hallow⟩
        · rw [BTree.insert_invalid t fun h => hv h.2, error_bind, error_bind]
          exact Or.inr (limit herr)
  · rw [BTree.update_invalid t hk, error_bind]
    exact Or.inr (limit herr)

include hI hE in
/-- **`delete`** erases the key and reports what it was bound to. -/
theorem delete {req : DeleteReq} {Q : Except String (Bool × DeleteReq) → Contents → Prop}
    (hok : ValidKey req.key → ∀ old, lookup m req.key = some old →
      Q (.ok (true, { req with old := old })) (erase m req.key))
    (hno : ValidKey req.key → lookup m req.key = none → Q (.ok (false, req)) m)
    (herr : ¬ ValidKey req.key → Q (.error (limitText req.key)) m) :
    Spec I E (Tx.delete req : Tx σ (Bool × DeleteReq)) m Q := by
  refine call fun t ps ht => ?_
  by_cases hk : ValidKey req.key
  · refine Ends.bind ((BTree.delete_spec hI ht hk).mono
      (fun e he => Or.inl ⟨he, not_throws hE he⟩) fun r hr => hr) ?_
    intro r hr
    obtain ⟨found, req', t'⟩ := r
    obtain ⟨hfound, hreq, hsame, hd⟩ := hr
    dsimp only at hfound hreq hsame hd ⊢
    cases hlook : lookup m req.key with
    | none =>
        rw [hlook] at hfound hreq
        rw [hfound, hreq, hsame hfound]
        exact ⟨m, ps, ht, hno hk hlook⟩
    | some old =>
        rw [hlook] at hfound hreq
        obtain ⟨ps', hd'⟩ := hd hfound
        rw [hfound, hreq]
        exact ⟨_, ps', hd', hok hk old hlook⟩
  · rw [BTree.delete_invalid t hk, error_bind]
    exact Or.inr (limit (herr hk))

end Calls

end Spec

end Spec

end SqlDb
