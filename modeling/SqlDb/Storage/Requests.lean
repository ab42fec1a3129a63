import SqlDb.Storage.BTreeMap

/-!
# Update and delete requests

The two calls of a write transaction that look before they write. They are the same for
every tree, so they are written on the tree, which is all of a transaction that they
use.
-/

namespace SqlDb

open Outcome OrdMap

/-- Existence requirement for `update`. -/
inductive UpdateMode where
  | upsert
  | updateOnly
  | insertOnly
deriving DecidableEq, Repr

/-- `added` and `old` are filled in by the call. -/
structure InsertReq where
  key : Bytes
  val : Bytes
  mode : UpdateMode := .upsert
  added : Bool := false
  old : Bytes := []

structure DeleteReq where
  key : Bytes
  old : Bytes := []

namespace BTree

variable {σ : Type} [PageManager σ]

/-- `KVTX::update`: `set` as the mode has it. -/
def update (t : BTree σ) (req : InsertReq) : Except Fault (Bool × InsertReq × BTree σ) := do
  let old ← t.get req.key
  let req := { req with added := old.isNone, old := old.getD [] }
  if (req.mode = .insertOnly ∧ ¬ req.added) ∨ (req.mode = .updateOnly ∧ req.added) then
    return (false, req, t)
  else
    let t ← t.insert req.key req.val
    return (true, req, t)

/-- `KVTX::del` with a request: `del` that also reports the removed value. -/
def delete (t : BTree σ) (req : DeleteReq) : Except Fault (Bool × DeleteReq × BTree σ) := do
  match ← t.get req.key with
  | none => return (false, req, t)
  | some old =>
      let (found, t) ← t.remove req.key
      return (found, { req with old := old }, t)

end BTree

/-- Does the mode allow a write, the key being there or not? -/
def UpdateMode.allows (mode : UpdateMode) (found : Bool) : Bool :=
  match mode with
  | .upsert => true
  | .updateOnly => found
  | .insertOnly => !found

/-- The test in `update` is for what the mode does not allow. -/
theorem UpdateMode.rejects_iff (mode : UpdateMode) (found : Option Bytes) :
    (mode = .insertOnly ∧ ¬ found.isNone) ∨ (mode = .updateOnly ∧ found.isNone) ↔
      ¬ mode.allows found.isSome = true := by
  cases mode <;> cases found <;> simp [UpdateMode.allows]

/-- The request as `update` leaves it, the key being bound to `found`. -/
def InsertReq.answered (req : InsertReq) (found : Option Bytes) : InsertReq :=
  { req with added := found.isNone, old := found.getD [] }

namespace BTree

variable {σ : Type} [PageManager σ] {I : σ → Multiset Nat → Prop} {E : Fault → Prop} {t : BTree σ}
  {m : Contents} {ps : Multiset Nat}

/-- `update` looks, and then writes if the mode allows it. -/
theorem update_eq (ht : TreeAt (PageManager.get t.pages) t.root m ps)
    (hcount : ps.card ≤ PageManager.pageCount t.pages) {req : InsertReq} (hk : ValidKey req.key) :
    t.update req = if req.mode.allows (lookup m req.key).isSome = true then do
        let t' ← t.insert req.key req.val
        return (true, req.answered (lookup m req.key), t')
      else .ok (false, req.answered (lookup m req.key), t) := by
  unfold update
  rw [get_of_treeAt ht hcount hk, ok_bind]
  dsimp only
  have hallow := req.mode.rejects_iff (lookup m req.key)
  by_cases h : req.mode.allows (lookup m req.key).isSome = true
  · rw [if_pos h, if_neg fun hr => hallow.mp hr h]
    rfl
  · rw [if_neg h, if_pos (hallow.mpr h)]
    rfl

/-- `delete` looks, and then removes what is there. -/
theorem delete_eq (ht : TreeAt (PageManager.get t.pages) t.root m ps)
    (hcount : ps.card ≤ PageManager.pageCount t.pages) {req : DeleteReq} (hk : ValidKey req.key) :
    t.delete req = match lookup m req.key with
      | none => .ok (false, req, t)
      | some old => do
          let (found, t') ← t.remove req.key
          return (found, { req with old := old }, t') := by
  unfold delete
  rw [get_of_treeAt ht hcount hk, ok_bind]
  cases lookup m req.key <;> rfl

theorem update_invalid (t : BTree σ) {req : InsertReq} (hk : ¬ ValidKey req.key) :
    t.update req = .error (limitFault req.key) := by
  unfold update
  rw [get_invalid t hk, error_bind]

theorem delete_invalid (t : BTree σ) {req : DeleteReq} (hk : ¬ ValidKey req.key) :
    t.delete req = .error (limitFault req.key) := by
  unfold delete
  rw [get_invalid t hk, error_bind]

/-- **`delete` removes what is there** and says what it was. -/
theorem delete_spec (hI : LawfulPages I E) (ht : t.Denotes I m ps) {req : DeleteReq}
    (hk : ValidKey req.key) :
    Ends (DeleteFault E) (fun r => r.1 = (lookup m req.key).isSome ∧
      r.2.1 = { req with old := (lookup m req.key).getD req.old } ∧ (r.1 = false → r.2.2 = t) ∧
      (r.1 = true → ∃ ps', r.2.2.Denotes I (erase m req.key) ps')) (t.delete req) := by
  rw [delete_eq ht.tree (hI.count ht.owns) hk]
  cases hm : lookup m req.key with
  | none => exact ⟨rfl, rfl, fun _ => rfl, Bool.noConfusion⟩
  | some old =>
      refine Ends.bind (remove_spec hI ht hk) ?_
      intro r hr
      obtain ⟨h1, h2, h3⟩ := hr
      rw [hm] at h1
      exact ⟨h1, rfl, h2, fun _ => h3⟩

end BTree

end SqlDb
