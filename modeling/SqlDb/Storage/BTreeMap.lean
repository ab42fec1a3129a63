import SqlDb.Storage.BTreeRun
import Mathlib.Logic.Function.Basic

/-!
# The tree is a finite map

What the tree is for: `insert`, `remove` and `get` act as they do on a map from
keys to values. The map is a function, the calls are replayed on it, and the tree
agrees with it after any sequence of calls, over any page manager that returns
what was stored.

The last section is the plainest such manager, nodes in memory under consecutive
numbers, the one the source's tests use.
-/

namespace SqlDb

open Outcome OrdMap

/-! ## The reference -/

/-- The map a tree stands for. -/
abbrev RefMap := Bytes → Option Bytes

/-- The replies of a call that is to change nothing. -/
def Reply.Failed : Reply → Prop
  | .inserted => False
  | .removed found => found = false
  | .threw _ => True

namespace RefMap

def apply (m : RefMap) : Call → RefMap
  | .insert key val => if ValidKey key ∧ ValidVal val then Function.update m key (some val) else m
  | .remove key => if ValidKey key then Function.update m key none else m

def reply (m : RefMap) : Call → Reply
  | .insert key val => if ValidKey key ∧ ValidVal val then .inserted else .threw (limitText key)
  | .remove key => if ValidKey key then .removed (m key).isSome else .threw (limitText key)

/-- The calls replayed, the first first. -/
def run (m : RefMap) (calls : List Call) : RefMap := calls.foldl apply m

end RefMap

theorem lookup_insert_update {m : Contents} (hm : Sorted m) (key val : Bytes) :
    lookup (OrdMap.insert m key val) = Function.update (lookup m) key (some val) := by
  funext k
  by_cases hk : k = key
  · subst hk; rw [lookup_insert_self hm, Function.update_self]
  · rw [lookup_insert_of_ne hm val hk, Function.update_of_ne hk]

theorem lookup_erase_update {m : Contents} (hm : Sorted m) (key : Bytes) :
    lookup (erase m key) = Function.update (lookup m) key none := by
  funext k
  by_cases hk : k = key
  · subst hk; rw [lookup_erase_self, Function.update_self]
  · rw [lookup_erase_of_ne hm hk, Function.update_of_ne hk]

/-! ## Runs of calls -/

namespace BTree

variable {σ : Type} [PageManager σ]

variable {I : σ → Multiset Nat → Prop} {E : Fault → Prop}

/-- **One call.** The tree moves as the map does, answers as the map does, and its root and pages
are as they were after a call that fails. -/
theorem call_spec (hI : LawfulPages I E) {t : BTree σ} {m : Contents} {ps : Multiset Nat}
    (ht : t.Denotes I m ps) (c : Call) :
    Ends (DeleteFault E) (fun r => (∃ m' ps', r.2.Denotes I m' ps' ∧
        lookup m' = RefMap.apply (lookup m) c) ∧
      r.1 = RefMap.reply (lookup m) c ∧ (r.1.Failed → r.2 = t)) (t.call c) := by
  cases c with
  | insert key val =>
      rw [call, RefMap.apply, RefMap.reply]
      by_cases hv : ValidKey key ∧ ValidVal val
      · rw [if_pos hv, if_pos hv, tryInsert_valid t hv.1 hv.2, bind_assoc]
        refine Ends.bind (ends_delete (BTree.insert_spec hI ht hv.1 hv.2)) ?_
        rintro t' ⟨ps', hd⟩
        exact ⟨⟨_, ps', hd, lookup_insert_update ht.tree.sorted key val⟩, rfl, False.elim⟩
      · rw [if_neg hv, if_neg hv, tryInsert_invalid t hv]
        exact ⟨⟨m, ps, ht, rfl⟩, rfl, fun _ => rfl⟩
  | remove key =>
      rw [call, RefMap.apply, RefMap.reply]
      by_cases hk : ValidKey key
      · rw [if_pos hk, if_pos hk, tryRemove_valid t hk, bind_assoc]
        refine Ends.bind (BTree.remove_spec hI ht hk) ?_
        rintro ⟨found, t'⟩ ⟨hfound, hsame, ps', hd⟩
        exact ⟨⟨_, ps', hd, lookup_erase_update ht.tree.sorted key⟩,
          congrArg Reply.removed hfound, hsame⟩
      · rw [if_neg hk, if_neg hk, tryRemove_invalid t hk]
        exact ⟨⟨m, ps, ht, rfl⟩, rfl, fun _ => rfl⟩

/-- Any sequence of calls, from a tree that stands for a map. -/
theorem run_spec (hI : LawfulPages I E) {t : BTree σ} {m : Contents} {ps : Multiset Nat}
    (ht : t.Denotes I m ps) (calls : List Call) :
    Ends (DeleteFault E) (fun t' => ∃ m' ps', t'.Denotes I m' ps' ∧
      lookup m' = RefMap.run (lookup m) calls) (t.run calls) := by
  induction calls generalizing t m ps with
  | nil => exact ⟨m, ps, ht, rfl⟩
  | cons c calls ih =>
      rw [run]
      refine Ends.bind (call_spec hI ht c) ?_
      rintro ⟨reply, t1⟩ ⟨⟨m1, ps1, hd, hm⟩, _⟩
      refine (ih hd).imp ?_
      rintro t' ⟨m', ps', hd', hm'⟩
      exact ⟨m', ps', hd', by rw [hm', hm]; rfl⟩

/-- **The tree refines a finite map.** After any sequence of calls from the empty tree, `get`
reads what the map holds under every key, and whichever call comes next answers as the map does
and changes nothing if it throws or finds nothing. A run can only end early in a failure of the
page manager or in the size assertion of `node_append_kv`. -/
theorem refines_map (hI : LawfulPages I E) {s : σ} (hs : I s 0) (calls : List Call) :
    (∀ f, run (⟨0, s⟩ : BTree σ) calls = .error f → E f ∨ f = .asserts .appendSize) ∧
    ∀ t, run (⟨0, s⟩ : BTree σ) calls = .ok t →
      (∀ key, ValidKey key → t.get key = .ok (RefMap.run (fun _ => none) calls key)) ∧
      ∀ c, Ends (fun f => E f ∨ f = .asserts .appendSize)
        (fun r => r.1 = RefMap.reply (RefMap.run (fun _ => none) calls) c ∧
          (r.1.Failed → r.2 = t)) (t.call c) := by
  have h := run_spec hI (denotes_empty hs) calls
  refine ⟨fun f hf => by rw [hf] at h; exact h, fun t ht => ?_⟩
  obtain ⟨m, ps, hd, hm⟩ := h.of_ok ht
  have hm' : lookup m = RefMap.run (fun _ => none) calls := hm
  refine ⟨fun key hk => ?_, fun c => ?_⟩
  · rw [get_of_treeAt hd.tree (hI.count hd.owns) hk, hm']
  · rw [← hm']
    exact (call_spec hI hd c).imp fun r hr => hr.2

end BTree

/-- Over pages in memory, after a delete that merges two leaves into one. -/
theorem BTree.refines_map_in_memory :
    ∃ t, BTree.run (⟨0, {}⟩ : BTree InMemoryPageManager) (inserts sixBindings ++ [.remove [98]]) =
      .ok t ∧
      (∀ key, ValidKey key → t.get key = .ok (RefMap.run (fun _ => none)
        (inserts sixBindings ++ [.remove [98]]) key)) ∧
      ∀ c, Ends (fun f => f = .overflow ∨ f = .asserts .appendSize)
        (fun r => r.1 = RefMap.reply (RefMap.run (fun _ => none)
            (inserts sixBindings ++ [.remove [98]])) c ∧
          (r.1.Failed → r.2 = t)) (t.call c) := by
  obtain ⟨t₁, hrun, ht⟩ := run_six
  have hroom : t₁.RoomFor [98] := ht.room_iff.mpr (by decide +kernel)
  obtain ⟨t, hrun'⟩ := ht.run_remove (by decide) (by decide) hroom hrun
  have hmap := BTree.refines_map InMemoryPageManager.lawful InMemoryPageManager.owns_empty
    (inserts sixBindings ++ [.remove [98]])
  exact ⟨t, hrun', hmap.2 t hrun'⟩

end SqlDb
