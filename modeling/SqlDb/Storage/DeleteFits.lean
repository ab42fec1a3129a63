import SqlDb.Storage.InsertFits

/-!
# When deletes fit

A delete rebuilds every node on its path in one page and splits none. Deleting the first key
below a link puts the next one in the separator's place, which may be longer, and a parent
that was full then exceeds its page. `Shape.Room` is the condition under which that does not
happen, and the only one; nodes that are merged or stored always fit.
-/

namespace SqlDb

open Outcome OrdMap

namespace BTree

section Room

variable {σ : Type} [PageManager σ] {I : σ → Multiset Nat → Prop}

/-- Every delete of a run finds room in the tree it is called on. -/
def FindsRoom (t : BTree σ) : List Call → Prop
  | [] => True
  | c :: calls => (∀ key, c = .remove key → ValidKey key → t.RoomFor key) ∧
      ∀ reply t', t.call c = .ok (reply, t') → FindsRoom t' calls

/-- A delete fails for want of room exactly where there is none. -/
theorem remove_room (hI : LawfulPages I (· = .overflow)) {t : BTree σ} {m : Contents}
    {ps : Multiset Nat} (ht : t.Denotes I m ps) {key : Bytes} (hk : ValidKey key) :
    Ends (SizeFault (· = .overflow) (¬ t.RoomFor key)) (fun _ => t.RoomFor key) (t.remove key) :=
  (remove_exact hI hI (fun _ => hI.frees t.root) ht hk).imp fun _ hr => hr.2

/-- **One call** that finds room never trips the size assertion. -/
theorem call_room (hI : LawfulPages I (· = .overflow)) {t : BTree σ} {m : Contents}
    {ps : Multiset Nat} (ht : t.Denotes I m ps) (c : Call)
    (hroom : ∀ key, c = .remove key → ValidKey key → t.RoomFor key) :
    t.call c ≠ .error (.asserts .appendSize) := by
  intro h
  cases c with
  | insert key val =>
      by_cases hv : ValidKey key ∧ ValidVal val
      · have hspec : Ends (· = .overflow) (fun _ => True) (t.call (.insert key val)) := by
          rw [call, tryInsert_valid t hv.1 hv.2, bind_assoc]
          exact Ends.bind (insert_spec hI ht hv.1 hv.2) fun _ _ => trivial
        rw [h] at hspec
        cases hspec
      · rw [call, tryInsert_invalid t hv] at h
        cases h
  | remove key =>
      by_cases hk : ValidKey key
      · have hspec : Ends (SizeFault (· = .overflow) (¬ t.RoomFor key)) (fun _ => True)
            (t.call (.remove key)) := by
          rw [call, tryRemove_valid t hk, bind_assoc]
          exact Ends.bind (remove_room hI ht hk) fun _ _ => trivial
        rw [h] at hspec
        rcases hspec with h0 | ⟨_, hno⟩
        · cases h0
        · exact hno (hroom key rfl hk)
      · rw [call, tryRemove_invalid t hk] at h
        cases h

/-- **A run** whose deletes find room. -/
theorem run_room (hI : LawfulPages I (· = .overflow)) {t : BTree σ} {m : Contents}
    {ps : Multiset Nat} (ht : t.Denotes I m ps) (calls : List Call) (hroom : t.FindsRoom calls) :
    Ends (· = .overflow) (fun _ => True) (t.run calls) := by
  induction calls generalizing t m ps with
  | nil => trivial
  | cons c calls ih =>
      have hspec := call_spec hI ht c
      have hno := call_room hI ht c hroom.1
      rw [run]
      cases hc : t.call c with
      | error f =>
          rw [hc] at hspec hno
          exact hspec.resolve_right fun h => hno (by rw [h])
      | ok r =>
          rw [hc] at hspec
          obtain ⟨⟨m', ps', hd, _⟩, _⟩ := hspec
          exact ih hd (hroom.2 r.1 r.2 hc)

/-- **Deletes fit their pages exactly where there is room.** A run whose deletes all find room in
the tree they are called on ends early only if the page numbers run out. In every tree that a run
reaches, a delete completes if and only if there is room for it, unless the page numbers run out on
its way; and every node it stores, merged ones among them, fits one page: over a page manager that
asserts this, it does the same. -/
theorem remove_completes_iff (hI : LawfulPages I (· = .overflow)) {s : σ} (hs : I s 0)
    (calls : List Call) :
    (FindsRoom (⟨0, s⟩ : BTree σ) calls →
      Ends (· = .overflow) (fun _ => True) (run (⟨0, s⟩ : BTree σ) calls)) ∧
    ∀ t, run (⟨0, s⟩ : BTree σ) calls = .ok t → ∀ key, ValidKey key →
      (t.remove key ≠ .error .overflow → ((∃ r, t.remove key = .ok r) ↔ t.RoomFor key)) ∧
      (∀ f, t.remove key = .error f → f = .overflow ∨ f = .asserts .appendSize) ∧
      t.remove key = ((⟨t.root, ⟨t.pages⟩⟩ : BTree (SizeChecked σ)).remove key).map
        (Prod.map id (under SizeChecked.pages)) := by
  refine ⟨run_room hI (denotes_empty hs) calls, fun t ht key hk => ?_⟩
  obtain ⟨m, ps, hd, _⟩ := (run_spec hI (denotes_empty hs) calls).of_ok ht
  have hroom := remove_room hI hd hk
  refine ⟨fun hno => ?_, fun f hf => ?_, ?_⟩
  · cases hr : t.remove key with
    | ok r =>
        rw [hr] at hroom
        exact ⟨fun _ => hroom, fun _ => ⟨r, rfl⟩⟩
    | error f =>
        rw [hr] at hroom hno
        have hnot := (hroom.resolve_left fun h => hno (by rw [h])).2
        refine ⟨fun hok => ?_, fun h => absurd h hnot⟩
        obtain ⟨r, h⟩ := hok
        cases h
  · rw [hf] at hroom
    exact Or.imp id And.left hroom
  · have hchecked := remove_spec (t := ⟨t.root, ⟨t.pages⟩⟩) (SizeChecked.lawful hI)
      ⟨hd.tree, hd.owns⟩ hk
    refine (SizeChecked.watches.remove _ key).ends (fun f hf he => ?_) hchecked
    rw [hf] at he
    rcases he with he | he <;> cases he

end Room

/-- Over two leaves in memory, for a delete that merges them. -/
theorem remove_completes_iff_in_memory :
    ∃ t, run (⟨0, {}⟩ : BTree InMemoryPageManager) (inserts sixBindings) = .ok t ∧
      t.DrawnAs twoLeaves ∧
      ((∃ r, t.remove [98] = .ok r) ↔ t.RoomFor [98]) ∧ t.RoomFor [98] ∧
      t.remove [98] = ((⟨t.root, ⟨t.pages⟩⟩ : BTree (SizeChecked InMemoryPageManager)).remove
        [98]).map (Prod.map id (under SizeChecked.pages)) := by
  obtain ⟨t, hrun, ht⟩ := run_six
  have hkey : ValidKey [98] := by decide
  have hroom : t.RoomFor [98] := ht.room_iff.mpr (by decide +kernel)
  have hno : t.remove [98] ≠ .error .overflow := fun h => by
    have hquiet := ht.quiet_remove (by decide) hkey
    rw [h] at hquiet
    exact hquiet rfl
  obtain ⟨hiff, _, hchecked⟩ := (remove_completes_iff InMemoryPageManager.lawful
    InMemoryPageManager.owns_empty (inserts sixBindings)).2 t hrun [98] hkey
  exact ⟨t, hrun, ht.drawn, hiff hno, hroom, hchecked⟩

/-! ## A tree without room -/

/-- One short key among long ones. The root comes to separate the leaves by the empty key, the short
key and four long ones, and a long key follows the short one in its leaf. -/
def tightBindings : List (Bytes × Bytes) :=
  [([2], longVal), (longKey 4, longVal), (longKey 5, longVal), (longKey 6, longVal),
    (longKey 7, longVal), (longKey 8, longVal), (longKey 3, longVal)]

/-- **A delete that overflows its page.** Eight inserts, and the short key is deleted. -/
theorem remove_overflows :
    ∃ t, (⟨0, {}⟩ : BTree InMemoryPageManager).run (inserts ((longKey 1, longVal) :: tightBindings)) =
        .ok t ∧
      ValidKey [2] ∧ t.remove [2] = .error (.asserts .appendSize) := by
  have hvalid : ∀ x ∈ (longKey 1, longVal) :: tightBindings, ValidKey x.1 ∧ ValidVal x.2 := by
    decide +kernel
  have hkey : ValidKey [2] := by decide
  obtain ⟨t, hrun, ht⟩ := run_inserts_drawn _ _ hvalid (by decide)
  have hno : ¬ t.RoomFor [2] := ht.not_room (by decide +kernel)
  obtain ⟨ps, hd⟩ := ht.denotes
  refine ⟨t, hrun, hkey, ?_⟩
  have hspec := remove_room InMemoryPageManager.lawful hd hkey
  have hquiet := ht.quiet_remove (by decide) hkey
  cases hr : t.remove [2] with
  | ok r =>
      rw [hr] at hspec
      exact absurd hspec hno
  | error f =>
      rw [hr] at hspec hquiet
      rw [(hspec.resolve_left hquiet).1]

end BTree

end SqlDb
