import SqlDb.Db.Serial
import SqlDb.Storage.Restart

/-!
# What was committed lasts

A commit that returned is durable: its transaction stays where it is on the journal, and so
does what it left, through commits that fail in either phase and through power losses. What
makes it so is `durable_version_`, which never goes back, and which no power loss goes
behind.
-/

namespace SqlDb

open Outcome OrdMap

/-! ## The store -/

namespace World

variable {w w' : World} {pages : Nat → Multiset Nat}

/-- A version that is taken for durable has left a meta page. -/
def Anchored (w : World) : Prop := w.kv.durableVersion ≠ 0 → w.Durable

theorem Inv.durable_file (h : w.Inv pages) (hd : w.Durable) {ws : List PageWrite}
    (hsub : ws.Sublist w.pending) : ¬ (w.disk.pwrites ws).NoMeta := by
  refine fun hno => hd (File.noMeta_of_pwrites (fun pw hpw h0 => ?_) hno)
  obtain ⟨V, _, he⟩ := h.base.saved pw (hsub.subset hpw) h0
  exact ⟨V, he⟩

/-- **`durable_version_` never goes back.** -/
theorem Inv.durable_le (h : w.Inv pages) (ha : w.Anchored) (hstep : Step w w') :
    w.kv.durableVersion ≤ w'.kv.durableVersion ∧ w'.Anchored := by
  have hsame : w'.kv.durableVersion = w.kv.durableVersion → (w.Durable → w'.Durable) →
      w.kv.durableVersion ≤ w'.kv.durableVersion ∧ w'.Anchored := by
    intro hkv hd
    refine ⟨le_of_eq hkv.symm, fun hne => hd (ha ?_)⟩
    rwa [hkv] at hne
  cases hstep with
  | endRead _ hend =>
      obtain ⟨_, _, he⟩ := bind_eq_ok.mp hend
      cases he
      exact hsame rfl id
  | @commit tx map _ _ =>
      obtain ⟨chunks, total, he⟩ := extendMmap_eq w.kv (w.kv.commitSize tx)
      refine hsame ?_ id
      show (w.kv.extendMmap (w.kv.commitSize tx)).durableVersion = _
      rw [he]
  | sync _ => exact hsame rfl fun hd => h.durable_file hd (List.Sublist.refl _)
  | settle hst =>
      refine ⟨h.base.durable, fun _ => ?_⟩
      have hstage := h.stage
      rw [hst] at hstage
      -- the sync wrote the meta page of the latest version
      obtain ⟨before, hpending, _⟩ := hstage
      show ¬ (w.disk.pwrites w.pending).NoMeta
      rw [hpending, File.pwrites_append]
      exact (File.holdsMeta_pwrite _ (length_save _)).sig
  | @powerLoss kept kv hsub hopen =>
      obtain ⟨heq, hzero⟩ := readRoot_durable hopen
      refine ⟨?_, fun hne hno => hne (hzero hno)⟩
      by_cases h0 : w.kv.durableVersion = 0
      · rw [h0]
        exact Nat.zero_le _
      · obtain ⟨V, kv', hV, hmay, hopen', hversion⟩ := h.base.opens (ha h0) hsub
        obtain rfl := Except.ok.inj (hopen.symm.trans hopen')
        show w.kv.durableVersion ≤ kv.durableVersion
        rw [heq, hversion]
        exact (h.base.saved_of_mayHold hV.mem hV.ne hmay).durable
  | _ => exact hsame rfl id

end World

/-! ## The journal -/

namespace DB

variable {ε : Type} {A : Acts ε} {P : Relations → Prop} {step : Relations → ε → Relations → Prop}
  {db db' db'' : DB} {j j' j'' : Journal ε} {pages : Nat → Multiset Nat}

/-- What is durable in one state is there in another one. -/
structure Lasts (db : DB) (j : Journal ε) (db' : DB) (j' : Journal ε) : Prop where
  durable : db.world.kv.durableVersion ≤ db'.world.kv.durableVersion
  history : db.world.history.take (db.world.kv.durableVersion + 1) <+: db'.world.history
  committed : j.committed.take db.world.kv.durableVersion <+: j'.committed

theorem take_prefix_trans {α : Type} {xs ys zs : List α} {m n : Nat} (hmn : m ≤ n)
    (h : xs.take m <+: ys) (h' : ys.take n <+: zs) : xs.take m <+: zs := by
  refine List.IsPrefix.trans (List.prefix_take_iff.mpr ⟨h, ?_⟩) h'
  exact (List.length_take_le _ _).trans hmn

theorem Lasts.refl : Lasts db j db j :=
  ⟨le_refl _, List.take_prefix _ _, List.take_prefix _ _⟩

theorem Lasts.trans (h : Lasts db j db' j') (h' : Lasts db' j' db'' j'') : Lasts db j db'' j'' :=
  ⟨h.durable.trans h'.durable, take_prefix_trans (Nat.succ_le_succ h.durable) h.history h'.history,
    take_prefix_trans h.durable h.committed h'.committed⟩

/-- What a transaction does leaves the store as it is. -/
theorem Calls.lasts (hcalls : Calls DBOp.Proper db db') (hrunning : db.world.stage.Running)
    (hj : j'.committed = j.committed) (ha : db.world.Anchored) :
    Lasts db j db' j' ∧ db'.world.Anchored := by
  obtain ⟨tx, map, hworld⟩ := hcalls.world hrunning
  refine ⟨⟨?_, ?_, ?_⟩, ?_⟩
  · rw [hworld]
  · rw [hworld]
    exact List.take_prefix _ _
  · rw [hj]
    exact List.take_prefix _ _
  · rw [hworld]
    exact ha

/-- **A step leaves what is durable.** -/
theorem Advances.lasts (hA : A.Lawful P step) (hr : Reachable DBOp.Proper db)
    (ha : db.world.Anchored) (h : Advances A db j db' j') :
    Lasts db j db' j' ∧ db'.world.Anchored := by
  cases h with
  | returned hreturned =>
      obtain ⟨hrunning, hcalls⟩ := hA.returned hr hreturned
      exact hcalls.lasts hrunning rfl ha
  | threw hthrew =>
      obtain ⟨hrunning, hcalls⟩ := hA.threw hr hthrew
      exact hcalls.lasts hrunning rfl ha
  | step hstep hcalm _ =>
      obtain ⟨pages, hinv⟩ := hr.world
      obtain ⟨pages', hinv'⟩ := hstep.world hinv
      obtain ⟨hle, ha'⟩ : db.world.kv.durableVersion ≤ db'.world.kv.durableVersion ∧
          db'.world.Anchored := by
        rcases hstep.store with hworld | ⟨stage, hworld⟩
        · exact hinv.durable_le ha hworld
        · rw [hworld]
          exact ⟨le_refl _, ha⟩
      -- no version is dropped that is durable
      have hversion : db.world.kv.durableVersion ≤ db'.world.kv.version :=
        hle.trans hinv'.base.durable
      refine ⟨⟨hle, ?_, ?_⟩, ha'⟩
      · cases hstep.moves hinv.base hcalm with
        | publish _ _ hist =>
            rw [hist]
            exact (List.take_prefix _ _).trans (List.prefix_append _ _)
        | drop _ hist =>
            rw [hist]
            exact List.take_prefix_take_left (Nat.succ_le_succ hversion)
        | begin _ _ _ hist =>
            rw [hist]
            exact List.take_prefix _ _
        | stay _ hist =>
            rw [hist]
            exact List.take_prefix _ _
      · refine List.prefix_take_iff.mpr ⟨(List.take_prefix _ _).trans (List.prefix_append _ _), ?_⟩
        exact (List.length_take_le _ _).trans hversion

theorem Orderly.anchored (hA : A.Lawful P step) (h : Orderly A db j) : db.world.Anchored := by
  induction h with
  | refl => exact fun hne => absurd rfl hne
  | next h hadvances ih => exact (hadvances.lasts hA (Orderly.reachable hA h) ih).2

/-- **A run leaves what is durable.** -/
theorem Follows.lasts (hA : A.Lawful P step) (hr : Reachable DBOp.Proper db)
    (ha : db.world.Anchored) (h : Follows A db j db' j') :
    Lasts db j db' j' ∧ Reachable DBOp.Proper db' ∧ db'.world.Anchored ∧
      db.allocated ≤ db'.allocated := by
  induction h with
  | refl => exact ⟨.refl, hr, ha, le_refl _⟩
  | next _ hadvances ih =>
      obtain ⟨hlasts, hr', ha', hle⟩ := ih
      obtain ⟨hnext, ha''⟩ := hadvances.lasts hA hr' ha'
      exact ⟨hlasts.trans hnext, hadvances.reachable hA hr', ha'',
        hle.trans (hadvances.allocated_le hA hr')⟩

theorem Follows.trans (h : Follows A db j db' j') (h' : Follows A db' j' db'' j'') :
    Follows A db j db'' j'' := by
  induction h' with
  | refl => exact h
  | next _ hadvances ih => exact .next ih hadvances

/-- The database after a commit that returned. -/
def settled (db : DB) : DB :=
  { db with world := { db.world.sync with kv := db.world.kv.settle, stage := .idle } }

/-- **What was committed lasts**: the transactions, and the relations of their versions. -/
theorem Orderly.lasts (hA : A.Lawful P step) (hP : P fun _ => none) (h : Orderly A db j)
    (hroot : db.world.stage = .rooted) (hafter : Follows A db.settled (j.next db.settled) db' j')
    (hn : db'.allocated < 2 ^ 32 - 3) : j.committed <+: j'.committed ∧
      ∃ Ds Ds', Serial P step db j Ds ∧ Serial P step db' j' Ds' ∧ Ds <+: Ds' := by
  have hsettles : Follows A db j db.settled (j.next db.settled) := by
    refine .next .refl (.step (.settle hroot) (fun hrunning => ?_) fun _ hsome => ?_)
    · obtain ⟨_, _, he⟩ := hrunning
      rw [hroot] at he
      cases he
    · cases hsome
  have hr := Orderly.reachable hA h
  obtain ⟨hlasts, hr', _, hle⟩ := hafter.lasts hA (hsettles.lasts hA hr (h.anchored hA)).2.1
    (hsettles.lasts hA hr (h.anchored hA)).2.2.1
  obtain ⟨Ds, hserial⟩ := h.serial hA hP (lt_of_le_of_lt hle hn)
  obtain ⟨Ds', hserial'⟩ := Orderly.serial hA hP ((Follows.trans h hsettles).trans hafter) hn
  obtain ⟨pages, hinv⟩ := hr.world
  obtain ⟨pages', hinv'⟩ := hr'.world
  -- all that there is of the journal is durable
  have hjournal : (j.next db.settled).committed.take db.world.kv.version = j.committed := by
    show ((j.committed ++ [j.current]).take db.world.kv.version).take db.world.kv.version = _
    rw [List.take_take, min_self, ← hserial.count, List.take_left]
  have hhistory : db.world.history <+: db'.world.history := by
    have hprefix : db.world.history.take (db.world.kv.version + 1) <+: _ := hlasts.history
    rwa [List.take_of_length_le (le_of_eq hinv.base.length)] at hprefix
  refine ⟨?_, Ds, Ds', hserial, hserial', ?_⟩
  · have hprefix : (j.next db.settled).committed.take db.world.kv.version <+: _ := hlasts.committed
    rwa [hjournal] at hprefix
  · -- a version of both histories stands for the same relations
    refine List.prefix_iff_getElem?.mpr fun i hi => ?_
    have hi' : i < db.world.history.length := by
      rw [hinv.base.length, ← hserial.length]
      exact hi
    have hV := List.prefix_iff_getElem?.mp hhistory i hi'
    obtain ⟨D, hD, hstands, _⟩ := hserial.stands i _ (List.getElem?_eq_getElem hi')
    obtain ⟨D', hD', hstands', _⟩ := hserial'.stands i _ hV
    rw [List.getElem?_eq_getElem hi, Option.some.injEq] at hD
    rw [hD', hstands'.unique hstands, hD]

/-! ## A commit that goes through -/

/-- A step within a commit leaves the journal. -/
theorem next_eq (hcount : j.committed.length = db'.world.kv.version) (ht : j.threw = false)
    (hmap : db'.world.stage.map?.isSome) : j.next db' = j := by
  have htake : (j.committed ++ [j.current]).take db'.world.kv.version = j.committed := by
    rw [← hcount, List.take_left]
  unfold Journal.next
  rw [hmap, ht, htake, if_pos rfl, Bool.false_and, ← ht]

/-- In a commit no call is made. -/
theorem Advances.commits (hstep : Step DBOp.Proper db db') (hst : ¬ db'.world.stage.Running)
    (ht : j.threw = false) : Advances A db j db' (j.next db') := by
  refine .step hstep (fun _ hrunning => absurd hrunning hst) fun he _ => ?_
  rw [ht] at he
  cases he

/-- And up to where it publishes the journal stays. -/
theorem Advances.stays (hstep : Step DBOp.Proper db db') (hst : ¬ db'.world.stage.Running)
    (ht : j.threw = false) (hcount : j.committed.length = db'.world.kv.version)
    (hmap : db'.world.stage.map?.isSome) : Advances A db j db' j := by
  have hadvances := Advances.commits (A := A) hstep hst ht
  rwa [next_eq hcount ht hmap] at hadvances

theorem not_running {stage : Stage} (h : Committing stage) : ¬ stage.Running := by
  intro hrunning
  obtain ⟨_, _, rfl⟩ := hrunning
  rcases h with ⟨_, _, _, h⟩ | ⟨_, _, h⟩ | h | h <;> cases h

/-- The writes of phase 1 can all go through. -/
theorem Follows.write_all {tx : KVTX} {map : Contents} {todo : List PageWrite}
    (hst : db.world.stage = .writing tx map todo)
    (hcount : j.committed.length = db.world.kv.version) (ht : j.threw = false) :
    ∃ db', Follows A db j db' j ∧ db'.world.stage = .writing tx map [] ∧
      db'.world.kv = db.world.kv ∧ db'.allocated = db.allocated := by
  induction todo generalizing db with
  | nil => exact ⟨db, .refl, hst, rfl, rfl⟩
  | cons pw todo ih =>
      have hwriting : ∀ {todo}, Committing (.writing tx map todo) := Or.inl ⟨_, _, _, rfl⟩
      obtain ⟨db1, hstep, hst1, hkv, halloc⟩ : ∃ db1, Step DBOp.Proper db db1 ∧
          db1.world.stage = .writing tx map todo ∧ db1.world.kv = db.world.kv ∧
          db1.allocated = db.allocated :=
        ⟨_, .phase (.write hst) (hst ▸ hwriting) hwriting rfl, rfl, rfl, rfl⟩
      have hcount1 : j.committed.length = db1.world.kv.version := by rw [hkv, hcount]
      have hadvances : Advances A db j db1 j := .stays hstep (not_running (hst1 ▸ hwriting)) ht hcount1
        (by rw [hst1]; rfl)
      obtain ⟨db', hfollows, hst', hkv', halloc'⟩ := ih hst1 hcount1
      exact ⟨db', Follows.trans (.next .refl hadvances) hfollows, hst', hkv'.trans hkv,
        halloc'.trans halloc⟩

/-- **A commit can go through**, up to its meta page's `fsync`. -/
theorem Follows.commits {tx : KVTX} {map : Contents} (hst : db.world.stage = .running tx map)
    (hne : tx.tree.root ≠ db.world.kv.root) (hlt : db.world.kv.version + 1 < 2 ^ 63)
    (hcount : j.committed.length = db.world.kv.version) (ht : j.threw = false) :
    ∃ db', Follows A db j db' { committed := j.committed ++ [j.current] } ∧
      db'.world.stage = .rooted ∧ db'.allocated = db.allocated := by
  have hwriting : ∀ {todo}, Committing (.writing tx map todo) := Or.inl ⟨_, _, _, rfl⟩
  have hsynced : Committing (.synced tx map) := Or.inr (Or.inl ⟨_, _, rfl⟩)
  have hpublished : Committing .published := Or.inr (Or.inr (Or.inl rfl))
  have hrooted : Committing .rooted := Or.inr (Or.inr (Or.inr rfl))
  obtain ⟨db1, hstep1, hst1, hversion1, halloc1⟩ : ∃ db1, Step DBOp.Proper db db1 ∧
      db1.world.stage = .writing tx map (pageWrites tx.pageUpdates) ∧
      db1.world.kv.version = db.world.kv.version ∧ db1.allocated = db.allocated :=
    ⟨_, .commit hst hne, rfl, KV.extendMmap_version _ _, rfl⟩
  have hadvances1 : Advances A db j db1 j := .stays hstep1 (not_running (hst1 ▸ hwriting)) ht
    (hcount.trans hversion1.symm) (by rw [hst1]; rfl)
  obtain ⟨db2, hwrites, hst2, hkv2, halloc2⟩ :=
    Follows.write_all (A := A) hst1 (hcount.trans hversion1.symm) ht
  obtain ⟨db3, hstep3, hst3, hkv3, halloc3⟩ : ∃ db3, Step DBOp.Proper db2 db3 ∧
      db3.world.stage = .synced tx map ∧ db3.world.kv = db2.world.kv ∧
      db3.allocated = db2.allocated :=
    ⟨_, .phase (.sync hst2) (hst2 ▸ hwriting) hsynced rfl, rfl, rfl, rfl⟩
  have hversion3 : db3.world.kv.version = db.world.kv.version := by rw [hkv3, hkv2, hversion1]
  have hadvances3 : Advances A db2 j db3 j := .stays hstep3 (not_running (hst3 ▸ hsynced)) ht
    (hcount.trans hversion3.symm) (by rw [hst3]; rfl)
  -- the transaction goes among those committed
  obtain ⟨db4, hstep4, hst4, hversion4, halloc4⟩ : ∃ db4, Step DBOp.Proper db3 db4 ∧
      db4.world.stage = .published ∧ db4.world.kv.version = db3.world.kv.version + 1 ∧
      db4.allocated = db3.allocated :=
    ⟨_, .publish hst3 (by rw [hversion3]; exact hlt), rfl, rfl, rfl⟩
  have hnext4 : j.next db4 = { committed := j.committed ++ [j.current] } := by
    unfold Journal.next
    rw [hst4, hversion4, hversion3, ← hcount, List.take_of_length_le (by simp), ht]
    rfl
  have hadvances4 := Advances.commits (A := A) hstep4 (not_running (hst4 ▸ hpublished)) ht
  rw [hnext4] at hadvances4
  obtain ⟨db5, hstep5, hst5, hkv5, halloc5⟩ : ∃ db5, Step DBOp.Proper db4 db5 ∧
      db5.world.stage = .rooted ∧ db5.world.kv = db4.world.kv ∧ db5.allocated = db4.allocated :=
    ⟨_, .phase (.writeRoot hst4) (hst4 ▸ hpublished) hrooted rfl, rfl, rfl, rfl⟩
  have hnext5 : Journal.next { committed := j.committed ++ [j.current] } db5 =
      { committed := j.committed ++ [j.current] } := by
    unfold Journal.next
    rw [hst5, hkv5, hversion4, hversion3, ← hcount, List.take_left' (by simp)]
    rfl
  have hadvances5 := Advances.commits (A := A) (j := { committed := j.committed ++ [j.current] })
    hstep5 (not_running (hst5 ▸ hrooted)) rfl
  rw [hnext5] at hadvances5
  have hfollows := ((Follows.trans (.next .refl hadvances1) hwrites).next hadvances3).next hadvances4
  refine ⟨db5, hfollows.next hadvances5, hst5, ?_⟩
  rw [halloc5, halloc4, halloc3, halloc2, halloc1]

end DB

end SqlDb
