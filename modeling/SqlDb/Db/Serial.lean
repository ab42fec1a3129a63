import SqlDb.Db.Relations

/-!
# Transactions in a row

What the application sees of a database: what its transactions did, one thing after the
other, and what came of it. The versions of the store stand for relations, and each version
for those that the committed transaction made of the version before it; what the write
transaction sees comes in the same way from the latest version. So a database is serial: no
transaction sees the half of another one, an aborted one leaves nothing, and a power loss
takes away whole transactions from the end.

What a transaction does are calls, or statements made of calls; nothing here depends on
which. One in which something threw may be half done, and is not committed.
-/

namespace SqlDb

open Outcome OrdMap

/-- Entries of a journal in a row, each a step of the relations. -/
inductive Relations.Run {ε : Type} (step : Relations → ε → Relations → Prop) :
    Relations → List ε → Relations → Prop where
  | nil {D : Relations} : Run step D [] D
  | snoc {D D' D'' : Relations} {es : List ε} {e : ε} :
      Run step D es D' → step D' e D'' → Run step D (es ++ [e]) D''

/-- What the application saw of its transactions. -/
structure Journal (ε : Type) where
  /-- Of those that were committed, the first first. -/
  committed : List (List ε) := []
  /-- Of the write transaction. -/
  current : List ε := []
  /-- Did something throw in the write transaction? -/
  threw : Bool := false

/-- The journal after a step that the transaction has no part in. A transaction that was published
is the next one of those committed; the store's version counts them. -/
def Journal.next {ε : Type} (j : Journal ε) (db' : DB) : Journal ε where
  committed := (j.committed ++ [j.current]).take db'.world.kv.version
  current := if db'.world.stage.map?.isSome then j.current else []
  threw := j.threw && db'.world.stage.map?.isSome

/-- A stage in which calls are made. -/
def Stage.Running (stage : Stage) : Prop := ∃ tx map, stage = .running tx map

namespace DB

/-! ## Calls of one transaction -/

/-- The database after calls of its write transaction, one after the other. -/
inductive Calls (ok : DBOp → Prop) (db : DB) : DB → Prop where
  | refl : Calls ok db db
  | call {db' : DB} {tx : KVTX} {map map' : Contents} {op : DBOp} {r : Except String DBReply}
      {tx' : DBTX (FreeList TxPages)} : Calls ok db db' → db'.world.stage = .running tx map →
      ok op → DBTX.call op (db'.session tx) = .ok (r, tx') → tx'.tree.Readable map' →
      Calls ok db (db'.called tx map op r tx' map')

section Calls

variable {ok : DBOp → Prop} {db db' : DB}

theorem Calls.reachable (h : Calls ok db db') (hr : Reachable ok db) : Reachable ok db' := by
  induction h with
  | refl => exact hr
  | call _ hst hop hcall hread ih => exact .step ih (.call hst hop hcall hread)

theorem Calls.allocated_le (h : Calls ok db db') : db.allocated ≤ db'.allocated := by
  induction h with
  | refl => exact le_refl _
  | call _ _ _ _ _ ih => exact ih.trans (Nat.le_add_right _ _)

/-- Of the store they change the write transaction only. -/
theorem Calls.world (h : Calls ok db db') (hrunning : db.world.stage.Running) :
    ∃ tx map, db'.world = { db.world with stage := .running tx map } := by
  induction h with
  | refl =>
      obtain ⟨tx, map, hst⟩ := hrunning
      exact ⟨tx, map, by rw [← hst]⟩
  | @call db' tx map map' op r tx' _ _ _ _ _ ih =>
      obtain ⟨_, _, hworld⟩ := ih
      refine ⟨{ tx with tree := tx'.tree }, map', ?_⟩
      show { db'.world with stage := Stage.running { tx with tree := tx'.tree } map' } = _
      rw [hworld]

end Calls

/-! ## Runs with a journal -/

/-- What a write transaction does, as the application takes note of it: with a result, or by a
throw. -/
structure Acts (ε : Type) where
  returned : DB → ε → DB → Prop
  threw : DB → DB → Prop

/-- They are calls of the write transaction, and do to relations with `P` what they mean. -/
structure Acts.Lawful {ε : Type} (A : Acts ε) (P : Relations → Prop)
    (step : Relations → ε → Relations → Prop) : Prop where
  returned : ∀ {db e db'}, Reachable DBOp.Proper db → A.returned db e db' →
    db.world.stage.Running ∧ Calls DBOp.Proper db db'
  threw : ∀ {db db'}, Reachable DBOp.Proper db → A.threw db db' →
    db.world.stage.Running ∧ Calls DBOp.Proper db db'
  refines : ∀ {db e db' pages tx map D}, A.returned db e db' → db.Sound → db.world.Inv pages →
    db'.allocated < 2 ^ 32 - 3 → db.world.stage = .running tx map → Stands map D → P D →
    ∃ tx' map' D', db'.world.stage = .running tx' map' ∧ step D e D' ∧ Stands map' D' ∧ P D'

/-- One step of a run in which a transaction is not committed if something threw in it. -/
inductive Advances {ε : Type} (A : Acts ε) (db : DB) (j : Journal ε) : DB → Journal ε → Prop where
  | returned {db' : DB} {e : ε} : A.returned db e db' →
      Advances A db j db' { j with current := j.current ++ [e] }
  | threw {db' : DB} : A.threw db db' → Advances A db j db' { j with threw := true }
  /-- Any step that the transaction has no part in. -/
  | step {db' : DB} : Step DBOp.Proper db db' →
      (db.world.stage.Running → db'.world.stage.Running → db'.world.stage = db.world.stage) →
      (j.threw = true → db'.world.stage.map?.isSome → db'.world.stage.Running) →
      Advances A db j db' (j.next db')

/-- Such a run, from one state to another. -/
inductive Follows {ε : Type} (A : Acts ε) (db : DB) (j : Journal ε) : DB → Journal ε → Prop where
  | refl : Follows A db j db j
  | next {db' db'' : DB} {j' j'' : Journal ε} : Follows A db j db' j' →
      Advances A db' j' db'' j'' → Follows A db j db'' j''

/-- The states of such runs on a new file. -/
def Orderly {ε : Type} (A : Acts ε) : DB → Journal ε → Prop := Follows A {} {}

section Orderly

variable {ε : Type} {A : Acts ε} {P : Relations → Prop} {step : Relations → ε → Relations → Prop}
  {ok : DBOp → Prop} {db db' : DB} {j j' : Journal ε} {pages : Nat → Multiset Nat}

theorem Advances.reachable (hA : A.Lawful P step) (hr : Reachable DBOp.Proper db)
    (h : Advances A db j db' j') : Reachable DBOp.Proper db' := by
  cases h with
  | returned hreturned => exact (hA.returned hr hreturned).2.reachable hr
  | threw hthrew => exact (hA.threw hr hthrew).2.reachable hr
  | step hstep _ _ => exact .step hr hstep

theorem Advances.allocated_le (hA : A.Lawful P step) (hr : Reachable DBOp.Proper db)
    (h : Advances A db j db' j') : db.allocated ≤ db'.allocated := by
  cases h with
  | returned hreturned => exact (hA.returned hr hreturned).2.allocated_le
  | threw hthrew => exact (hA.threw hr hthrew).2.allocated_le
  | step hstep _ _ => exact hstep.allocated_le

theorem Orderly.reachable (hA : A.Lawful P step) (h : Orderly A db j) :
    Reachable DBOp.Proper db := by
  induction h with
  | refl => exact .start
  | next _ hadvances ih => exact hadvances.reachable hA ih

/-! ## What a step does to the versions -/

/-- **A step that is no call** publishes what was about to be, drops what is not, begins on the
latest version, or leaves things as they are. -/
inductive Moves (w w' : World) : Prop where
  | publish {tx : KVTX} {map : Contents} : w.stage = .synced tx map → w'.stage.map? = none →
      w'.history = w.history ++ [w.next tx map] → Moves w w'
  | drop : w'.stage.map? = none → w'.history = w.history.take (w'.kv.version + 1) → Moves w w'
  | begin : w.stage = .idle → w'.stage.map? = some w.latest.map → w'.stage.Running →
      w'.history = w.history → Moves w w'
  | stay : w'.stage.map? = w.stage.map? → w'.history = w.history → Moves w w'

theorem Step.moves (hstep : Step ok db db') (hb : db.world.Base pages)
    (hcalm : db.world.stage.Running → db'.world.stage.Running → db'.world.stage = db.world.stage) :
    Moves db.world db'.world := by
  have hall : db.world.history = db.world.history.take (db.world.kv.version + 1) := by
    rw [← hb.length, List.take_length]
  cases hstep with
  | beginRead _ => exact .stay rfl rfl
  | endRead _ hend =>
      obtain ⟨_, _, he⟩ := bind_eq_ok.mp hend
      cases he
      exact .stay rfl rfl
  | begin hidle => exact .begin hidle rfl ⟨_, _, rfl⟩ rfl
  | call hst _ _ _ => exact .stay (congrArg Stage.map? (hcalm ⟨_, _, hst⟩ ⟨_, _, rfl⟩)) rfl
  | stop _ => exact .drop rfl hall
  | commit hst _ =>
      refine .stay ?_ rfl
      rw [hst]
      rfl
  | phase hw hst hst' hist => exact .stay (hw.phase hst hst' hist).2.1 hist
  | writeFails _ _ => exact .drop rfl hall
  | publish hst _ => exact .publish hst rfl rfl
  | rootFails _ => exact .drop rfl hall
  | settle _ => exact .drop rfl hall
  | powerLoss _ _ => exact .drop rfl rfl

/-- What a step does to the store is a step of it, or a call. -/
theorem Step.store (hstep : Step ok db db') : World.Step db.world db'.world ∨
    ∃ stage, db'.world = { db.world with stage := stage } := by
  cases hstep with
  | beginRead h1 => exact Or.inl (.beginRead h1)
  | endRead h1 h2 => exact Or.inl (.endRead h1 h2)
  | begin h1 => exact Or.inl (.begin h1)
  | call _ _ _ _ => exact Or.inr ⟨_, rfl⟩
  | stop h1 => exact Or.inl (.abort h1)
  | commit h1 h2 => exact Or.inl (.commit h1 h2)
  | phase h1 _ _ _ => exact Or.inl h1
  | writeFails h1 h2 => exact Or.inl (.writeFails h1 h2)
  | publish h1 h2 => exact Or.inl (.publish h1 h2)
  | rootFails h1 =>
      rcases h1 with h1 | h1
      · exact Or.inl (.rootFails h1)
      · exact Or.inl (.settleFails h1)
  | settle h1 => exact Or.inl (.settle h1)
  | powerLoss h1 h2 => exact Or.inl (.powerLoss h1 h2)

end Orderly

/-! ## Serial -/

/-- The versions stand for relations that come one from the other by what is on the journal. -/
structure Serial {ε : Type} (P : Relations → Prop) (step : Relations → ε → Relations → Prop) (db : DB)
    (j : Journal ε) (Ds : List Relations) : Prop where
  length : Ds.length = db.world.kv.version + 1
  stands : ∀ (i : Nat) V, db.world.history[i]? = some V →
    ∃ D, Ds[i]? = some D ∧ Stands V.map D ∧ P D
  first : Ds[0]? = some fun _ => none
  count : j.committed.length = db.world.kv.version
  committed : ∀ (i : Nat) es, j.committed[i]? = some es → ∃ D D', Ds[i]? = some D ∧
    Ds[i + 1]? = some D' ∧ D.Run step es D'
  current : ∀ map, db.world.stage.map? = some map → j.threw = false → ∃ D D',
    Ds[db.world.kv.version]? = some D ∧ D.Run step j.current D' ∧ Stands map D' ∧ P D'
  idle : db.world.stage.map? = none → j.current = []
  running : j.threw = true → db.world.stage.Running

section Serial

variable {ε : Type} {A : Acts ε} {P : Relations → Prop} {step : Relations → ε → Relations → Prop}
  {ok : DBOp → Prop} {db db' : DB} {j : Journal ε} {pages : Nat → Multiset Nat}
  {Ds : List Relations}

theorem Serial.start (hP : P fun _ => none) : Serial P step {} {} [fun _ => none] where
  length := rfl
  stands i V hV := by
    obtain ⟨hi, rfl⟩ := List.getElem?_eq_some_iff.mp hV
    obtain rfl : i = 0 := Nat.lt_one_iff.mp hi
    exact ⟨_, rfl, stands_empty, hP⟩
  first := rfl
  count := rfl
  committed _ _ h := nomatch h
  current _ h := nomatch h
  idle _ := rfl
  running h := nomatch h

/-- **What returned** goes on the journal. -/
theorem Serial.returned (hA : A.Lawful P step) (h : Serial P step db j Ds)
    (hr : Reachable DBOp.Proper db) (hsound : db.Sound)
    (hinv : db.world.Inv pages) {e : ε} (hreturned : A.returned db e db')
    (hn : db'.allocated < 2 ^ 32 - 3) :
    Serial P step db' { j with current := j.current ++ [e] } Ds := by
  obtain ⟨hrunning, hcalls⟩ := hA.returned hr hreturned
  obtain ⟨tx1, map1, hworld⟩ := hcalls.world hrunning
  obtain ⟨tx, map, hst⟩ := hrunning
  have hmap : db.world.stage.map? = some map := by
    rw [hst]
    rfl
  refine ⟨?_, ?_, h.first, ?_, h.committed, fun m hm hthrew => ?_, fun hm => ?_, fun _ => ?_⟩
  · rw [hworld]
    exact h.length
  · rw [hworld]
    exact h.stands
  · rw [hworld]
    exact h.count
  · obtain ⟨D, D', hD, hrun, hstands, hP⟩ := h.current map hmap hthrew
    obtain ⟨tx', map', D'', hst', hstep, hstands', hP'⟩ :=
      hA.refines hreturned hsound hinv hn hst hstands hP
    rw [hst'] at hm
    obtain rfl := Option.some.inj hm
    refine ⟨D, D'', ?_, .snoc hrun hstep, hstands', hP'⟩
    rw [hworld]
    exact hD
  · rw [hworld] at hm
    cases hm
  · rw [hworld]
    exact ⟨tx1, map1, rfl⟩

theorem Serial.threw (hA : A.Lawful P step) (h : Serial P step db j Ds)
    (hr : Reachable DBOp.Proper db) (hthrew : A.threw db db') :
    Serial P step db' { j with threw := true } Ds := by
  obtain ⟨hrunning, hcalls⟩ := hA.threw hr hthrew
  obtain ⟨tx1, map1, hworld⟩ := hcalls.world hrunning
  refine ⟨?_, ?_, h.first, ?_, h.committed, fun _ _ he => (nomatch he), fun hm => ?_, fun _ => ?_⟩
  · rw [hworld]
    exact h.length
  · rw [hworld]
    exact h.stands
  · rw [hworld]
    exact h.count
  · rw [hworld] at hm
    cases hm
  · rw [hworld]
    exact ⟨tx1, map1, rfl⟩

theorem getElem?_concat_eq_some {α : Type} {xs : List α} {x y : α} {i : Nat}
    (h : (xs ++ [x])[i]? = some y) : xs[i]? = some y ∨ (i = xs.length ∧ y = x) := by
  have hi := (List.getElem?_eq_some_iff.mp h).1
  rw [List.length_append, List.length_singleton] at hi
  rcases Nat.lt_or_ge i xs.length with hlt | hge
  · rw [List.getElem?_append_left hlt] at h
    exact Or.inl h
  · obtain rfl : i = xs.length := by omega
    rw [List.getElem?_concat_length] at h
    exact Or.inr ⟨rfl, (Option.some.inj h).symm⟩

/-- **A version is published**, and stands for what its transaction saw. -/
theorem Serial.publish (h : Serial P step db j Ds) (hb : db.world.Base pages)
    {pages' : Nat → Multiset Nat} (hb' : db'.world.Base pages') {tx : KVTX} {map : Contents}
    (hst : db.world.stage = .synced tx map) (hnone : db'.world.stage.map? = none)
    (hist : db'.world.history = db.world.history ++ [db.world.next tx map]) :
    ∃ D, Serial P step db' (j.next db') (Ds ++ [D]) := by
  have hmap : db.world.stage.map? = some map := by
    rw [hst]
    rfl
  have hcalm : j.threw = false := by
    refine Bool.eq_false_of_not_eq_true fun ht => ?_
    obtain ⟨_, _, he⟩ := h.running ht
    rw [hst] at he
    cases he
  obtain ⟨D, D', hD, hrun, hstands, hP⟩ := h.current map hmap hcalm
  have hversion : db'.world.kv.version = db.world.kv.version + 1 := by
    have hlen' := hb'.length
    rw [hist, List.length_append, List.length_singleton, hb.length] at hlen'
    omega
  have hcommitted : (j.next db').committed = j.committed ++ [j.current] := by
    rw [Journal.next, List.take_of_length_le]
    rw [List.length_append, List.length_singleton, h.count, hversion]
  have hold : ∀ {i D}, Ds[i]? = some D → (Ds ++ [D'])[i]? = some D := fun hi => by
    rw [List.getElem?_append_left (List.getElem?_eq_some_iff.mp hi).1, hi]
  have hnew : (Ds ++ [D'])[db.world.kv.version + 1]? = some D' := by
    rw [← h.length, List.getElem?_concat_length]
  refine ⟨D', ?_, fun i V hV => ?_, hold h.first, ?_, fun i es hes => ?_, fun m hm => ?_,
    fun _ => ?_, fun ht => ?_⟩
  · rw [List.length_append, List.length_singleton, h.length, hversion]
  · rw [hist] at hV
    rcases getElem?_concat_eq_some hV with hV | ⟨rfl, rfl⟩
    · obtain ⟨D1, hD1, hstands1⟩ := h.stands i V hV
      exact ⟨D1, hold hD1, hstands1⟩
    · rw [hb.length]
      exact ⟨D', hnew, hstands, hP⟩
  · rw [hcommitted, List.length_append, List.length_singleton, h.count, hversion]
  · rw [hcommitted] at hes
    rcases getElem?_concat_eq_some hes with hes | ⟨rfl, rfl⟩
    · obtain ⟨D1, D2, h1, h2, hrun'⟩ := h.committed i es hes
      exact ⟨D1, D2, hold h1, hold h2, hrun'⟩
    · rw [h.count]
      exact ⟨D, D', hold hD, hnew, hrun⟩
  · rw [hnone] at hm
    cases hm
  · rw [Journal.next, hnone]
    rfl
  · rw [Journal.next, hcalm] at ht
    cases ht

/-- **Versions are dropped** from the end, and with them the transactions that made them. -/
theorem Serial.drop (h : Serial P step db j Ds) (hb : db.world.Base pages)
    {pages' : Nat → Multiset Nat} (hb' : db'.world.Base pages')
    (hnone : db'.world.stage.map? = none)
    (hist : db'.world.history = db.world.history.take (db'.world.kv.version + 1)) :
    Serial P step db' (j.next db') (Ds.take (db'.world.kv.version + 1)) := by
  have hle : db'.world.kv.version ≤ db.world.kv.version := by
    have hlen' := hb'.length
    rw [hist, List.length_take, hb.length] at hlen'
    omega
  have hold : ∀ {i D}, i < db'.world.kv.version + 1 → Ds[i]? = some D →
      (Ds.take (db'.world.kv.version + 1))[i]? = some D := fun hi hD => by
    rw [List.getElem?_take, if_pos hi, hD]
  refine ⟨?_, fun i V hV => ?_, hold (Nat.succ_pos _) h.first, ?_, fun i es hes => ?_,
    fun m hm => ?_, fun _ => ?_, fun ht => ?_⟩
  · rw [List.length_take, h.length]
    omega
  · rw [hist, List.getElem?_take] at hV
    split at hV
    · rename_i hi
      obtain ⟨D, hD, hstands⟩ := h.stands i V hV
      exact ⟨D, hold hi hD, hstands⟩
    · cases hV
  · rw [Journal.next, List.length_take, List.length_append, List.length_singleton, h.count]
    omega
  · rw [Journal.next, List.getElem?_take] at hes
    split at hes
    · rename_i hi
      rw [List.getElem?_append_left (by rw [h.count]; omega)] at hes
      obtain ⟨D, D', hD, hD', hrun⟩ := h.committed i es hes
      exact ⟨D, D', hold (by omega) hD, hold (by omega) hD', hrun⟩
    · cases hes
  · rw [hnone] at hm
    cases hm
  · rw [Journal.next, hnone]
    rfl
  · rw [Journal.next, hnone] at ht
    simp at ht

/-- **Any other step**. -/
theorem Serial.moved (h : Serial P step db j Ds) (hb : db.world.Base pages)
    {pages' : Nat → Multiset Nat} (hb' : db'.world.Base pages')
    (hmoves : Moves db.world db'.world)
    (hthrew : j.threw = true → db'.world.stage.map?.isSome → db'.world.stage.Running) :
    ∃ Ds', Serial P step db' (j.next db') Ds' := by
  -- without another version the journal of those committed is the same
  have hsame : db'.world.history = db.world.history → db'.world.kv.version = db.world.kv.version ∧
      (j.next db').committed = j.committed := by
    intro hist
    have hlen' := hb'.length
    rw [hist, hb.length] at hlen'
    have hversion : db'.world.kv.version = db.world.kv.version := by omega
    refine ⟨hversion, ?_⟩
    rw [Journal.next, hversion, ← h.count, List.take_left]
  have hkept : ∀ hist : db'.world.history = db.world.history,
      (∀ map, db'.world.stage.map? = some map → (j.next db').threw = false → ∃ D D',
        Ds[db'.world.kv.version]? = some D ∧ D.Run step (j.next db').current D' ∧ Stands map D' ∧
          P D') → Serial P step db' (j.next db') Ds := by
    intro hist hcurrent
    obtain ⟨hversion, hcommitted⟩ := hsame hist
    refine ⟨by rw [hversion, h.length], hist ▸ h.stands, h.first, by rw [hcommitted, hversion, h.count],
      hcommitted ▸ h.committed, hcurrent, fun hm => ?_, fun ht => ?_⟩
    · rw [Journal.next, hm]
      rfl
    · obtain ⟨ht, hsome⟩ := Bool.and_eq_true_iff.mp ht
      exact hthrew ht hsome
  cases hmoves with
  | publish hst hnone hist =>
      obtain ⟨D, hserial⟩ := h.publish hb hb' hst hnone hist
      exact ⟨_, hserial⟩
  | drop hnone hist => exact ⟨_, h.drop hb hb' hnone hist⟩
  | begin hidle hmap _ hist =>
      refine ⟨Ds, hkept hist fun map hm _ => ?_⟩
      obtain rfl := Option.some.inj (hmap.symm.trans hm)
      obtain ⟨D, hD, hstands, hP⟩ := h.stands db.world.kv.version db.world.latest (by
        rw [World.latest, List.getD_eq_getElem?_getD, List.getElem?_eq_getElem (by rw [hb.length]; omega)]
        rfl)
      refine ⟨D, D, by rw [(hsame hist).1, hD], ?_, hstands, hP⟩
      rw [Journal.next, h.idle (by rw [hidle]; rfl), ite_self]
      exact .nil
  | stay hmap hist =>
      refine ⟨Ds, hkept hist fun map hm ht => ?_⟩
      have hcalm : j.threw = false := by
        rw [Journal.next, hm] at ht
        simpa using ht
      obtain ⟨D, D', hD, hrun, hstands⟩ := h.current map (hmap ▸ hm) hcalm
      refine ⟨D, D', by rw [(hsame hist).1, hD], ?_, hstands⟩
      rw [Journal.next, hm]
      exact hrun

/-- **A step keeps a database serial.** -/
theorem Serial.advances (hA : A.Lawful P step) (h : Serial P step db j Ds)
    (hr : Reachable DBOp.Proper db) (hn : db'.allocated < 2 ^ 32 - 3) {j' : Journal ε}
    (hadvances : Advances A db j db' j') : ∃ Ds', Serial P step db' j' Ds' := by
  have hn' := lt_of_le_of_lt (hadvances.allocated_le hA hr) hn
  have hsound := (hr.mono fun _ hop => hop.1).sound hn'
  obtain ⟨pages, hinv⟩ := hr.world
  cases hadvances with
  | returned hreturned => exact ⟨Ds, h.returned hA hr hsound hinv hreturned hn⟩
  | threw hthrew => exact ⟨Ds, h.threw hA hr hthrew⟩
  | step hstep hcalm hthrew =>
      obtain ⟨pages', hinv'⟩ := hstep.world hinv
      exact h.moved hinv.base hinv'.base (hstep.moves hinv.base hcalm) hthrew

/-- **A database is serial** in every state of a run. -/
theorem Orderly.serial (hA : A.Lawful P step) (hP : P fun _ => none) (h : Orderly A db j)
    (hn : db.allocated < 2 ^ 32 - 3) : ∃ Ds, Serial P step db j Ds := by
  induction h with
  | refl => exact ⟨_, .start hP⟩
  | next h hadvances ih =>
      have hr := Orderly.reachable hA h
      obtain ⟨Ds, hserial⟩ := ih (lt_of_le_of_lt (hadvances.allocated_le hA hr) hn)
      exact hserial.advances hA hr hn hadvances

end Serial

end DB

end SqlDb
