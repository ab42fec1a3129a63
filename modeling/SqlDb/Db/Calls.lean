import SqlDb.Catalog.Cache
import SqlDb.Db.DBTX

/-!
# What a call leaves

A call on a table leaves the cache good for the bindings it began on, and writes in the
spaces of the definition it looked up, whatever these are. `table_new` leaves the cache
alone.
-/

namespace SqlDb

open Outcome OrdMap

namespace DBTX

section Calls

variable {σ α ε : Type} [PageManager σ] {I : σ → Multiset Nat → Prop}

/-- The bindings after a call on a table. -/
def Wrote (m m' : Contents) : Prop :=
  m' = m ∨ ∃ name tdef, definition m name = some tdef ∧ SameOutside tdef.Owns m m'

/-- What a call on a table leaves, if the cache was good. -/
def Kept (tx : DBTX σ) (m : Contents) (tx' : DBTX σ) (m' : Contents) : Prop :=
  tx'.createdTable = tx.createdTable ∧ (tx.catalog.Good m → Wrote m m' ∧ tx'.catalog.Good m)

/-- What a call leaves of the transaction `tx`, over the bindings `m`. -/
def Effect (op : DBOp) (tx : DBTX σ) (m : Contents) (r : Except String DBReply) (tx' : DBTX σ)
    (m' : Contents) : Prop :=
  match op with
  | .tableNew tdef => ∃ r0, TableNew m tdef r0 m' ∧ r = r0.map .done ∧ tx'.catalog = tx.catalog ∧
      tx'.createdTable = (tx.createdTable || decide (r0 = .ok (.ok ())))
  | _ => Kept tx m tx' m'

/-- A call ends in a transaction whose tree stands for some bindings again. -/
def Does (I : σ → Multiset Nat → Prop) (c : Call σ α) (tx : DBTX σ)
    (Q : Except String α → DBTX σ → Contents → Prop) : Prop :=
  Ends (DeleteFault Stops) (fun r => ∃ m' ps', r.2.tree.Denotes I m' ps' ∧ Q r.1 r.2 m') (c tx)

theorem Does.imp {c : Call σ α} {tx : DBTX σ}
    {Q Q' : Except String α → DBTX σ → Contents → Prop} (h : Does I c tx Q)
    (hQ : ∀ r tx' m', Q r tx' m' → Q' r tx' m') : Does I c tx Q' := by
  refine Ends.imp h ?_
  intro r hr
  obtain ⟨m', ps', hd, hq⟩ := hr
  exact ⟨m', ps', hd, hQ _ _ _ hq⟩

theorem onTree_does {p : Tx σ α} {m : Contents} {tx : DBTX σ} {ps : Multiset Nat}
    {Q : Except String α → Contents → Prop} (ht : tx.tree.Denotes I m ps)
    (h : Spec I Stops p m Q) : Does I (onTree p) tx fun r tx' m' =>
      Q r m' ∧ tx'.catalog = tx.catalog ∧ tx'.createdTable = tx.createdTable := by
  have hp := h tx.tree ps ht
  unfold Does onTree
  cases hrun : p tx.tree with
  | error f =>
      rw [hrun] at hp
      exact hp
  | ok out =>
      rw [hrun] at hp
      obtain ⟨m', ps', hd, hq⟩ := hp
      exact ⟨m', ps', hd, hq, rfl, rfl⟩

/-- **A table is found** as it is stored. -/
theorem findTable_eq {m : Contents} {tx : DBTX σ} (hread : tx.tree.Readable m) (table : Bytes) :
    ∃ r catalog, findTable table tx = .ok (r, { tx with catalog := catalog }) ∧
      (tx.catalog.Good m → catalog.Good m ∧ ∀ tdef, r = .ok tdef → tdef = definition m table) := by
  obtain ⟨r, hr⟩ := tx.catalog.getTableDef_reads hread table
  unfold findTable
  rw [hr]
  cases r with
  | error what => exact ⟨_, tx.catalog, rfl, fun hgood => ⟨hgood, fun _ he => nomatch he⟩⟩
  | ok out =>
      refine ⟨_, out.2, rfl, fun hgood => ?_⟩
      by_cases hk : ValidKey (tableKey table)
      · obtain ⟨catalog, hgood', hget⟩ := hgood.getTableDef hread hk
        rw [hr] at hget
        obtain rfl := Except.ok.inj (Prod.mk.inj (Except.ok.inj hget)).1
        exact ⟨hgood', fun tdef he => (Except.ok.inj he).symm⟩
      · rw [hgood.getTableDef_invalid hread hk] at hr
        cases hr

/-- **A call on a table**, from what its program writes. -/
theorem onTable_does {m : Contents} {tx : DBTX σ} {ps : Multiset Nat} (hI : LawfulPages I Stops)
    (ht : tx.tree.Denotes I m ps) (table : Bytes) (miss : Bytes → ε)
    {p : TableDef → Tx σ (Except ε α)} (hp : ∀ tdef, (p tdef).Writes I tdef.Owns) :
    Does I (onTable table miss p) tx fun _ => Kept tx m := by
  obtain ⟨r, catalog, hfind, hgood⟩ := findTable_eq (ht.readable hI) table
  have hread : Kept tx m { tx with catalog := catalog } m :=
    ⟨rfl, fun h => ⟨Or.inl rfl, (hgood h).1⟩⟩
  unfold Does onTable
  rw [hfind]
  cases r with
  | error what => exact ⟨m, ps, ht, hread⟩
  | ok found =>
      cases found with
      | none => exact ⟨m, ps, ht, hread⟩
      | some tdef =>
          have ht' : BTree.Denotes I ({ tx with catalog := catalog } : DBTX σ).tree m ps := ht
          show Does I (onTree (p tdef)) { tx with catalog := catalog } fun _ => Kept tx m
          refine (onTree_does ht' (hp tdef m)).imp ?_
          intro _ tx' m' hq
          obtain ⟨hsame, hcat, hcreated⟩ := hq
          refine ⟨hcreated, fun h => ?_⟩
          obtain ⟨hgood', hdef⟩ := hgood h
          exact ⟨Or.inr ⟨table, tdef, (hdef _ rfl).symm, hsame⟩, by rw [hcat]; exact hgood'⟩

/-- A result as a reply. -/
theorem reply_does {c : Call σ α} {tx : DBTX σ} (f : α → DBReply)
    {Q : Except String α → DBTX σ → Contents → Prop} (h : Does I c tx Q) :
    Does I (reply f c) tx fun r tx' m' => ∃ r0, r = r0.map f ∧ Q r0 tx' m' := by
  unfold Does at h ⊢
  unfold reply
  cases hrun : c tx with
  | error e =>
      rw [hrun] at h
      exact h
  | ok out =>
      rw [hrun] at h
      obtain ⟨r, tx'⟩ := out
      obtain ⟨m', ps', hd, hq⟩ := h
      cases r with
      | error what => exact ⟨m', ps', hd, _, rfl, hq⟩
      | ok a => exact ⟨m', ps', hd, _, rfl, hq⟩

theorem tableNew_does {m : Contents} {tx : DBTX σ} {ps : Multiset Nat} (hI : LawfulPages I Stops)
    (ht : tx.tree.Denotes I m ps) (tdef : TableDef) :
    Does I (tableNew tdef) tx fun r tx' m' => TableNew m tdef r m' ∧ tx'.catalog = tx.catalog ∧
      tx'.createdTable = (tx.createdTable || decide (r = .ok (.ok ()))) := by
  have h := onTree_does ht (tableNew_spec hI not_stops_throws (m := m) tdef)
  unfold Does at h ⊢
  unfold tableNew
  cases hrun : onTree (SqlDb.tableNew tdef) tx with
  | error e =>
      rw [hrun] at h
      exact h
  | ok out =>
      rw [hrun] at h
      obtain ⟨r, tx'⟩ := out
      obtain ⟨m', ps', hd, hnew, hcat, hcreated⟩ := h
      dsimp only at hd hnew hcat hcreated
      cases r with
      | error what =>
          refine ⟨m', ps', hd, hnew, hcat, ?_⟩
          rw [hcreated, decide_eq_false (fun he => nomatch he), Bool.or_false]
      | ok r =>
          cases r with
          | error err =>
              refine ⟨m', ps', hd, hnew, hcat, ?_⟩
              rw [hcreated, decide_eq_false (fun he => nomatch he), Bool.or_false]
          | ok _ =>
              refine ⟨m', ps', hd, hnew, hcat, ?_⟩
              rw [decide_eq_true rfl, Bool.or_true]

/-- **What every call leaves.** -/
theorem call_does {m : Contents} {tx : DBTX σ} {ps : Multiset Nat} (hI : LawfulPages I Stops)
    (ht : tx.tree.Denotes I m ps) (op : DBOp) : Does I (call op) tx (Effect op tx m) := by
  have htable : ∀ {ε β : Type} (f : Except ε β → DBReply) (table : Bytes) (miss : Bytes → ε)
      {p : TableDef → Tx σ (Except ε β)}, (∀ tdef, (p tdef).Writes I tdef.Owns) →
      Does I (reply f (onTable table miss p)) tx fun _ => Kept tx m := by
    intro ε β f table miss p hp
    refine (reply_does f (onTable_does hI ht table miss hp)).imp ?_
    intro _ _ _ hq
    obtain ⟨_, _, hq⟩ := hq
    exact hq
  cases op with
  | tableNew tdef =>
      refine (reply_does .done (tableNew_does hI ht tdef)).imp ?_
      intro r tx' m' hq
      obtain ⟨r0, he, hnew, hcat, hcreated⟩ := hq
      exact ⟨r0, hnew, he, hcat, hcreated⟩
  | get table rec => exact htable _ table _ fun _ => .look _
  | insert table rec => exact htable _ table _ fun _ => dbUpdate_writes hI rec _
  | update table rec => exact htable _ table _ fun _ => dbUpdate_writes hI rec _
  | upsert table rec => exact htable _ table _ fun _ => dbUpdate_writes hI rec _
  | del table rec => exact htable _ table _ fun _ => dbDelete_writes hI rec
  | scan table req => exact htable _ table _ fun _ => .look _
  | tableDef table => exact htable _ table _ fun _ => .pure _

end Calls

end DBTX

end SqlDb
