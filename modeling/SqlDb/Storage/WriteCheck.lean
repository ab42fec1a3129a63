import SqlDb.Storage.Requests
import SqlDb.Storage.WorldCommit

/-!
# How a commit knows whether anything was written

`commit` returns at once if the transaction's root is the committed one. That is right
because the committed root's page cannot come back to the transaction: the first write
gives it to the free list, which keeps it back for the committed version, and every
write ends with the root on a page that was allocated since, or on one of the tree's
other pages.

So the committed root is a page the tree has before the first write, and does not have
after it. The second half is an invariant of the page manager, and the tree's
correctness over any page manager carries it along.
-/

namespace SqlDb

open Outcome OrdMap

/-! ## The calls -/

/-- A call of a write transaction. -/
inductive TxCall where
  | get (key : Bytes)
  | seek (key : Bytes) (cmp : CMP)
  | set (key val : Bytes)
  | del (key : Bytes)
  | update (req : InsertReq)
  | delete (req : DeleteReq)

namespace KVTX

/-- Whether the call wrote, and the transaction after it. -/
def answer (tx : KVTX) : TxCall → Except Fault (Bool × KVTX)
  | .get key => do
      let _ ← tx.tree.get key
      return (false, tx)
  | .seek key cmp => do
      let _ ← tx.tree.seek key cmp
      return (false, tx)
  | .set key val => do
      let tree ← tx.tree.insert key val
      return (true, { tx with tree := tree })
  | .del key => do
      let (found, tree) ← tx.tree.remove key
      return (found, { tx with tree := tree })
  | .update req => do
      let (wrote, _, tree) ← tx.tree.update req
      return (wrote, { tx with tree := tree })
  | .delete req => do
      let (found, _, tree) ← tx.tree.delete req
      return (found, { tx with tree := tree })

/-- A call that throws changes nothing, and the transaction can go on. -/
def call (tx : KVTX) (c : TxCall) : Except Fault (Bool × KVTX) :=
  match tx.answer c with
  | .error (.throws _) => .ok (false, tx)
  | r => r

theorem call_cases {tx tx' : KVTX} {c : TxCall} {wrote : Bool} (h : tx.call c = .ok (wrote, tx')) :
    tx.answer c = .ok (wrote, tx') ∨ wrote = false ∧ tx' = tx := by
  unfold call at h
  cases hr : tx.answer c with
  | ok r =>
      rw [hr] at h
      exact Or.inl h
  | error f =>
      rw [hr] at h
      cases f with
      | throws what =>
          cases h
          exact Or.inr ⟨rfl, rfl⟩
      | _ => cases h

end KVTX

/-! ## What a write does to the root -/

section Moves

variable {I I' : FreeList TxPages → Multiset Nat → Prop} {E : Fault → Prop}
  {t t' : BTree (FreeList TxPages)} {m : Contents} {ps : Multiset Nat}

/-- The tree is not empty, and its pages satisfy `I`. -/
def Stored (I : FreeList TxPages → Multiset Nat → Prop) (t : BTree (FreeList TxPages)) : Prop :=
  t.root ≠ 0 ∧ ∃ m ps, t.Denotes I m ps

/-- The tree can be written: its old root's page leaves pages that satisfy `I'`. -/
structure Movable (I I' : FreeList TxPages → Multiset Nat → Prop) (E : Fault → Prop)
    (t : BTree (FreeList TxPages)) : Prop where
  before : LawfulPages I E
  after : LawfulPages I' E
  frees : t.root ≠ 0 → Frees I I' E t.root
  empty : t.root = 0 → ∀ s M, I s M → I' s M
  denotes : ∃ m ps, t.Denotes I m ps

theorem Movable.insert (h : Movable I I' E t) {key val : Bytes}
    (ht' : t.insert key val = .ok t') : Stored I' t' := by
  obtain ⟨m, ps, hd⟩ := h.denotes
  have hvalid : ValidKey key ∧ ValidVal val := by
    by_contra hv
    rw [BTree.insert_invalid _ hv] at ht'
    cases ht'
  obtain ⟨hroot, ps', hempty, hmoved⟩ :=
    (BTree.insert_moves h.before h.after h.frees hd hvalid.1 hvalid.2).of_ok ht'
  refine ⟨hroot, OrdMap.insert m key val, ps', ?_⟩
  by_cases h0 : t.root = 0
  · exact ⟨(hempty h0).tree, h.empty h0 _ _ (hempty h0).owns⟩
  · exact hmoved h0

theorem Movable.remove (h : Movable I I' E t) {key : Bytes} {found : Bool}
    (ht' : t.remove key = .ok (found, t')) :
    (found = false → t' = t) ∧ (found = true → Stored I' t') := by
  obtain ⟨m, ps, hd⟩ := h.denotes
  have hvalid : ValidKey key := by
    by_contra hv
    rw [BTree.remove_invalid _ hv] at ht'
    cases ht'
  obtain ⟨_, hsame, hmoved⟩ :=
    (BTree.remove_moves h.before h.after h.frees hd hvalid).of_ok ht'
  refine ⟨hsame, fun hf => ?_⟩
  obtain ⟨hroot, ps', hd'⟩ := hmoved hf
  exact ⟨hroot, _, ps', hd'⟩

theorem Movable.update (h : Movable I I' E t) {req req' : InsertReq} {wrote : Bool}
    (ht' : t.update req = .ok (wrote, req', t')) :
    (wrote = false → t' = t) ∧ (wrote = true → Stored I' t') := by
  obtain ⟨m, ps, hd⟩ := h.denotes
  have hvalid : ValidKey req.key := by
    by_contra hv
    rw [BTree.update_invalid _ hv] at ht'
    cases ht'
  rw [BTree.update_eq hd.tree (h.before.count hd.owns) hvalid] at ht'
  split at ht'
  · obtain ⟨tree, htree, he⟩ := bind_eq_ok.mp ht'
    cases he
    exact ⟨Bool.noConfusion, fun _ => h.insert htree⟩
  · cases ht'
    exact ⟨fun _ => rfl, Bool.noConfusion⟩

theorem Movable.delete (h : Movable I I' E t) {req req' : DeleteReq} {found : Bool}
    (ht' : t.delete req = .ok (found, req', t')) :
    (found = false → t' = t) ∧ (found = true → Stored I' t') := by
  obtain ⟨m, ps, hd⟩ := h.denotes
  have hvalid : ValidKey req.key := by
    by_contra hv
    rw [BTree.delete_invalid _ hv] at ht'
    cases ht'
  rw [BTree.delete_eq hd.tree (h.before.count hd.owns) hvalid] at ht'
  cases hlook : lookup m req.key with
  | none =>
      rw [hlook] at ht'
      cases ht'
      exact ⟨fun _ => rfl, Bool.noConfusion⟩
  | some old =>
      rw [hlook] at ht'
      obtain ⟨⟨found', tree⟩, htree, he⟩ := bind_eq_ok.mp ht'
      cases he
      exact h.remove htree

/-- **A call that writes leaves the tree as its old root's page leaves it**, and one that does not
leaves it alone. -/
theorem Movable.call {tx tx' : KVTX} {c : TxCall} {wrote : Bool} (h : Movable I I' E tx.tree)
    (hcall : tx.call c = .ok (wrote, tx')) :
    (wrote = false → tx' = tx) ∧ (wrote = true → Stored I' tx'.tree) := by
  have hset : ∀ tree, (wrote = false → tree = tx.tree) →
      (wrote = false → { tx with tree := tree } = tx) := by
    intro tree hsame hw
    rw [hsame hw]
  rcases KVTX.call_cases hcall with hr | ⟨rfl, rfl⟩
  · cases c with
    | get key =>
        obtain ⟨_, _, he⟩ := bind_eq_ok.mp hr
        cases he
        exact ⟨fun _ => rfl, Bool.noConfusion⟩
    | seek key cmp =>
        obtain ⟨_, _, he⟩ := bind_eq_ok.mp hr
        cases he
        exact ⟨fun _ => rfl, Bool.noConfusion⟩
    | set key val =>
        obtain ⟨tree, htree, he⟩ := bind_eq_ok.mp hr
        cases he
        exact ⟨Bool.noConfusion, fun _ => h.insert htree⟩
    | del key =>
        obtain ⟨⟨found, tree⟩, htree, he⟩ := bind_eq_ok.mp hr
        cases he
        exact ⟨hset _ (h.remove htree).1, (h.remove htree).2⟩
    | update req =>
        obtain ⟨⟨w, req', tree⟩, htree, he⟩ := bind_eq_ok.mp hr
        cases he
        exact ⟨hset _ (h.update htree).1, (h.update htree).2⟩
    | delete req =>
        obtain ⟨⟨found, req', tree⟩, htree, he⟩ := bind_eq_ok.mp hr
        cases he
        exact ⟨hset _ (h.delete htree).1, (h.delete htree).2⟩
  · exact ⟨fun _ => rfl, Bool.noConfusion⟩

end Moves

/-! ## Without the committed root -/

section Apart

variable {b : TxBase} {root : Nat}

/-- The tree's pages, none of them the committed root. -/
def OwnsApart (b : TxBase) (root : Nat) (fl : FreeList TxPages) (T : Multiset Nat) : Prop :=
  TxOwns b fl T ∧ root ∉ T

/-- The committed root is no page of the file, or a page of a version to keep. -/
def KeptRoot (b : TxBase) (root : Nat) : Prop :=
  root = 0 ∨ ∃ V ps, b.kept V ps ∧ root ∈ V.live ps

/-- **The committed root is never allocated.** -/
theorem lawful_apart (hb : b.Sound) (hroot : KeptRoot b root) :
    LawfulPages (OwnsApart b root) (· = .overflow) where
  nodup h := (TxPages.lawful hb).nodup h.1
  ptr h := (TxPages.lawful hb).ptr h.1
  count h := (TxPages.lawful hb).count h.1
  newPage h hn hsize := by
    obtain ⟨⟨nodes, items, used, hst⟩, hnot⟩ := h
    refine (hst.pageNew hb hn hsize).imp ?_
    intro r hr
    obtain ⟨⟨hown, hfree⟩, hget, hread⟩ := hr
    refine ⟨⟨hown, fun hm => ?_⟩, hget, fun q hq => TxPages.get_congr (hread q hq)⟩
    rcases Multiset.mem_cons.mp hm with he | hm
    · rcases hroot with h0 | ⟨V, ps, hk, hlive⟩
      · exact ((TxPages.lawful hb).ptr hown r.1 (Multiset.mem_cons_self _ _)).1 (he ▸ h0)
      · exact hfree V ps hk (he ▸ hlive)
    · exact hnot hm
  del h := by
    obtain ⟨hown, hnot⟩ := h
    refine ((TxPages.lawful hb).del hown).imp ?_
    intro fl' hr
    exact ⟨⟨hr.1, fun hm => hnot (Multiset.mem_cons_of_mem hm)⟩, hr.2⟩

/-- The root's page leaves a tree that does not have it. -/
theorem frees_apart (hb : b.Sound) (root : Nat) :
    Frees (TxOwns b) (OwnsApart b root) (· = .overflow) root := by
  intro s M h
  have hnd := (TxPages.lawful hb).nodup h
  refine ((TxPages.lawful hb).del h).imp ?_
  intro fl' hr
  exact ⟨⟨hr.1, (Multiset.nodup_cons.mp hnd).1⟩, hr.2⟩

end Apart

/-! ## The early return -/

namespace World

/-- A transaction of the store as it stands, and whether any of its calls wrote. Readers may come
and go meanwhile. -/
inductive InTx : World → KVTX → Bool → Prop where
  | begin {w : World} : Reachable w → w.stage = .idle → InTx w (w.kv.begin w.file) false
  | call {w : World} {tx tx' : KVTX} {wrote wrote' : Bool} {c : TxCall} : InTx w tx wrote →
      tx.call c = .ok (wrote', tx') → InTx w tx' (wrote || wrote')
  | beginRead {w : World} {tx : KVTX} {wrote : Bool} {id : Nat} : InTx w tx wrote →
      id ∉ w.readers → InTx (w.beginRead id) tx wrote
  | endRead {w : World} {tx : KVTX} {wrote : Bool} {id : Nat} {kv : KV} : InTx w tx wrote →
      id ∈ w.readers → w.kv.endRead id = .ok kv → InTx { w with kv := kv } tx wrote

/-- What the calls keep: the committed root, or a tree that does not have its page. -/
structure RootCheck (root : Nat) (tx : KVTX) (wrote : Bool) : Prop where
  before : wrote = false → tx.tree.root = root
  base : ∃ b : TxBase, b.Sound ∧ KeptRoot b root ∧
    (wrote = false → ∃ m ps, tx.tree.Denotes (TxOwns b) m ps) ∧
    (wrote = true → Stored (OwnsApart b root) tx.tree)

variable {w : World} {tx : KVTX} {wrote : Bool}

/-- The committed root is one of the latest version's pages. -/
theorem Base.root_live {pages : Nat → Multiset Nat} (h : w.Base pages) :
    w.kv.root = 0 ∨ w.Protected w.latest ∧ w.kv.root ∈ w.latest.live (pages w.latest.version) := by
  by_cases hv : w.kv.version = 0
  · have h0 := h.initial_of_zero h.latest_mem (by rw [h.latest_version]; exact hv)
    left
    rw [← h.latest.1, h0]
    rfl
  · obtain ⟨_, hi⟩ := h.kept_latest hv
    rw [← h.latest_version, ← h.latest.1] at *
    refine (TreeAt.root_mem hi.tree).imp id fun hm => ⟨h.protected_latest ?_, ?_⟩
    · rw [← h.latest_version]
      exact hv
    · exact Multiset.mem_add.mpr (Or.inl hm)

theorem RootCheck.begin (h : Reachable w) : RootCheck w.kv.root (w.kv.begin w.file) false := by
  obtain ⟨pages, hb, _⟩ := h.inv
  obtain ⟨b, hbegan, _, ps, hd⟩ := hb.begin
  refine ⟨fun _ => rfl, b, hbegan.sound, ?_, fun _ => ⟨_, ps, hd⟩, Bool.noConfusion⟩
  exact hb.root_live.imp id fun hl => ⟨w.latest, _, hbegan.kept _ hl.1, hl.2⟩

theorem RootCheck.call {root : Nat} {c : TxCall} {tx' : KVTX} {wrote' : Bool}
    (h : RootCheck root tx wrote) (hcall : tx.call c = .ok (wrote', tx')) :
    RootCheck root tx' (wrote || wrote') := by
  obtain ⟨hbefore, b, hb, hroot, hd, hstored⟩ := h
  have hapart := lawful_apart hb hroot
  cases wrote with
  | false =>
      -- nothing written yet: the root is the committed one, and its page is in the tree
      have hmove : Movable (TxOwns b) (OwnsApart b root) (· = .overflow) tx.tree := by
        refine ⟨TxPages.lawful hb, hapart, fun _ => ?_, fun h0 s M hM => ⟨hM, fun hm => ?_⟩, hd rfl⟩
        · rw [hbefore rfl]
          exact frees_apart hb root
        · rw [hbefore rfl] at h0
          exact ((TxPages.lawful hb).ptr hM root hm).1 h0
      obtain ⟨hsame, hmoved⟩ := hmove.call hcall
      refine ⟨fun hw => ?_, b, hb, hroot, fun hw => ?_, fun hw => hmoved hw⟩
      · rw [hsame hw]
        exact hbefore rfl
      · rw [hsame hw]
        exact hd rfl
  | true =>
      have hmove : Movable (OwnsApart b root) (OwnsApart b root) (· = .overflow) tx.tree :=
        ⟨hapart, hapart, fun _ => hapart.frees _, fun _ _ _ hM => hM, (hstored rfl).2⟩
      obtain ⟨hsame, hmoved⟩ := hmove.call hcall
      refine ⟨Bool.noConfusion, b, hb, hroot, Bool.noConfusion, fun _ => ?_⟩
      cases wrote' with
      | false =>
          rw [hsame rfl]
          exact hstored rfl
      | true => exact hmoved rfl

theorem InTx.check (h : InTx w tx wrote) : RootCheck w.kv.root tx wrote := by
  induction h with
  | begin hw _ => exact .begin hw
  | call _ hcall ih => exact ih.call hcall
  | beginRead _ _ ih => exact ih
  | endRead _ _ hend ih =>
      obtain ⟨_, _, he⟩ := bind_eq_ok.mp hend
      cases he
      exact ih

/-- After a write the committed root is no page of the tree. -/
theorem RootCheck.ne {root : Nat} (h : RootCheck root tx true) : tx.tree.root ≠ root := by
  obtain ⟨_, b, _, hroot, _, hstored⟩ := h
  obtain ⟨hne, m, ps, htree, _, hnot⟩ := hstored rfl
  intro he
  rcases TreeAt.root_mem htree with h0 | hmem
  · exact hne h0
  · exact hnot (he ▸ hmem)

/-- **No committed write is skipped and no empty commit writes.** Whatever the transaction's calls
were, its root is the committed one if and only if none of them wrote. -/
theorem commit_returns_iff (h : InTx w tx wrote) : tx.tree.root = w.kv.root ↔ wrote = false := by
  refine ⟨fun he => ?_, h.check.before⟩
  cases wrote with
  | false => rfl
  | true => exact absurd he h.check.ne

/-- After the first write to a new file. -/
theorem commit_returns_iff_first_write : ∃ tx, InTx {} tx true ∧
    (tx.tree.root = ({} : World).kv.root ↔ true = false) := by
  obtain ⟨tx, hset, _⟩ := set_fresh (show ValidKey [97] by decide) (show ValidVal [49] by decide)
  have hcall : (KV.fresh.begin .empty).call (.set [97] [49]) = .ok (true, tx) := by
    obtain ⟨tree, htree, he⟩ := bind_eq_ok.mp hset
    cases he
    have htree' : BTree.insert (KV.fresh.begin .empty).tree [97] [49] = .ok tree := htree
    rw [KVTX.call, KVTX.answer, htree']
    rfl
  have htx : InTx {} tx true := .call (.begin .start rfl) hcall
  exact ⟨tx, htx, commit_returns_iff htx⟩

end World

end SqlDb
