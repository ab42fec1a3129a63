import SqlDb.Storage.Reach
import SqlDb.Storage.SetReturns

/-!
# Who owns a page

Every page of the file has one owner: the tree, the free list's own chain, or the free
list as one of its items. The transaction's invariant says so of what the tree denotes
and what the list holds. Here it is said of what the code can reach: pages by following
links from the root, nodes by walking from `head_page`, items by reading the slots from
`head_seq` to `tail_seq`.
-/

namespace SqlDb

open Outcome FreeList

/-! ## One owner for every page -/

/-- The pages of the transaction's file are those of its tree, its list's nodes and its free pages,
each once: `tree` lists what is reached from the root. -/
def KVTX.Partitioned (tx : KVTX) : Prop :=
  ∃ tree : List Nat, (∀ p, p ∈ tree ↔ Reaches (PageManager.get tx.free) tx.tree.root p) ∧
    tx.free.nodes.head? = some tx.free.state.headPage ∧
    tx.free.nodes.getLast? = some tx.free.state.tailPage ∧
    tx.free.state.headSeq + tx.free.items.length = tx.free.state.tailSeq ∧
    (tree ++ tx.free.nodes ++ tx.free.items.map Prod.fst).Perm
      (List.range' 1 (tx.free.pages.stop - 1))

namespace World

variable {w : World} {pages : Nat → Multiset Nat}

theorem TxInv.partitioned {b : TxBase} {tx : KVTX} {map : Contents} (h : TxInv b tx map) :
    tx.Partitioned := by
  obtain ⟨ps, htree, nodes, items, used, hst⟩ := h
  have hst' : TxState b tx.free ps nodes items used := hst
  have hnodes := hst'.queue.nodes_eq hst'.room
  have hitems := hst'.queue.items_eq hst'.room
  have hpages := hst'.pages.pages
  have hne : ∀ q ∈ ps, q ≠ 0 := fun q hq =>
    (hst'.pages.ptr (Multiset.mem_add.mpr (Or.inr hq))).1
  obtain ⟨tree, htree'⟩ := Quot.exists_rep ps
  have hps : (tree : Multiset Nat) = ps := htree'
  refine ⟨tree, fun p => ?_, ?_, ?_, ?_, ?_⟩
  · rw [← Multiset.mem_coe, hps]
    exact TreeAt.mem_iff_reaches htree hne
  · rw [hnodes]
    exact hst'.queue.head
  · rw [hnodes]
    exact hst'.queue.tail
  · rw [hitems]
    exact hst'.queue.seq
  · rw [hnodes, hitems, ← Multiset.coe_eq_coe, ← hpages, ← Multiset.coe_add, ← Multiset.coe_add,
      hps, listPages, add_assoc, add_comm]

/-- **Page ownership is a partition.** In every state of every run, whatever fails and wherever the
power goes, the pages of the file are partitioned, and so are those of the view of a transaction
that is running or committing. -/
theorem page_ownership (h : Reachable w) : (w.kv.begin w.file).Partitioned ∧
    (∀ tx map, w.stage = .running tx map → tx.Partitioned) ∧
    (∀ tx map todo, w.stage = .writing tx map todo → tx.Partitioned) ∧
    ∀ tx map, w.stage = .synced tx map → tx.Partitioned := by
  obtain ⟨pages, hb, hs⟩ := h.inv
  refine ⟨?_, fun tx map hst => ?_, fun tx map todo hst => ?_, fun tx map hst => ?_⟩
  · obtain ⟨b, _, _, ht⟩ := hb.begin
    exact ht.partitioned
  · rw [hst] at hs
    obtain ⟨b, _, _, ht⟩ := hs
    exact ht.partitioned
  · rw [hst] at hs
    obtain ⟨b, _, ht, _⟩ := hs
    exact ht.partitioned
  · rw [hst] at hs
    obtain ⟨b, _, ht, _⟩ := hs
    exact ht.partitioned

/-- After a first commit, for the next transaction. -/
theorem page_ownership_first_commit :
    ∃ w, Reachable w ∧ w.latest.map = [([97], [49])] ∧ (w.kv.begin w.file).Partitioned := by
  obtain ⟨w, hw, _, _, hmap⟩ :=
    first_commit (show ValidKey [97] by decide) (show ValidVal [49] by decide)
  exact ⟨w, hw.reachable, hmap, (page_ownership hw.reachable).1⟩

end World

end SqlDb
