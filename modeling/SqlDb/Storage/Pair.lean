import SqlDb.Storage.BTreeDelete
import SqlDb.Storage.Watch

/-!
# Two page managers at once

A tree over two page managers that has each call answered by both, and goes on only while
the answers are the same. It does what the tree does over the one and what the tree does over
the other, so where it is never stopped the two do the same: they store the same nodes, under
the same page numbers, and fail in the same way.
-/

namespace SqlDb

open Outcome OrdMap

variable {σ τ : Type} [PageManager σ] [PageManager τ]

structure Pair (σ τ : Type) [PageManager σ] [PageManager τ] where
  left : σ
  right : τ
  /-- A recursion is bounded alike. -/
  count : PageManager.pageCount left = PageManager.pageCount right

/-- The two answers are not the same. -/
def Fault.differ : Fault := .throws "the page managers differ"

namespace Pair

/-- The same node. -/
def sameNode (n n' : BNode) : Option BNode := if n = n' then some n else none

/-- The same page number. -/
def samePage (r : Nat × σ) (r' : Nat × τ) : Option (Nat × Pair σ τ) :=
  if h : r.1 = r'.1 ∧ PageManager.pageCount r.2 = PageManager.pageCount r'.2 then
    some (r.1, ⟨r.2, r'.2, h.2⟩)
  else none

def sameCount (s : σ) (t : τ) : Option (Pair σ τ) :=
  if h : PageManager.pageCount s = PageManager.pageCount t then some ⟨s, t, h⟩ else none

def get (s : Pair σ τ) (ptr : Nat) : Except Fault BNode :=
  agree .differ sameNode (PageManager.get s.left ptr) (PageManager.get s.right ptr)

def newPage (s : Pair σ τ) (node : BNode) : Except Fault (Nat × Pair σ τ) :=
  agree .differ samePage (PageManager.newPage s.left node) (PageManager.newPage s.right node)

def del (s : Pair σ τ) (ptr : Nat) : Except Fault (Pair σ τ) :=
  agree .differ sameCount (PageManager.del s.left ptr) (PageManager.del s.right ptr)

instance : PageManager (Pair σ τ) where
  get := get
  newPage := newPage
  del := del
  pageCount s := PageManager.pageCount s.left

theorem sameNode_eq {n n' c : BNode} (h : sameNode n n' = some c) : c = n ∧ c = n' := by
  unfold sameNode at h
  split at h
  · rename_i he
    rw [← Option.some.inj h]
    exact ⟨rfl, he⟩
  · cases h

theorem samePage_eq {r : Nat × σ} {r' : Nat × τ} {c : Nat × Pair σ τ} (h : samePage r r' = some c) :
    Prod.map id left c = r ∧ Prod.map id right c = r' := by
  unfold samePage at h
  split at h
  · rename_i he
    rw [← Option.some.inj h]
    exact ⟨rfl, Prod.ext he.1 rfl⟩
  · cases h

theorem sameCount_eq {s : σ} {t : τ} {c : Pair σ τ} (h : sameCount s t = some c) :
    c.left = s ∧ c.right = t := by
  unfold sameCount at h
  split at h
  · rw [← Option.some.inj h]
    exact ⟨rfl, rfl⟩
  · cases h

theorem watches_left : Watches (left : Pair σ τ → σ) (· = .differ) where
  get _ _ := agree_left fun _ _ _ h => (sameNode_eq h).1
  newPage _ _ := agree_left fun _ _ _ h => (samePage_eq h).1
  del _ _ := agree_left fun _ _ _ h => (sameCount_eq h).1
  count _ := rfl

theorem watches_right : Watches (right : Pair σ τ → τ) (· = .differ) where
  get _ _ := agree_right fun _ _ _ h => (sameNode_eq h).2
  newPage _ _ := agree_right fun _ _ _ h => (samePage_eq h).2
  del _ _ := agree_right fun _ _ _ h => (sameCount_eq h).2
  count s := s.count

end Pair

/-! ## Managers in step -/

/-- `P s t M` says that the managers `s` and `t` are in step, `M` being the tree's pages in both.
They stay so, and hand out the same pages meanwhile. -/
structure TwinLaw (I : σ → Multiset Nat → Prop) (P : σ → τ → Multiset Nat → Prop) : Prop where
  owns : ∀ {s t M}, P s t M → I s M
  count : ∀ {s t M}, P s t M → PageManager.pageCount s = PageManager.pageCount t
  get : ∀ {s t M}, P s t M → ∀ q ∈ M, PageManager.get t q = PageManager.get s q
  newPage : ∀ {s t M n typ es}, P s t M → Holds n typ es → nodeSize es ≤ btreePageSize →
    Alike (fun r r' => r'.1 = r.1 ∧ P r.2 r'.2 (r.1 ::ₘ M)) (PageManager.newPage s n)
      (PageManager.newPage t n)
  del : ∀ {s t M p}, P s t (p ::ₘ M) →
    Alike (fun s' t' => P s' t' M) (PageManager.del s p) (PageManager.del t p)

section Twins

variable {I : σ → Multiset Nat → Prop} {P : σ → τ → Multiset Nat → Prop} {E : Fault → Prop}

theorem TwinLaw.pair_get (h : TwinLaw I P) {s : Pair σ τ} {M : Multiset Nat}
    (hP : P s.left s.right M) {q : Nat} (hq : q ∈ M) :
    PageManager.get s q = PageManager.get s.left q := by
  show agree .differ Pair.sameNode (PageManager.get s.left q) (PageManager.get s.right q) = _
  rw [h.get hP q hq]
  cases PageManager.get s.left q with
  | ok n =>
      rw [agree_ok, Pair.sameNode, if_pos rfl]
      rfl
  | error f => exact if_pos rfl

/-- **Managers in step are never stopped.** -/
theorem TwinLaw.lawful (h : TwinLaw I P) (hI : LawfulPages I E) :
    LawfulPages (fun s : Pair σ τ => P s.left s.right) E where
  nodup hP := hI.nodup (h.owns hP)
  ptr hP := hI.ptr (h.owns hP)
  count hP := hI.count (h.owns hP)
  newPage {s M n typ es} hP hn hsize := by
    refine (h.newPage hP hn hsize).agree (hI.newPage (h.owns hP) hn hsize) ?_
    rintro ⟨p, s'⟩ ⟨p', t'⟩ ⟨rfl, hP'⟩ ⟨_, ⟨n', hget, hn'⟩, hkeep⟩
    refine ⟨(p', ⟨s', t', h.count hP'⟩), dif_pos ⟨rfl, h.count hP'⟩, hP', ⟨n', ?_, hn'⟩,
      fun q hq => ?_⟩
    · rw [h.pair_get (s := ⟨s', t', h.count hP'⟩) hP' (Multiset.mem_cons_self _ _)]
      exact hget
    · rw [h.pair_get (s := ⟨s', t', h.count hP'⟩) hP' (Multiset.mem_cons_of_mem hq),
        h.pair_get hP hq]
      exact hkeep q hq
  del {s M p} hP := by
    refine (h.del hP).agree (hI.del (h.owns hP)) ?_
    rintro s' t' hP' ⟨_, hkeep⟩
    refine ⟨⟨s', t', h.count hP'⟩, dif_pos (h.count hP'), hP', fun q hq => ?_⟩
    rw [h.pair_get (s := ⟨s', t', h.count hP'⟩) hP' hq, h.pair_get hP (Multiset.mem_cons_of_mem hq)]
    exact hkeep q hq

/-! ## Trees in step -/

/-- Two trees of the same nodes, over managers in step. -/
structure Twins (P : σ → τ → Multiset Nat → Prop) (t : BTree σ) (t' : BTree τ) (m : Contents)
    (ps : Multiset Nat) : Prop where
  root : t'.root = t.root
  tree : TreeAt (PageManager.get t.pages) t.root m ps
  pages : P t.pages t'.pages ps

variable {t : BTree σ} {t' : BTree τ} {m : Contents} {ps : Multiset Nat}

theorem Twins.right (h : TwinLaw I P) (ht : Twins P t t' m ps) :
    TreeAt (PageManager.get t'.pages) t'.root m ps := by
  rw [ht.root]
  exact ht.tree.congr (h.get ht.pages)

/-- The one tree over both managers. -/
theorem Twins.pair (h : TwinLaw I P) (ht : Twins P t t' m ps) :
    ∃ u : BTree (Pair σ τ), u.under Pair.left = t ∧ u.under Pair.right = t' ∧
      u.Denotes (fun s => P s.left s.right) m ps := by
  obtain ⟨root, s⟩ := t
  obtain ⟨root', s'⟩ := t'
  have hroot : root' = root := ht.root
  rw [hroot] at ht ⊢
  refine ⟨⟨root, ⟨s, s', h.count ht.pages⟩⟩, rfl, rfl, ?_, ht.pages⟩
  exact ht.tree.congr fun q hq => h.pair_get (s := ⟨s, s', h.count ht.pages⟩) ht.pages hq

theorem twins_of_pair (h : TwinLaw I P) {u : BTree (Pair σ τ)}
    (hu : u.Denotes (fun s => P s.left s.right) m ps) :
    Twins P (u.under Pair.left) (u.under Pair.right) m ps :=
  ⟨rfl, hu.tree.congr fun _ hq => (h.pair_get hu.owns hq).symm, hu.owns⟩

/-- Two runs that follow one run that is not stopped. -/
theorem alike_of_follows {α β γ : Type} {φ : γ → α} {ψ : γ → β} {r'' : Except Fault γ}
    {r : Except Fault α} {r' : Except Fault β} {F : Fault → Prop} {Q : γ → Prop}
    {R : α → β → Prop} (h : Follows (· = .differ) φ r'' r) (h' : Follows (· = .differ) ψ r'' r')
    (hF : ¬ F .differ) (hr : Ends F Q r'') (hR : ∀ c, Q c → R (φ c) (ψ c)) : Alike R r r' := by
  have hG : ∀ f, f = Fault.differ → ¬ F f := fun f hf => hf ▸ hF
  rw [h.ends hG hr, h'.ends hG hr]
  cases r'' with
  | ok c => exact hR c hr
  | error f => exact .error f

/-- **An insert does the same to both trees.** -/
theorem Twins.insert (h : TwinLaw I P) (hI : LawfulPages I E) (hE : ¬ E .differ)
    (ht : Twins P t t' m ps) {key val : Bytes} (hk : ValidKey key) (hv : ValidVal val) :
    Alike (fun u u' => ∃ ps', Twins P u u' (OrdMap.insert m key val) ps') (t.insert key val)
      (t'.insert key val) := by
  obtain ⟨u, rfl, rfl, hu⟩ := ht.pair h
  refine alike_of_follows (Pair.watches_left.insert u key val) (Pair.watches_right.insert u key val)
    hE (BTree.insert_spec (h.lawful hI) hu hk hv) ?_
  rintro c ⟨ps', hc⟩
  exact ⟨ps', twins_of_pair h hc⟩

/-- **A remove does the same to both trees.** -/
theorem Twins.remove (h : TwinLaw I P) (hI : LawfulPages I E) (hE : ¬ E .differ)
    (ht : Twins P t t' m ps) {key : Bytes} (hk : ValidKey key) :
    Alike (fun r r' => r'.1 = r.1 ∧ ∃ ps', Twins P r.2 r'.2 (erase m key) ps') (t.remove key)
      (t'.remove key) := by
  obtain ⟨u, rfl, rfl, hu⟩ := ht.pair h
  refine alike_of_follows (Pair.watches_left.remove u key) (Pair.watches_right.remove u key)
    (F := DeleteFault E) (fun hf => hf.elim hE fun hf => by cases hf)
    (BTree.remove_spec (h.lawful hI) hu hk) ?_
  rintro c ⟨_, _, ps', hc⟩
  exact ⟨rfl, ps', twins_of_pair h hc⟩

end Twins

end SqlDb
