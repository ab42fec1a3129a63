import SqlDb.Base.OrdMap
import SqlDb.Storage.BTree
import SqlDb.Storage.NodeProof
import Mathlib.Algebra.Order.Group.Multiset
import Mathlib.Tactic.Abel

/-!
# What a page denotes

A page number, read through a page manager, denotes the bindings of the subtree
below it, and owns the pages that subtree is made of. `EntryAt g h e kvs ps` says
both of a node's entry: at height 0 the entry is a binding itself, above that it
links to a node whose entries, one after another, denote `kvs` and own `ps`.

The invariant of the tree is built in. All leaves of a subtree have the same
depth, since the height is an index; a separator is the first key below its link;
and pages are counted with multiplicity, so that owning `ps` within a multiset
without duplicates rules out sharing.
-/

namespace SqlDb

open Outcome OrdMap

/-- The bindings a subtree holds, in key order. -/
abbrev Contents := List (Bytes × Bytes)

/-- The entries `es` stand, one after another, for the bindings `kvs` and the pages `ps`. -/
inductive Concat (R : Entry → Contents → Multiset Nat → Prop) :
    List Entry → Contents → Multiset Nat → Prop where
  | nil : Concat R [] [] 0
  | cons {e : Entry} {es : List Entry} {k ks : Contents} {p ps : Multiset Nat} :
      R e k p → Concat R es ks ps → Concat R (e :: es) (k ++ ks) (p + ps)

/-- The type of a node at a height. -/
def nodeType : Nat → Nat
  | 0 => bnodeLeaf
  | _ + 1 => bnodeNode

/-- What an entry of a node at height `h` denotes, the pages being read through `g`. -/
def EntryAt (g : Nat → Except Fault BNode) : Nat → Entry → Contents → Multiset Nat → Prop
  | 0, e, kvs, ps => e.ptr = 0 ∧ kvs = [(e.key, e.val)] ∧ ps = 0
  | h + 1, e, kvs, ps => e.val = [] ∧ ∃ node es ps', g e.ptr = .ok node ∧
      Holds node (nodeType h) es ∧ nodeSize es ≤ btreePageSize ∧
      es.head?.map Entry.key = some e.key ∧
      Concat (EntryAt g h) es kvs ps' ∧ ps = e.ptr ::ₘ ps'

/-- What a node at height `h` denotes: its entries and what they stand for. -/
structure NodeAt (g : Nat → Except Fault BNode) (h : Nat) (node : BNode) (es : List Entry)
    (kvs : Contents) (ps : Multiset Nat) : Prop where
  holds : Holds node (nodeType h) es
  concat : Concat (EntryAt g h) es kvs ps

theorem nodeType_lt (h : Nat) : nodeType h < 2 ^ 16 := by
  cases h with
  | zero => decide
  | succ h => show bnodeNode < 2 ^ 16; decide

/-- A node of height 0 is a leaf. -/
theorem NodeAt.btype_zero {g : Nat → Except Fault BNode} {node : BNode} {es : List Entry}
    {kvs : Contents} {ps : Multiset Nat} (hn : NodeAt g 0 node es kvs ps) :
    node.btype = bnodeLeaf := hn.holds.btype

/-- A node above that is internal. -/
theorem NodeAt.btype_succ {g : Nat → Except Fault BNode} {h : Nat} {node : BNode}
    {es : List Entry} {kvs : Contents} {ps : Multiset Nat} (hn : NodeAt g (h + 1) node es kvs ps) :
    node.btype = bnodeNode := hn.holds.btype

theorem bnodeNode_ne_leaf : bnodeNode ≠ bnodeLeaf := by decide

/-! ## Concatenation -/

section Concat

variable {R R' : Entry → Contents → Multiset Nat → Prop}

theorem concat_nil {k : Contents} {p : Multiset Nat} : Concat R [] k p ↔ k = [] ∧ p = 0 := by
  constructor
  · intro h; cases h; exact ⟨rfl, rfl⟩
  · rintro ⟨rfl, rfl⟩; exact .nil

theorem concat_cons {e : Entry} {es : List Entry} {k : Contents} {p : Multiset Nat} :
    Concat R (e :: es) k p ↔
      ∃ k1 k2 p1 p2, k = k1 ++ k2 ∧ p = p1 + p2 ∧ R e k1 p1 ∧ Concat R es k2 p2 := by
  constructor
  · intro h
    cases h with
    | cons he hes => exact ⟨_, _, _, _, rfl, rfl, he, hes⟩
  · rintro ⟨k1, k2, p1, p2, rfl, rfl, he, hes⟩; exact .cons he hes

theorem concat_singleton {e : Entry} {k : Contents} {p : Multiset Nat} :
    Concat R [e] k p ↔ R e k p := by
  constructor
  · intro h
    obtain ⟨k1, k2, p1, p2, rfl, rfl, he, hes⟩ := concat_cons.mp h
    obtain ⟨rfl, rfl⟩ := concat_nil.mp hes
    simpa using he
  · intro h
    have := Concat.cons h .nil
    simpa using this

theorem concat_append {a b : List Entry} {k : Contents} {p : Multiset Nat} :
    Concat R (a ++ b) k p ↔
      ∃ k1 k2 p1 p2, k = k1 ++ k2 ∧ p = p1 + p2 ∧ Concat R a k1 p1 ∧ Concat R b k2 p2 := by
  induction a generalizing k p with
  | nil =>
      constructor
      · intro h; exact ⟨[], k, 0, p, by simp, by simp, .nil, h⟩
      · rintro ⟨k1, k2, p1, p2, rfl, rfl, ha, hb⟩
        obtain ⟨rfl, rfl⟩ := concat_nil.mp ha
        simpa using hb
  | cons e a ih =>
      constructor
      · intro h
        obtain ⟨k1, k2, p1, p2, rfl, rfl, he, hes⟩ := concat_cons.mp h
        obtain ⟨k3, k4, p3, p4, rfl, rfl, ha, hb⟩ := ih.mp hes
        exact ⟨k1 ++ k3, k4, p1 + p3, p4, by simp, by abel, .cons he ha, hb⟩
      · rintro ⟨k1, k2, p1, p2, rfl, rfl, ha, hb⟩
        obtain ⟨k3, k4, p3, p4, rfl, rfl, he, hes⟩ := concat_cons.mp ha
        have := Concat.cons he (ih.mpr ⟨k4, k2, p4, p2, rfl, rfl, hes, hb⟩)
        rwa [← List.append_assoc, ← add_assoc] at this

theorem Concat.append {a b : List Entry} {k1 k2 : Contents} {p1 p2 : Multiset Nat}
    (ha : Concat R a k1 p1) (hb : Concat R b k2 p2) : Concat R (a ++ b) (k1 ++ k2) (p1 + p2) :=
  concat_append.mpr ⟨_, _, _, _, rfl, rfl, ha, hb⟩

/-- A concatenation around one of its entries. -/
theorem concat_split {a b : List Entry} {e : Entry} {k : Contents} {p : Multiset Nat} :
    Concat R (a ++ e :: b) k p ↔ ∃ ka ke kb pa pe pb, k = ka ++ ke ++ kb ∧ p = pa + pe + pb ∧
      Concat R a ka pa ∧ R e ke pe ∧ Concat R b kb pb := by
  constructor
  · intro h
    obtain ⟨ka, k', pa, p', rfl, rfl, ha, h'⟩ := concat_append.mp h
    obtain ⟨ke, kb, pe, pb, rfl, rfl, he, hb⟩ := concat_cons.mp h'
    exact ⟨ka, ke, kb, pa, pe, pb, by simp, by abel, ha, he, hb⟩
  · rintro ⟨ka, ke, kb, pa, pe, pb, rfl, rfl, ha, he, hb⟩
    have := ha.append (Concat.cons he hb)
    rwa [← List.append_assoc, ← add_assoc] at this

/-- A relation may be exchanged entry by entry, within the pages owned. -/
theorem Concat.imp {es : List Entry} {k : Contents} {p : Multiset Nat} (h : Concat R es k p)
    (himp : ∀ e k' p', p' ≤ p → R e k' p' → R' e k' p') : Concat R' es k p := by
  induction h with
  | nil => exact .nil
  | cons he _ ih =>
      exact .cons (himp _ _ _ (Multiset.le_add_right _ _) he)
        (ih fun e k' p' hp => himp e k' p' (hp.trans (Multiset.le_add_left _ _)))

/-- Every entry's bindings start with the entry's own key. -/
def Headed (R : Entry → Contents → Multiset Nat → Prop) : Prop :=
  ∀ e k p, R e k p → ∃ v rest, k = (e.key, v) :: rest

theorem Concat.head {es : List Entry} {e : Entry} {k : Contents} {p : Multiset Nat}
    (hR : Headed R) (h : Concat R (e :: es) k p) : ∃ v rest, k = (e.key, v) :: rest := by
  obtain ⟨k1, k2, p1, p2, rfl, rfl, he, _⟩ := concat_cons.mp h
  obtain ⟨v, rest, rfl⟩ := hR _ _ _ he
  exact ⟨v, rest ++ k2, rfl⟩

/-- Entries that stand for nothing are none. -/
theorem Concat.eq_nil {es : List Entry} {k : Contents} {p : Multiset Nat} (hR : Headed R)
    (h : Concat R es k p) : es = [] ↔ k = [] := by
  cases es with
  | nil => simp [(concat_nil.mp h).1]
  | cons e es =>
      obtain ⟨v, rest, rfl⟩ := h.head hR
      simp

/-- Every binding lies at or above the key of the entry it belongs to. -/
theorem Concat.exists_le {es : List Entry} {k : Contents} {p : Multiset Nat} (hR : Headed R)
    (h : Concat R es k p) (hs : Sorted k) : ∀ r ∈ k, ∃ e ∈ es, e.key ≤ r.1 := by
  induction h with
  | nil => intro r hr; cases hr
  | @cons e es k1 k2 p1 p2 he hes ih =>
      obtain ⟨hs1, hs2, _⟩ := sorted_append.mp hs
      intro r hr
      rcases List.mem_append.mp hr with h1 | h2
      · obtain ⟨v, rest, rfl⟩ := hR _ _ _ he
        refine ⟨e, by simp, ?_⟩
        rcases List.mem_cons.mp h1 with rfl | h1
        · exact le_refl _
        · exact le_of_lt ((sorted_cons.mp hs1).1 r h1)
      · obtain ⟨x, hx, hle⟩ := ih hs2 r h2
        exact ⟨x, List.mem_cons_of_mem _ hx, hle⟩

/-- Every entry's key is the key of a binding. -/
theorem Concat.mem_key {es : List Entry} {k : Contents} {p : Multiset Nat} (hR : Headed R)
    (h : Concat R es k p) : ∀ e ∈ es, ∃ v, (e.key, v) ∈ k := by
  induction h with
  | nil => intro e he; cases he
  | @cons e es k1 k2 p1 p2 he hes ih =>
      intro x hx
      rcases List.mem_cons.mp hx with rfl | hx
      · obtain ⟨v, rest, rfl⟩ := hR _ _ _ he
        exact ⟨v, by simp⟩
      · obtain ⟨v, hv⟩ := ih x hx
        exact ⟨v, List.mem_append_right _ hv⟩

/-- Sorted bindings have sorted separators. -/
theorem Concat.keysSorted {es : List Entry} {k : Contents} {p : Multiset Nat} (hR : Headed R)
    (h : Concat R es k p) (hs : Sorted k) : KeysSorted es := by
  induction h with
  | nil => exact List.Pairwise.nil
  | @cons e es k1 k2 p1 p2 he hes ih =>
      obtain ⟨hs1, hs2, hlt⟩ := sorted_append.mp hs
      refine List.Pairwise.cons (fun x hx => ?_) (ih hs2)
      obtain ⟨v, rest, rfl⟩ := hR _ _ _ he
      obtain ⟨w, hw⟩ := hes.mem_key hR x hx
      exact hlt (e.key, v) (by simp) _ hw

/-- **Routing.** The last entry at or below a key splits the bindings: what the entries before it
hold is below the key, what the entries after it hold is above. -/
theorem Concat.route {a b : List Entry} {e : Entry} {k : Contents} {p : Multiset Nat} {key : Bytes}
    (hR : Headed R) (h : Concat R (a ++ e :: b) k p) (hs : Sorted k) (hle : e.key ≤ key)
    (hlt : ∀ x ∈ b, key < x.key) :
    ∃ ka ke kb pa pe pb, k = ka ++ ke ++ kb ∧ p = pa + pe + pb ∧ Concat R a ka pa ∧ R e ke pe ∧
      Concat R b kb pb ∧ Below ka key ∧ Sorted ke ∧ Above kb key := by
  obtain ⟨ka, ke, kb, pa, pe, pb, rfl, rfl, ha, he, hb⟩ := concat_split.mp h
  obtain ⟨hs1, hsb, _⟩ := sorted_append.mp hs
  obtain ⟨hsa, hse, hae⟩ := sorted_append.mp hs1
  refine ⟨ka, ke, kb, pa, pe, pb, rfl, rfl, ha, he, hb, ?_, hse, ?_⟩
  · intro r hr
    obtain ⟨v, rest, rfl⟩ := hR _ _ _ he
    exact lt_of_lt_of_le (hae r hr (e.key, v) (by simp)) hle
  · intro r hr
    obtain ⟨x, hx, hxr⟩ := hb.exists_le hR hsb r hr
    exact lt_of_lt_of_le (hlt x hx) hxr

/-- When every entry is above a key, every binding is. -/
theorem Concat.above {es : List Entry} {k : Contents} {p : Multiset Nat} {key : Bytes}
    (hR : Headed R) (h : Concat R es k p) (hs : Sorted k) (hlt : ∀ x ∈ es, key < x.key) :
    Above k key := by
  intro r hr
  obtain ⟨x, hx, hxr⟩ := h.exists_le hR hs r hr
  exact lt_of_lt_of_le (hlt x hx) hxr

end Concat

/-! ## Entries -/

variable {g g' : Nat → Except Fault BNode}

theorem entryAt_zero {e : Entry} {kvs : Contents} {ps : Multiset Nat} :
    EntryAt g 0 e kvs ps ↔ e.ptr = 0 ∧ kvs = [(e.key, e.val)] ∧ ps = 0 := Iff.rfl

/-- A link denotes what its node denotes. -/
theorem entryAt_succ {h : Nat} {e : Entry} {kvs : Contents} {ps : Multiset Nat} :
    EntryAt g (h + 1) e kvs ps ↔ e.val = [] ∧ ∃ node es ps', g e.ptr = .ok node ∧
      NodeAt g h node es kvs ps' ∧ nodeSize es ≤ btreePageSize ∧
      es.head?.map Entry.key = some e.key ∧ ps = e.ptr ::ₘ ps' := by
  constructor
  · rintro ⟨hv, node, es, ps', h1, h2, h3, h4, h5, h6⟩
    exact ⟨hv, node, es, ps', h1, ⟨h2, h5⟩, h3, h4, h6⟩
  · rintro ⟨hv, node, es, ps', h1, ⟨h2, h5⟩, h3, h4, h6⟩
    exact ⟨hv, node, es, ps', h1, h2, h3, h4, h5, h6⟩

theorem head_of_head? {es : List Entry} {key : Bytes}
    (h : es.head?.map Entry.key = some key) : ∃ e rest, es = e :: rest ∧ e.key = key := by
  cases es with
  | nil => cases h
  | cons e rest => exact ⟨e, rest, rfl, Option.some.inj h⟩

/-- An entry's key is the first key below it. -/
theorem entryAt_headed : ∀ h, Headed (EntryAt g h)
  | 0 => fun e k p ⟨_, hk, _⟩ => ⟨e.val, [], hk⟩
  | h + 1 => by
      intro e k p he
      obtain ⟨_, node, es, ps', _, hn, _, hhead, _⟩ := entryAt_succ.mp he
      obtain ⟨x, rest, rfl, hx⟩ := head_of_head? hhead
      rw [← hx]
      exact hn.concat.head (entryAt_headed h)

/-- What an entry denotes depends on the pages it owns alone. -/
theorem EntryAt.congr : ∀ {h : Nat} {e : Entry} {kvs : Contents} {ps : Multiset Nat},
    EntryAt g h e kvs ps → (∀ q ∈ ps, g' q = g q) → EntryAt g' h e kvs ps
  | 0, _, _, _, he, _ => he
  | h + 1, e, kvs, ps, he, hg => by
      obtain ⟨hv, node, es, ps', h1, h2, h3, h4, rfl⟩ := entryAt_succ.mp he
      refine entryAt_succ.mpr ⟨hv, node, es, ps', ?_, ⟨h2.holds, ?_⟩, h3, h4, rfl⟩
      · rw [hg _ (Multiset.mem_cons_self _ _)]; exact h1
      · refine h2.concat.imp fun e' k' p' hp he' => EntryAt.congr he' fun q hq => hg q ?_
        exact Multiset.mem_cons_of_mem (Multiset.mem_of_le hp hq)

theorem Concat.congr {h : Nat} {es : List Entry} {kvs : Contents} {ps : Multiset Nat}
    (hc : Concat (EntryAt g h) es kvs ps) (hg : ∀ q ∈ ps, g' q = g q) :
    Concat (EntryAt g' h) es kvs ps :=
  hc.imp fun _ _ _ hp he => he.congr fun q hq => hg q (Multiset.mem_of_le hp hq)

/-- A subtree of height `h` is made of at least `h` pages. -/
theorem EntryAt.height_le : ∀ {h : Nat} {e : Entry} {kvs : Contents} {ps : Multiset Nat},
    EntryAt g h e kvs ps → h ≤ ps.card
  | 0, _, _, _, _ => Nat.zero_le _
  | h + 1, e, kvs, ps, he => by
      obtain ⟨_, node, es, ps', _, hn, _, hhead, rfl⟩ := entryAt_succ.mp he
      obtain ⟨x, rest, rfl, _⟩ := head_of_head? hhead
      obtain ⟨k1, k2, p1, p2, rfl, rfl, hx, _⟩ := concat_cons.mp hn.concat
      have := EntryAt.height_le hx
      rw [Multiset.card_cons, Multiset.card_add]; omega

/-- A leaf's entries are the bindings themselves. -/
theorem concat_leaf {es : List Entry} {kvs : Contents} {ps : Multiset Nat} :
    Concat (EntryAt g 0) es kvs ps ↔
      (∀ e ∈ es, e.ptr = 0) ∧ kvs = es.map (fun e => (e.key, e.val)) ∧ ps = 0 := by
  induction es generalizing kvs ps with
  | nil => simp [concat_nil]
  | cons e es ih =>
      rw [concat_cons]
      constructor
      · rintro ⟨k1, k2, p1, p2, rfl, rfl, ⟨h1, rfl, rfl⟩, hes⟩
        obtain ⟨h2, rfl, rfl⟩ := ih.mp hes
        refine ⟨fun x hx => ?_, by simp, by simp⟩
        rcases List.mem_cons.mp hx with rfl | hx
        · exact h1
        · exact h2 x hx
      · rintro ⟨h1, rfl, rfl⟩
        exact ⟨[(e.key, e.val)], _, 0, 0, by simp, by simp, ⟨h1 e (by simp), rfl, rfl⟩,
          ih.mpr ⟨fun x hx => h1 x (List.mem_cons_of_mem _ hx), rfl, rfl⟩⟩

/-! ## The whole tree -/

/-- The root page `root` denotes the map `m`: nothing for page 0, and otherwise a tree whose
first binding is the sentinel. `ps` are the tree's pages. -/
def TreeAt (g : Nat → Except Fault BNode) (root : Nat) (m : Contents) (ps : Multiset Nat) : Prop :=
  (root = 0 ∧ m = [] ∧ ps = 0) ∨
    (root ≠ 0 ∧ Sorted (([], []) :: m) ∧ ∃ h, EntryAt g (h + 1) ⟨root, [], []⟩ (([], []) :: m) ps)

theorem TreeAt.congr {root : Nat} {m : Contents} {ps : Multiset Nat} (h : TreeAt g root m ps)
    (hg : ∀ q ∈ ps, g' q = g q) : TreeAt g' root m ps := by
  rcases h with h | ⟨h1, h2, n, h3⟩
  · exact Or.inl h
  · exact Or.inr ⟨h1, h2, n, h3.congr hg⟩

theorem TreeAt.sorted {root : Nat} {m : Contents} {ps : Multiset Nat} (h : TreeAt g root m ps) :
    Sorted m := by
  rcases h with ⟨_, rfl, _⟩ | ⟨_, h2, _⟩
  · exact sorted_nil
  · exact (sorted_cons.mp h2).2

/-- The empty key is never bound: it is the sentinel's. -/
theorem TreeAt.key_ne_nil {root : Nat} {m : Contents} {ps : Multiset Nat}
    (h : TreeAt g root m ps) : ∀ r ∈ m, r.1 ≠ [] := by
  rcases h with ⟨_, rfl, _⟩ | ⟨_, h2, _⟩
  · intro r hr; cases hr
  · intro r hr he
    have := (sorted_cons.mp h2).1 r hr
    rw [he] at this
    exact lt_irrefl _ this

theorem sorted_sentinel {m : Contents} (hs : Sorted m) (hk : ∀ r ∈ m, r.1 ≠ []) :
    Sorted (([], []) :: m) := by
  exact sorted_cons.mpr ⟨fun r hr => Bytes.nil_lt (hk r hr), hs⟩

/-! ## What the tree expects of its pages -/

/-- A page manager that returns what was stored. `I s M` says that in state `s` the tree owns the
pages `M`; `E` are the failures the manager may have of its own. -/
structure LawfulPages {σ : Type} [PageManager σ] (I : σ → Multiset Nat → Prop)
    (E : Fault → Prop) : Prop where
  nodup : ∀ {s M}, I s M → M.Nodup
  ptr : ∀ {s M}, I s M → ∀ p ∈ M, p ≠ 0 ∧ p < 2 ^ 64
  count : ∀ {s M}, I s M → M.card ≤ PageManager.pageCount s
  newPage : ∀ {s M n t es}, I s M → Holds n t es → nodeSize es ≤ btreePageSize →
    Ends E (fun r => I r.2 (r.1 ::ₘ M) ∧ (∃ n', PageManager.get r.2 r.1 = .ok n' ∧ Holds n' t es) ∧
      ∀ q ∈ M, PageManager.get r.2 q = PageManager.get s q) (PageManager.newPage s n)
  del : ∀ {s M p}, I s (p ::ₘ M) →
    Ends E (fun s' => I s' M ∧ ∀ q ∈ M, PageManager.get s' q = PageManager.get s q)
      (PageManager.del s p)

end SqlDb
