import SqlDb.Storage.PageNumbers

/-!
# Calls on a tree, and pages in memory

A run of calls is made on a tree over any page manager. The plainest manager keeps nodes in
memory under consecutive numbers, the one the source's tests use. Over it a few inserts
always go through, and the tree they make is the one that is drawn.
-/

namespace SqlDb

open Outcome OrdMap

/-! ## Runs of calls -/

/-- A call that changes the tree. -/
inductive Call where
  | insert (key val : Bytes)
  | remove (key : Bytes)
deriving DecidableEq

/-- What a call comes back with. -/
inductive Reply where
  | inserted
  | removed (found : Bool)
  | threw (what : String)
deriving DecidableEq

def Reply.ofInsert : Except String Unit → Reply
  | .ok () => .inserted
  | .error what => .threw what

def Reply.ofRemove : Except String Bool → Reply
  | .ok found => .removed found
  | .error what => .threw what

namespace BTree

variable {σ : Type} [PageManager σ]

/-- A call, and the tree as it is once it has returned or thrown. -/
def call (t : BTree σ) : Call → Except Fault (Reply × BTree σ)
  | .insert key val => do
      let (res, t) ← t.tryInsert key val
      return (.ofInsert res, t)
  | .remove key => do
      let (res, t) ← t.tryRemove key
      return (.ofRemove res, t)

def run (t : BTree σ) : List Call → Except Fault (BTree σ)
  | [] => .ok t
  | c :: calls => do
      let (_, t) ← t.call c
      run t calls

theorem run_append (t : BTree σ) (calls calls' : List Call) :
    t.run (calls ++ calls') = (do
      let t ← t.run calls
      t.run calls') := by
  induction calls generalizing t with
  | nil => rfl
  | cons c calls ih =>
      rw [List.cons_append, run, run, bind_assoc]
      exact bind_congr fun r => ih r.2

section Exact

variable (t : BTree σ) {key val : Bytes}

theorem tryInsert_valid (hk : ValidKey key) (hv : ValidVal val) :
    t.tryInsert key val = (do
      let t ← t.insert key val
      return (.ok (), t)) := by
  rw [insert_valid t hk hv, tryInsert, checkLimit_valid hk hv]

theorem tryRemove_valid (hk : ValidKey key) :
    t.tryRemove key = (do
      let (found, t) ← t.remove key
      return (.ok found, t)) := by
  rw [remove_valid t hk, tryRemove, checkKeyLimit_valid hk]

/-- The limits are checked before anything else is done. -/
theorem tryInsert_invalid (h : ¬ (ValidKey key ∧ ValidVal val)) :
    t.tryInsert key val = .ok (.error (limitText key), t) := by
  rw [tryInsert, checkLimit_invalid h]

theorem tryRemove_invalid (h : ¬ ValidKey key) :
    t.tryRemove key = .ok (.error (limitText key), t) := by
  rw [tryRemove, checkKeyLimit_invalid h]

end Exact

variable {I : σ → Multiset Nat → Prop}

/-- The tree that was never written stands for the empty map. -/
theorem denotes_empty {s : σ} (hs : I s 0) : Denotes I ⟨0, s⟩ [] 0 :=
  ⟨Or.inl ⟨rfl, rfl, rfl⟩, hs⟩

end BTree

/-! ## Pages in memory -/

/-- `InMemoryPageManager`: nodes under consecutive page numbers. -/
structure InMemoryPageManager where
  pages : List (Nat × BNode) := []
  nextPtr : Nat := 1

namespace InMemoryPageManager

/-- `pages_.at(ptr)` -/
def get (s : InMemoryPageManager) (ptr : Nat) : Except Fault BNode :=
  match s.pages.find? fun p => p.1 = ptr with
  | some p => .ok p.2
  | none => .error (.throws "out_of_range")

def newPage (s : InMemoryPageManager) (node : BNode) : Except Fault (Nat × InMemoryPageManager) :=
  if s.nextPtr + 1 < 2 ^ 64 then .ok (s.nextPtr, ⟨(s.nextPtr, node) :: s.pages, s.nextPtr + 1⟩)
  else .error .overflow

def del (s : InMemoryPageManager) (ptr : Nat) : Except Fault InMemoryPageManager :=
  .ok { s with pages := s.pages.filter fun p => p.1 ≠ ptr }

instance : PageManager InMemoryPageManager where
  get := get
  newPage := newPage
  del := del
  pageCount := fun s => s.pages.length

/-- The pages stored are exactly the tree's, below the next number. -/
structure Owns (s : InMemoryPageManager) (M : Multiset Nat) : Prop where
  eq : (s.pages.map Prod.fst : Multiset Nat) = M
  nodup : M.Nodup
  range : ∀ p ∈ M, p ≠ 0 ∧ p < s.nextPtr
  next : s.nextPtr ≠ 0 ∧ s.nextPtr < 2 ^ 64

theorem get_cons_ne {s : InMemoryPageManager} {p q k : Nat} {n : BNode} (h : p ≠ q) :
    get ⟨(p, n) :: s.pages, k⟩ q = get s q := by
  unfold get
  rw [List.find?_cons_of_neg (by simpa using h)]

theorem get_filter_ne {s : InMemoryPageManager} {p q : Nat} (h : q ≠ p) :
    get { s with pages := s.pages.filter fun r => r.1 ≠ p } q = get s q := by
  unfold get
  rw [List.find?_filter]
  congr 1
  refine congrFun (congrArg _ (funext fun r => ?_)) _
  by_cases hr : r.1 = q
  · simp [hr, h]
  · simp [hr]

/-- **Pages in memory are returned as stored.** Only the page numbers can run out. -/
theorem lawful : LawfulPages Owns (· = .overflow) where
  nodup h := h.nodup
  ptr h p hp := ⟨(h.range p hp).1, lt_trans (h.range p hp).2 h.next.2⟩
  count {s M} h := by
    rw [← h.eq, Multiset.coe_card, List.length_map]; exact le_refl _
  newPage {s M n t es} h hn _ := by
    show Ends _ _ (newPage s n)
    unfold newPage
    split
    · rename_i hlt
      -- numbers only go up, so the next one is not in use
      have hfresh : s.nextPtr ∉ M := fun hp => lt_irrefl _ (h.range _ hp).2
      refine ⟨⟨?_, Multiset.nodup_cons.mpr ⟨hfresh, h.nodup⟩, fun p hp => ?_, Nat.succ_ne_zero _, hlt⟩,
        ⟨n, ?_, hn⟩, fun q hq => get_cons_ne fun he => hfresh (he ▸ hq)⟩
      · rw [List.map_cons, ← Multiset.cons_coe, h.eq]
      · rcases Multiset.mem_cons.mp hp with rfl | hp
        · exact ⟨h.next.1, Nat.lt_succ_self _⟩
        · exact ⟨(h.range p hp).1, Nat.lt_succ_of_lt (h.range p hp).2⟩
      · show get _ _ = _
        unfold get
        rw [List.find?_cons_of_pos (by simp)]
    · rfl
  del {s M p} h := by
    have hnd := Multiset.nodup_cons.mp h.nodup
    refine ⟨⟨?_, hnd.2, fun q hq => h.range q (Multiset.mem_cons_of_mem hq), h.next⟩, fun q hq =>
      get_filter_ne fun he => hnd.1 (he ▸ hq)⟩
    have hmap : (s.pages.filter fun r => r.1 ≠ p).map Prod.fst =
        (s.pages.map Prod.fst).filter (· ≠ p) := by
      rw [List.filter_map]; rfl
    rw [hmap, ← Multiset.filter_coe, h.eq, Multiset.filter_cons_of_neg _ (by simp)]
    exact Multiset.filter_eq_self.mpr fun q hq he => hnd.1 (he ▸ hq)

theorem owns_empty : Owns {} 0 :=
  ⟨rfl, Multiset.nodup_zero, fun p hp => absurd hp (Multiset.notMem_zero p), by decide⟩

/-- At most `N` pages, with numbers of at most `N`. -/
structure Within (N : Nat) (s : InMemoryPageManager) : Prop where
  next : s.nextPtr ≤ N
  pages : s.pages.length ≤ N

/-- Pages in memory are numbered upwards, and no number is used twice. -/
theorem counts : Counts Within 1 where
  mono h hle := ⟨h.next.trans hle, h.pages.trans hle⟩
  count h := h.pages
  get s ptr := by
    show Quiet (get s ptr)
    unfold get
    split
    · trivial
    · show Fault.throws _ ≠ .overflow
      exact fun h => by cases h
  newPage {N s} h hlt node := by
    have hnext := h.next
    show Ends _ _ (newPage s node)
    rw [newPage, if_pos (by omega)]
    exact ⟨Nat.succ_le_succ hnext, Nat.succ_le_succ h.pages⟩
  del h _ _ := ⟨h.next.trans (Nat.le_succ _),
    (List.length_filter_le _ _).trans (h.pages.trans (Nat.le_succ _))⟩

end InMemoryPageManager

/-! ## Trees in memory -/

namespace BTree

/-- A run of inserts. -/
abbrev inserts (rs : List (Bytes × Bytes)) : List Call := rs.map fun r => .insert r.1 r.2

/-- What inserting one binding after another makes of a drawing. -/
def drawing (S : Σ h, List (Shape h)) (rs : List (Bytes × Bytes)) : Σ h, List (Shape h) :=
  rs.foldl (fun S r => Shape.insert r.1 r.2 S) S

/-- And of what the tree stands for. -/
def stored (m : Contents) (rs : List (Bytes × Bytes)) : Contents :=
  rs.foldl (fun m r => OrdMap.insert m r.1 r.2) m

/-- A tree in memory after `k` inserts: what it stands for, and what it looks like. -/
structure Drawn (k : Nat) (t : BTree InMemoryPageManager) (m : Contents) (S : Σ h, List (Shape h)) :
    Prop where
  root : t.root ≠ 0
  denotes : ∃ ps, t.Denotes InMemoryPageManager.Owns m ps
  drawn : t.DrawnAs S
  within : InMemoryPageManager.Within (8 ^ (k + 1)) t.pages

/-- An insert that the page numbers suffice for. -/
theorem insert_drawn {k : Nat} (hk : k ≤ 19) {t : BTree InMemoryPageManager} {m : Contents}
    {ps : Multiset Nat} (ht : t.Denotes InMemoryPageManager.Owns m ps)
    (hw : InMemoryPageManager.Within (8 ^ (k + 1)) t.pages) {key val : Bytes} (hkey : ValidKey key)
    (hval : ValidVal val) : ∃ t', t.call (.insert key val) = .ok (.inserted, t') ∧
      (t.root = 0 → Drawn (k + 1) t' (OrdMap.insert m key val) (Shape.first key val)) ∧
      ∀ S, t.root ≠ 0 → t.DrawnAs S →
        Drawn (k + 1) t' (OrdMap.insert m key val) (Shape.insert key val S) := by
  have hspec := insert_exact InMemoryPageManager.lawful InMemoryPageManager.lawful
    (fun _ => InMemoryPageManager.lawful.frees t.root) ht hkey hval
  have hwithin := InMemoryPageManager.counts.insert_pow (by decide) hk hw hkey hval
  rw [call, tryInsert_valid t hkey hval]
  cases hr : t.insert key val with
  | error f =>
      rw [hr] at hspec hwithin
      exact absurd hspec hwithin
  | ok t' =>
      rw [hr] at hspec hwithin
      obtain ⟨hroot, ⟨ps', h0, h1⟩, hfirst, hdrawn⟩ := hspec
      exact ⟨t', rfl, fun h => ⟨hroot, ⟨ps', h0 h⟩, hfirst h, hwithin⟩,
        fun S h hS => ⟨hroot, ⟨ps', h1 h⟩, hdrawn S h hS, hwithin⟩⟩

theorem run_drawn (rs : List (Bytes × Bytes)) (hrs : ∀ r ∈ rs, ValidKey r.1 ∧ ValidVal r.2) :
    ∀ {k : Nat} {t : BTree InMemoryPageManager} {m : Contents} {S : Σ h, List (Shape h)},
      k + rs.length ≤ 20 → Drawn k t m S → ∃ t', t.run (inserts rs) = .ok t' ∧
        Drawn (k + rs.length) t' (stored m rs) (drawing S rs) := by
  induction rs with
  | nil => exact fun _ h => ⟨_, rfl, h⟩
  | cons r rs ih =>
      intro k t m S hk ht
      rw [List.length_cons] at hk
      obtain ⟨ps, hd⟩ := ht.denotes
      obtain ⟨hkey, hval⟩ := hrs r (by simp)
      obtain ⟨t1, hcall, _, hstep⟩ := insert_drawn (by omega) hd ht.within hkey hval
      obtain ⟨t', hrun, h'⟩ := ih (fun x hx => hrs x (by simp [hx])) (by omega)
        (hstep S ht.root ht.drawn)
      refine ⟨t', ?_, ?_⟩
      · rw [inserts, List.map_cons, run, hcall]
        exact hrun
      · rw [show k + (r :: rs).length = k + 1 + rs.length by simp; omega]
        exact h'

/-- **A tree built by inserts in memory** looks as it is drawn. -/
theorem run_inserts_drawn (r : Bytes × Bytes) (rs : List (Bytes × Bytes))
    (hrs : ∀ x ∈ r :: rs, ValidKey x.1 ∧ ValidVal x.2) (hlen : rs.length ≤ 19) :
    ∃ t, (⟨0, {}⟩ : BTree InMemoryPageManager).run (inserts (r :: rs)) = .ok t ∧
      Drawn (1 + rs.length) t (stored [] (r :: rs)) (drawing (Shape.first r.1 r.2) rs) := by
  obtain ⟨hkey, hval⟩ := hrs r (by simp)
  obtain ⟨t1, hcall, hfirst, _⟩ := insert_drawn (k := 0) (by omega)
    (denotes_empty InMemoryPageManager.owns_empty) ⟨by decide, by decide⟩ hkey hval
  obtain ⟨t, hrun, ht⟩ := run_drawn rs (fun x hx => hrs x (by simp [hx])) (by omega) (hfirst rfl)
  refine ⟨t, ?_, ht⟩
  rw [inserts, List.map_cons, run, hcall]
  exact hrun

section Drawn

variable {k : Nat} {t : BTree InMemoryPageManager} {m : Contents} {S : Σ h, List (Shape h)}
  {key : Bytes}

/-- There is room where there is in the drawing. -/
theorem Drawn.room_iff (h : Drawn k t m S) : t.RoomFor key ↔ Shape.Room key S.1 S.2 := by
  obtain ⟨ps, hd⟩ := h.denotes
  rcases hd.tree with ⟨h0, _⟩ | ⟨_, _, n, he⟩
  · exact absurd h0 h.root
  obtain ⟨_, node, es, ps', hget, hn, _⟩ := entryAt_succ.mp he
  constructor
  · rintro (h0 | ⟨S', hS', hroom⟩)
    · exact absurd h0 h.root
    · rwa [h.drawn.eq he hget hn, ← hS'.eq he hget hn]
  · exact fun hroom => Or.inr ⟨S, h.drawn, hroom⟩

theorem Drawn.not_room (h : Drawn k t m S) (hno : ¬ Shape.Room key S.1 S.2) : ¬ t.RoomFor key :=
  fun hroom => hno (h.room_iff.mp hroom)

theorem Drawn.quiet_remove (h : Drawn k t m S) (hk : k ≤ 19) (hkey : ValidKey key) :
    Quiet (t.remove key) := by
  have hlast : 8 ^ (k + 1) ≤ 8 ^ 20 := Nat.pow_le_pow_right (by omega) (by omega)
  have hmax : 8 ^ 20 + 1 * (3 * 8 ^ 20 + 2) < 2 ^ 64 := by decide
  exact InMemoryPageManager.counts.remove h.within (by omega) hkey

/-- And then a delete goes through. -/
theorem Drawn.remove (h : Drawn k t m S) (hk : k ≤ 19) (hkey : ValidKey key)
    (hroom : t.RoomFor key) : ∃ r, t.remove key = .ok r := by
  obtain ⟨ps, hd⟩ := h.denotes
  have hspec := remove_exact InMemoryPageManager.lawful InMemoryPageManager.lawful
    (fun _ => InMemoryPageManager.lawful.frees t.root) hd hkey
  have hquiet := h.quiet_remove hk hkey
  cases hr : t.remove key with
  | ok r => exact ⟨r, rfl⟩
  | error f =>
      rw [hr] at hspec hquiet
      exact absurd hroom (hspec.resolve_left hquiet).2

/-- At the end of a run too. -/
theorem Drawn.run_remove (h : Drawn k t m S) (hk : k ≤ 19) (hkey : ValidKey key)
    (hroom : t.RoomFor key) {calls : List Call}
    (hrun : (⟨0, {}⟩ : BTree InMemoryPageManager).run calls = .ok t) :
    ∃ t', (⟨0, {}⟩ : BTree InMemoryPageManager).run (calls ++ [.remove key]) = .ok t' := by
  obtain ⟨⟨found, t'⟩, hr⟩ := h.remove hk hkey hroom
  refine ⟨t', ?_⟩
  rw [run_append, hrun, ok_bind, run, call, tryRemove_valid t hkey, hr]
  rfl

end Drawn

/-- A key of the greatest length. -/
def longKey (first : UInt8) : Bytes := first :: List.replicate 999 0

/-- A value of the greatest length. -/
def longVal : Bytes := List.replicate 1000 0

/-- A short value and five long ones, more than a page has room for. -/
def sixBindings : List (Bytes × Bytes) :=
  [([97], [49]), ([98], longVal), ([99], longVal), ([100], longVal), ([101], longVal),
    ([102], longVal)]

/-- What their tree looks like. -/
def twoLeaves : Σ h, List (Shape h) := drawing (Shape.first [97] [49]) sixBindings.tail

/-- Two leaves below a root. -/
example : twoLeaves.1 = 1 ∧ twoLeaves.2.length = 2 := by decide +kernel

theorem run_six : ∃ t, (⟨0, {}⟩ : BTree InMemoryPageManager).run (inserts sixBindings) = .ok t ∧
    Drawn 6 t sixBindings twoLeaves := by
  have hstored : stored [] sixBindings = sixBindings := by decide +kernel
  obtain ⟨t, hrun, ht⟩ := run_inserts_drawn ([97], [49]) sixBindings.tail (by decide +kernel)
    (by decide)
  have ht' : Drawn 6 t (stored [] sixBindings) twoLeaves := ht
  rw [hstored] at ht'
  exact ⟨t, hrun, ht'⟩

end BTree

end SqlDb
