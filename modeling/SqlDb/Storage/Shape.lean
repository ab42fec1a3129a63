import SqlDb.Base.OrdMap
import SqlDb.Storage.BTree

/-!
# The tree without its pages

A tree as it is drawn: leaves of bindings, and above them nodes made of nodes. The type
counts the levels, so that all leaves are equally deep, and there are no page numbers and
no separators: the key in front of a node is the first one below it.

What an insert does to the drawing is `insert`. For a delete the sizes are enough: `left`
says how many bytes a node comes to, and `Room` under which condition on the tree as it
stands none of them exceeds a page.
-/

namespace SqlDb

open OrdMap

/-- An entry of a node at height `h`: a binding in a leaf, and above that the node linked to. -/
def Shape : Nat → Type
  | 0 => Bytes × Bytes
  | h + 1 => List (Shape h)

namespace Shape

/-- The key in front of an entry: the first one below it. -/
def key : {h : Nat} → Shape h → Bytes
  | 0, r => Prod.fst r
  | _ + 1, [] => []
  | _ + 1, e :: _ => key e

def val : {h : Nat} → Shape h → Bytes
  | 0, r => Prod.snd r
  | _ + 1, _ => []

/-- The bindings below an entry. -/
def contents : {h : Nat} → Shape h → List (Bytes × Bytes)
  | 0, r => [r]
  | _ + 1, n => List.flatMap contents n

variable {h : Nat}

/-- What an entry takes of its node: a pointer, an offset and a record. -/
def bytes (e : Shape h) : Nat := 14 + e.key.length + e.val.length

/-- The bytes in use in a node. -/
def used (n : List (Shape h)) : Nat := 4 + (n.map bytes).sum

@[simp] theorem used_nil : used ([] : List (Shape h)) = 4 := rfl

@[simp] theorem used_cons (e : Shape h) (n : List (Shape h)) :
    used (e :: n) = e.bytes + used n := by
  rw [used, used, List.map_cons, List.sum_cons]
  omega

theorem used_append (m n : List (Shape h)) : used (m ++ n) + 4 = used m + used n := by
  rw [used, used, used, List.map_append, List.sum_append]
  omega

/-! ## Looking for a key -/

/-- The entry a key is looked for below, between those before and after it. -/
def route (k : Bytes) (n : List (Shape h)) :
    Option (List (Shape h) × Shape h × List (Shape h)) :=
  match (n.takeWhile fun e => e.key ≤ k).reverse with
  | [] => none
  | e :: a => some (a.reverse, e, n.dropWhile fun e => e.key ≤ k)

/-- The last entry at or below the key. -/
theorem route_append {k : Bytes} {a b : List (Shape h)} {e : Shape h} (ha : ∀ x ∈ a, x.key ≤ k)
    (he : e.key ≤ k) (hb : ∀ x ∈ b, k < x.key) : route k (a ++ e :: b) = some (a, e, b) := by
  have hae : ∀ x ∈ a ++ [e], decide (x.key ≤ k) = true := by
    intro x hx
    rcases List.mem_append.mp hx with hx | hx
    · exact decide_eq_true (ha x hx)
    · rw [List.mem_singleton.mp hx]
      exact decide_eq_true he
  have hb' : b.takeWhile (fun x => decide (x.key ≤ k)) = [] ∧
      b.dropWhile (fun x => decide (x.key ≤ k)) = b := by
    cases b with
    | nil => exact ⟨rfl, rfl⟩
    | cons y b =>
        have hy : ¬ decide (y.key ≤ k) = true := by simpa using hb y (by simp)
        exact ⟨List.takeWhile_cons_of_neg hy, List.dropWhile_cons_of_neg hy⟩
  rw [show a ++ e :: b = (a ++ [e]) ++ b by simp, route, List.takeWhile_append_of_pos hae,
    List.dropWhile_append_of_pos hae, hb'.1, hb'.2, List.append_nil, List.reverse_append,
    List.reverse_singleton, List.singleton_append]
  dsimp only
  rw [List.reverse_reverse]

/-! ## Splitting

Where a node is cut depends on the sizes of its entries alone. -/

/-- `while (left_bytes > BTREE_PAGE_SIZE) --nleft` -/
def shrink (ws : List Nat) : Nat → Nat
  | 0 => 0
  | k + 1 => if 4 + (ws.take (k + 1)).sum > btreePageSize then shrink ws k else k + 1

/-- `while (right_bytes > BTREE_PAGE_SIZE) ++nleft` -/
def grow (ws : List Nat) : Nat → Nat → Nat
  | 0, k => k
  | fuel + 1, k => if 4 + (ws.drop k).sum > btreePageSize then grow ws fuel (k + 1) else k

/-- How many of the entries of these sizes the left half of a split takes. -/
def cut (ws : List Nat) : Nat := grow ws (ws.length + 1) (shrink ws (ws.length / 2))

/-- A node as it is stored: whole if it fits a page, and else in two halves. -/
def pieces {α : Type} (ws : List Nat) (l : List α) : List (List α) :=
  if 4 + ws.sum ≤ btreePageSize then [l] else [l.take (cut ws), l.drop (cut ws)]

theorem flatten_pieces {α : Type} (ws : List Nat) (l : List α) : (pieces ws l).flatten = l := by
  unfold pieces
  split <;> simp

theorem length_pieces_le {α : Type} (ws : List Nat) (l : List α) : (pieces ws l).length ≤ 2 := by
  unfold pieces
  split <;> simp

theorem map_pieces {α β : Type} (f : α → β) (ws : List Nat) (l : List α) :
    (pieces ws l).map (List.map f) = pieces ws (l.map f) := by
  unfold pieces
  split <;> simp

/-! ## Inserting -/

/-- The node with `(k, v)` inserted below it, not yet split. -/
def insertBelow (k v : Bytes) : (h : Nat) → List (Shape h) → List (Shape h)
  | 0, n => OrdMap.insert n k v
  | h + 1, n =>
      match route k n with
      | none => n
      | some (a, e, b) =>
          let e' := insertBelow k v h e
          let split : List (Shape (h + 1)) := pieces (e'.map bytes) e'
          a ++ split ++ b

/-- The root that the pieces of a root end under. -/
def root : List (List (Shape h)) → Σ h, List (Shape h)
  | [one] => ⟨h, one⟩
  | split => ⟨h + 1, split⟩

/-- The tree with `(k, v)` inserted. -/
def insert (k v : Bytes) (t : Σ h, List (Shape h)) : Σ h, List (Shape h) :=
  let n := insertBelow k v t.1 t.2
  root (pieces (n.map bytes) n)

/-- The tree of one binding, after the sentinel. -/
def first (k v : Bytes) : Σ h, List (Shape h) := ⟨0, ([([], []), (k, v)] : List (Bytes × Bytes))⟩

/-! ## Deleting -/

/-- Whether a sibling and a node of `u` bytes fit one page. -/
def fits (u : Nat) (x : Shape (h + 1)) : Bool := used (h := h) x + u - 4 ≤ btreePageSize

/-- The sibling that a node of `u` bytes between `a` and `b` is merged with. -/
def joins (u : Nat) (a b : List (Shape (h + 1))) : MergeDirection :=
  if u > btreePageSize / 4 then .none
  else if a.getLast?.any (fits u) then .left
  else if b.head?.any (fits u) then .right
  else .none

section Joins

variable {u : Nat} {a b : List (Shape (h + 1))}

theorem joins_big (hu : u > btreePageSize / 4) : joins u a b = .none := if_pos hu

theorem joins_left {x : Shape (h + 1)} (hu : ¬ u > btreePageSize / 4) (hx : fits u x) :
    joins u (a ++ [x]) b = .left := by
  rw [joins, if_neg hu, if_pos (by simpa using hx)]

theorem joins_right {y : Shape (h + 1)} (hu : ¬ u > btreePageSize / 4)
    (ha : ¬ a.getLast?.any (fits u)) (hy : fits u y) : joins u a (y :: b) = .right := by
  rw [joins, if_neg hu, if_neg ha, if_pos (by simpa using hy)]

theorem joins_none (hu : ¬ u > btreePageSize / 4) (ha : ¬ a.getLast?.any (fits u))
    (hb : ¬ b.head?.any (fits u)) : joins u a b = .none := by
  rw [joins, if_neg hu, if_neg ha, if_neg hb]

end Joins

/-- The first key below an entry, once `k` is gone. -/
def next (k : Bytes) (e : Shape h) : Option Bytes := (erase e.contents k).head?.map Prod.fst

/-- What a link takes of its node, if it is there at all. -/
def linkBytes : Option Bytes → Nat
  | none => 0
  | some k => 14 + k.length

/-- The bytes in use in a node when one between `a` and `b` has come to `u` bytes and its first key
is `first`. -/
def above (u : Nat) (a b : List (Shape (h + 1))) (first : Option Bytes) : Nat :=
  match joins u a b with
  | .left => used (a ++ b)
  | .right => used (a ++ b.tail) + linkBytes (first.or (b.head?.map key))
  | .none => used (a ++ b) + linkBytes first

/-- The bytes in use in a node when `k` is deleted below it. -/
def left (k : Bytes) : (h : Nat) → List (Shape h) → Nat
  | 0, n => used (h := 0) (erase n k)
  | h + 1, n =>
      match route k n with
      | none => used n
      | some (a, e, b) => above (left k h e) a b (next k e)

/-- What merging with the right sibling takes off the node above. -/
def freed : MergeDirection → List (Shape h) → Nat
  | .right, e :: _ => e.bytes
  | _, _ => 0

/-- **There is room to delete `k` below a node.** Only a separator that is `k` itself changes, to
the next key below its link. The node must have room for that key in place of `k`, and of the right
sibling's link if the two are merged; with a left sibling the link goes away. -/
def Room (k : Bytes) : (h : Nat) → List (Shape h) → Prop
  | 0, _ => True
  | h + 1, n =>
      match route k n with
      | none => True
      | some (a, e, b) =>
          Room k h e ∧ (e.key = k → joins (left k h e) a b ≠ .left → ∀ k' ∈ next k e,
            used n + k'.length ≤ btreePageSize + k.length + freed (joins (left k h e) a b) b)

instance decidableRoom (k : Bytes) : (h : Nat) → (n : List (Shape h)) → Decidable (Room k h n)
  | 0, _ => isTrue trivial
  | h + 1, n => by
      unfold Room
      cases route k n with
      | none => exact isTrue trivial
      | some r =>
          have := decidableRoom k h r.2.1
          exact inferInstanceAs (Decidable (_ ∧ _))

/-- A link's record is its key. -/
theorem bytes_link (e : Shape (h + 1)) : e.bytes = 14 + e.key.length := rfl

/-- A separator that stays leaves the node as large as it was, or smaller. -/
theorem next_of_ne {k v : Bytes} {e : Shape h} {rest : List (Bytes × Bytes)}
    (he : e.contents = (e.key, v) :: rest) (hne : e.key ≠ k) : next k e = some e.key := by
  rw [next, he, erase, List.filter_cons_of_pos (by simpa using hne)]
  rfl

/-- Where no separator changes, there is as much room as below. -/
theorem Room.of_ne {k : Bytes} {n a b : List (Shape (h + 1))} {e : Shape (h + 1)}
    (hroute : route k n = some (a, e, b)) (hroom : Room k h e) (hne : e.key ≠ k) :
    Room k (h + 1) n := by
  rw [Room, hroute]
  exact ⟨hroom, fun he => absurd he hne⟩

/-- **Room is what the node above must have**, beside the room below it. -/
theorem room_succ {k v : Bytes} {n a b : List (Shape (h + 1))} {e : Shape (h + 1)}
    {rest : List (Bytes × Bytes)} (hroute : route k n = some (a, e, b)) (hn : n = a ++ e :: b)
    (he : e.contents = (e.key, v) :: rest) (hfit : used n ≤ btreePageSize) :
    Room k (h + 1) n ↔ Room k h e ∧ left k (h + 1) n ≤ btreePageSize := by
  -- the child's link and the others
  have hused : used n = e.bytes + used (a ++ b) := by
    have h1 := used_append a (e :: b)
    have h2 := used_append a b
    rw [used_cons] at h1
    rw [hn]
    omega
  -- a merge to the right frees the right link
  have htail : used (a ++ b.tail) + freed .right b = used (a ++ b) := by
    cases b with
    | nil => rfl
    | cons y b =>
        have h1 := used_append a (y :: b)
        have h2 := used_append a b
        rw [used_cons] at h1
        show used (a ++ b) + y.bytes = _
        omega
  have hlink := bytes_link e
  rw [Room, left, hroute]
  dsimp only
  rw [above]
  refine and_congr_right fun _ => ?_
  by_cases hk : e.key = k
  · -- the separator is the key
    rw [← hk]
    cases joins (left e.key h e) a b with
    | left =>
        refine ⟨fun _ => ?_, fun _ _ hne => absurd rfl hne⟩
        show used (a ++ b) ≤ btreePageSize
        omega
    | none =>
        cases hnext : next e.key e with
        | none =>
            refine ⟨fun _ => ?_, fun _ _ _ k' hk' => by cases hk'⟩
            show used (a ++ b) + 0 ≤ btreePageSize
            omega
        | some k' =>
            show (_ → _ → ∀ k'' ∈ some k', _ ≤ _ + freed .none b) ↔
              used (a ++ b) + (14 + k'.length) ≤ btreePageSize
            rw [show freed .none b = 0 by cases b <;> rfl]
            refine ⟨fun h => ?_, fun h _ _ k'' hk'' => ?_⟩
            · have := h rfl (by decide) k' rfl
              omega
            · cases hk''
              omega
    | right =>
        cases hnext : next e.key e with
        | none =>
            refine ⟨fun _ => ?_, fun _ _ _ k' hk' => by cases hk'⟩
            show used (a ++ b.tail) + linkBytes (b.head?.map key) ≤ btreePageSize
            cases b with
            | nil =>
                show used (a ++ []) + 0 ≤ btreePageSize
                omega
            | cons y b =>
                have hy : y.bytes = linkBytes (some y.key) := rfl
                have htail' : used (a ++ b) + y.bytes = used (a ++ y :: b) := htail
                show used (a ++ b) + linkBytes (some y.key) ≤ btreePageSize
                omega
        | some k' =>
            show (_ → _ → ∀ k'' ∈ some k', _ ≤ _ + freed .right b) ↔
              used (a ++ b.tail) + (14 + k'.length) ≤ btreePageSize
            refine ⟨fun h => ?_, fun h _ _ k'' hk'' => ?_⟩
            · have := h rfl (by decide) k' rfl
              omega
            · cases hk''
              omega
  · -- another separator stays
    refine ⟨fun _ => ?_, fun _ h => absurd h hk⟩
    rw [next_of_ne he hk]
    cases joins (left k h e) a b with
    | left =>
        show used (a ++ b) ≤ btreePageSize
        omega
    | none =>
        show used (a ++ b) + (14 + e.key.length) ≤ btreePageSize
        omega
    | right =>
        show used (a ++ b.tail) + (14 + e.key.length) ≤ btreePageSize
        omega

end Shape

end SqlDb
