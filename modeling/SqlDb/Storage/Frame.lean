import SqlDb.Storage.Program

/-!
# What a program leaves alone

Of some programs no more need be known than which keys they may write. `Writes K p` says
that whatever `p` returns or throws, the bindings outside `K` are as they were. It says
nothing of runs that an assertion stops, so that it holds of a program by its shape: of
one that calls what writes `K` only.
-/

namespace SqlDb

open Outcome OrdMap

/-- Any failure but an exception: the run stops there. -/
def Stops (f : Fault) : Prop := ∀ what, f ≠ .throws what

theorem not_stops_throws (what : String) : ¬ Stops (.throws what) := fun h => h what rfl

section Lawful

variable {σ : Type} [PageManager σ] {I : σ → Multiset Nat → Prop} {E E' : Fault → Prop}

theorem LawfulPages.mono (h : LawfulPages I E) (hE : ∀ f, E f → E' f) : LawfulPages I E' where
  nodup := h.nodup
  ptr := h.ptr
  count := h.count
  newPage hi hn hsize := (h.newPage hi hn hsize).mono hE fun _ hq => hq
  del hi := (h.del hi).mono hE fun _ hq => hq

/-- A page manager whose numbers can run out throws nothing. -/
theorem LawfulPages.stops (h : LawfulPages I (· = .overflow)) : LawfulPages I Stops :=
  h.mono fun f hf => by
    rw [hf]
    exact fun _ he => nomatch he

end Lawful

/-- The bindings agree outside `K`. -/
def SameOutside (K : Bytes → Prop) (m m' : Contents) : Prop :=
  ∀ key, ¬ K key → lookup m' key = lookup m key

theorem SameOutside.refl (K : Bytes → Prop) (m : Contents) : SameOutside K m m := fun _ _ => rfl

theorem SameOutside.trans {K : Bytes → Prop} {m m' m'' : Contents} (h : SameOutside K m m')
    (h' : SameOutside K m' m'') : SameOutside K m m'' := fun key hk =>
  (h' key hk).trans (h key hk)

section Writes

variable {σ α β : Type} [PageManager σ]

/-- The program writes keys in `K` only. -/
def Tx.Writes (I : σ → Multiset Nat → Prop) (K : Bytes → Prop) (p : Tx σ α) : Prop :=
  ∀ m, Spec I Stops p m fun _ m' => SameOutside K m m'

namespace Tx.Writes

variable {I : σ → Multiset Nat → Prop} {K : Bytes → Prop}

theorem pure (a : α) : Tx.Writes I K (Pure.pure a : Tx σ α) := fun m => Spec.pure (.refl K m)

/-- **Sequencing.** -/
theorem bind {p : Tx σ α} {f : α → Tx σ β} (h : p.Writes I K) (hf : ∀ a, (f a).Writes I K) :
    (p >>= f).Writes I K := by
  intro m
  refine Spec.bind (h m) ?_ ?_
  · intro a m' hm
    exact (hf a m').imp fun _ _ hm' => hm.trans hm'
  · exact fun _ _ hm => hm

/-- **Reading writes nothing**, however it ends. -/
theorem look (f : BTree σ → Except Fault α) : (Tx.look f).Writes I K := by
  intro m t ps ht
  unfold Tx.look Tx.call
  beta_reduce
  cases hf : f t with
  | ok a => exact ⟨m, ps, ht, .refl K m⟩
  | error e =>
      cases e with
      | throws what => exact ⟨m, ps, ht, .refl K m⟩
      | _ => exact Or.inl fun _ he => nomatch he

theorem lift (r : Except Fault α) : (Tx.lift r : Tx σ α).Writes I K := look _

/-- A computation without the tree, and what its result is used for. -/
theorem bind_lift {r : Except Fault α} {f : α → Tx σ β} (h : ∀ a, r = .ok a → (f a).Writes I K) :
    (Tx.lift r >>= f).Writes I K := by
  intro m t ps ht
  show Ends _ _ (Tx.bind _ f t)
  cases r with
  | ok a => exact h a rfl m t ps ht
  | error e =>
      cases e with
      | throws what => exact ⟨m, ps, ht, .refl K m⟩
      | _ => exact Or.inl fun _ he => nomatch he

theorem assert (p : Prop) [Decidable p] (a : Assertion) :
    (Tx.assert p a : Tx σ Unit).Writes I K := lift _

section Calls

variable (hI : LawfulPages I Stops)

include hI

theorem update {req : InsertReq} (hk : K req.key) :
    (Tx.update req : Tx σ (Bool × InsertReq)).Writes I K := by
  intro m
  refine Spec.of_sorted fun hm => ?_
  refine Spec.update hI not_stops_throws ?_ ?_ ?_
  · exact fun _ _ _ key hkey => lookup_insert_of_ne hm _ fun he => hkey (he ▸ hk)
  · exact fun _ _ => .refl K m
  · exact .refl K m

theorem delete {req : DeleteReq} (hk : K req.key) :
    (Tx.delete req : Tx σ (Bool × DeleteReq)).Writes I K := by
  intro m
  refine Spec.of_sorted fun hm => ?_
  refine Spec.delete hI not_stops_throws ?_ ?_ ?_
  · exact fun _ _ _ key hkey => lookup_erase_of_ne hm fun he => hkey (he ▸ hk)
  · exact fun _ _ => .refl K m
  · exact fun _ => .refl K m

theorem del {key : Bytes} (hk : K key) : (Tx.del key : Tx σ Bool).Writes I K := by
  intro m
  refine Spec.of_sorted fun hm => ?_
  refine Spec.del hI not_stops_throws ?_ ?_
  · exact fun _ k hkey => lookup_erase_of_ne hm fun he => hkey (he ▸ hk)
  · exact fun _ => .refl K m

end Calls

end Tx.Writes

end Writes

end SqlDb
