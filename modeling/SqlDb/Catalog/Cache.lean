import SqlDb.Catalog.Catalog

/-!
# The cache against what is stored

A cached definition is `Good` for some bindings if it is what they say under its name.
Looking a table up then gives what reading past the cache gives, and what it adds to the
cache is good again. The cache stays good as long as the bindings say the same of every
table in it.
-/

namespace SqlDb

open Outcome OrdMap

/-- The definition that is stored under a name, as far as it can be read. -/
def definition (m : Contents) (name : Bytes) : Option TableDef := (tableText m name).bind decodeTableDef

/-- Everything cached is what is stored. -/
def Catalog.Good (cat : Catalog) (m : Contents) : Prop :=
  ∀ name tdef, cat.cache name = some tdef → ValidKey (tableKey name) ∧ definition m name = some tdef

theorem Catalog.good_clear (cat : Catalog) (m : Contents) : cat.clearCache.Good m :=
  fun _ _ h => nomatch h

theorem Catalog.Good.congr {cat : Catalog} {m m' : Contents} (h : cat.Good m)
    (hsame : ∀ name, definition m' name = definition m name) : cat.Good m' := by
  intro name tdef hc
  rw [hsame]
  exact h name tdef hc

/-- The cache after a lookup that found `found`. -/
def Catalog.remember (cat : Catalog) (name : Bytes) (found : Option TableDef) : Catalog :=
  match found with
  | none => cat
  | some tdef => { cat with cache := Function.update cat.cache name (some tdef) }

theorem Catalog.Good.remember {cat : Catalog} {m : Contents} (h : cat.Good m) {name : Bytes}
    (hk : ValidKey (tableKey name)) : (cat.remember name (definition m name)).Good m := by
  cases hdef : definition m name with
  | none => exact h
  | some tdef =>
      intro name' tdef' hc
      have hc : Function.update cat.cache name (some tdef) name' = some tdef' := hc
      by_cases he : name' = name
      · rw [he, Function.update_self] at hc
        rw [he, ← Option.some.inj hc]
        exact ⟨hk, hdef⟩
      · rw [Function.update_of_ne he] at hc
        exact h name' tdef' hc

section Lookup

variable {σ : Type} [PageManager σ] {m : Contents} {cat : Catalog} {t : BTree σ}

theorem Catalog.getTableDef_cached {name : Bytes} {tdef : TableDef}
    (h : cat.cache name = some tdef) :
    (cat.getTableDef name : Tx σ (Option TableDef × Catalog)) t = .ok (.ok (some tdef, cat), t) := by
  unfold Catalog.getTableDef
  rw [h]
  rfl

/-- What is not cached is read; a name that is too long throws. -/
theorem Catalog.getTableDef_missed (hread : t.Readable m) {name : Bytes}
    (h : cat.cache name = none) : cat.getTableDef name t = if ValidKey (tableKey name) then
        .ok (.ok (definition m name, cat.remember name (definition m name)), t)
      else .ok (.error (limitText (tableKey name)), t) := by
  have hkv := getTableDefFromKv_eq hread name
  unfold Catalog.getTableDef
  rw [h]
  show Tx.bind (Tx.look _) _ t = _
  unfold Tx.bind Tx.look Tx.call
  beta_reduce
  rw [hkv]
  by_cases hk : ValidKey (tableKey name)
  · rw [if_pos hk, if_pos hk]
    unfold definition
    cases (tableText m name).bind decodeTableDef <;> rfl
  · rw [if_neg hk, if_neg hk, limitFault_eq]
    rfl

/-- Looking a table up leaves the tree as it is. -/
theorem Catalog.getTableDef_reads (cat : Catalog) (hread : t.Readable m) (name : Bytes) :
    ∃ r, (cat.getTableDef name : Tx σ (Option TableDef × Catalog)) t = .ok (r, t) := by
  cases hc : cat.cache name with
  | some tdef => exact ⟨_, getTableDef_cached hc⟩
  | none =>
      rw [getTableDef_missed hread hc]
      split
      · exact ⟨_, rfl⟩
      · exact ⟨_, rfl⟩

/-- **Looking a table up** gives what is stored, and leaves the cache good. -/
theorem Catalog.Good.getTableDef (h : cat.Good m) (hread : t.Readable m) {name : Bytes}
    (hk : ValidKey (tableKey name)) : ∃ cat' : Catalog, cat'.Good m ∧
      cat.getTableDef name t = .ok (.ok (definition m name, cat'), t) := by
  cases hc : cat.cache name with
  | some tdef =>
      refine ⟨cat, h, ?_⟩
      rw [getTableDef_cached hc, (h name tdef hc).2]
  | none =>
      refine ⟨_, h.remember hk, ?_⟩
      rw [getTableDef_missed hread hc, if_pos hk]

theorem Catalog.Good.getTableDef_invalid (h : cat.Good m) (hread : t.Readable m) {name : Bytes}
    (hk : ¬ ValidKey (tableKey name)) :
    cat.getTableDef name t = .ok (.error (limitText (tableKey name)), t) := by
  have hc : cat.cache name = none := by
    cases hc : cat.cache name with
    | none => rfl
    | some tdef => exact absurd (h name tdef hc).1 hk
  rw [getTableDef_missed hread hc, if_neg hk]

end Lookup

end SqlDb
