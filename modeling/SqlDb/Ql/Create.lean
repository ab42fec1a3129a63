import SqlDb.Catalog.TableText
import SqlDb.Ql.Tokens

/-!
# CREATE TABLE

A statement names the columns in any order and the primary key by name; a table definition
has the primary key's columns first. `build_table_def` moves them there, in the order of the
PRIMARY KEY clause, and leaves the others in the order of their declarations. It turns down
a column declared twice and a key column that is not declared or named twice, and nothing
else; what it builds passes the catalog's check and reads back from the catalog.
-/

namespace SqlDb

open Outcome

/-! ## The code -/

/-- `std::toupper` on ASCII. -/
def toUpper (c : UInt8) : UInt8 := if 97 ≤ c ∧ c ≤ 122 then c - 32 else c

def valueTypeFromName (name : Bytes) : Option ValueType :=
  let upper := name.map toUpper
  if upper ∈ ["INT64", "INT", "INTEGER", "BIGINT"].map Bytes.ofString then some .int64
  else if upper ∈ ["BYTES", "STR", "STRING", "TEXT", "VARCHAR", "BLOB"].map Bytes.ofString then
    some .bytes
  else none

abbrev ColDef := Bytes × ValueType

/-- `IDENT IDENT` -/
def colDef (name typeName : Bytes) : Except Bytes ColDef :=
  match valueTypeFromName typeName with
  | some type => .ok (name, type)
  | none => .error (.ofString "unknown column type: " ++ typeName)

/-- The declarations, in their order. -/
def colDefs : List (Bytes × Bytes) → Except Bytes (List ColDef)
  | [] => .ok []
  | decl :: decls => do
      let col ← colDef decl.1 decl.2
      let cols ← colDefs decls
      return col :: cols

/-- The first loops of `build_table_def`. -/
def checkDistinct : List ColDef → Except Bytes Unit
  | [] => .ok ()
  | col :: cols => do
      require (∀ other ∈ cols, col.1 ≠ other.1) (.ofString "duplicate column: " ++ col.1)
      checkDistinct cols

/-- The loop over the PRIMARY KEY clause. -/
def takeKeys (cols : List ColDef) :
    List Bytes → List Bool → TableDef → Except Bytes (List Bool × TableDef)
  | [], taken, builder => .ok (taken, builder)
  | key :: pk, taken, builder =>
      match cols.findIdx? (fun col => col.1 = key) with
      | none => .error (.ofString "primary key column is not defined: " ++ key)
      | some i => do
          require (taken.getD i false = false) (.ofString "duplicate primary key column: " ++ key)
          let col := cols.getD i ([], .error)
          takeKeys cols pk (taken.set i true) (builder.addCol col.1 col.2)

/-- The loop over the columns that are not taken. -/
def addRest : List (ColDef × Bool) → TableDef → TableDef
  | [], builder => builder
  | (col, taken) :: cols, builder =>
      addRest cols (if taken then builder else builder.addCol col.1 col.2)

/-- The clause's length is cast to an `int`. -/
def buildTableDef (name : Bytes) (cols : List ColDef) (pk : List Bytes) : Except Bytes TableDef := do
  checkDistinct cols
  let (taken, builder) ← takeKeys cols pk (List.replicate cols.length false) { name := name }
  return (addRest (cols.zip taken) builder).setPkeys (castInt pk.length)

/-! ## What is built -/

/-- Which columns a list of names takes. -/
def marks (cols : List ColDef) (names : List Bytes) : List Bool :=
  cols.map fun col => decide (col.1 ∈ names)

/-- `add_col`, one column after another. -/
def TableDef.addCols (tdef : TableDef) (cols : List ColDef) : TableDef :=
  { tdef with
    cols := tdef.cols ++ cols.map Prod.fst
    types := tdef.types ++ cols.map Prod.snd }

theorem addCols_nil (tdef : TableDef) : tdef.addCols [] = tdef := by
  simp [TableDef.addCols]

theorem addCols_cons (tdef : TableDef) (col : ColDef) (cols : List ColDef) :
    tdef.addCols (col :: cols) = (tdef.addCol col.1 col.2).addCols cols := by
  simp [TableDef.addCols, TableDef.addCol]

theorem addCols_append (tdef : TableDef) (cols cols' : List ColDef) :
    tdef.addCols (cols ++ cols') = (tdef.addCols cols).addCols cols' := by
  simp [TableDef.addCols]

theorem checkDistinct_eq_ok {cols : List ColDef} :
    checkDistinct cols = .ok () ↔ (cols.map Prod.fst).Nodup := by
  induction cols with
  | nil => exact ⟨fun _ => List.nodup_nil, fun _ => rfl⟩
  | cons col cols ih =>
      rw [checkDistinct, bind_eq_ok, List.map_cons, List.nodup_cons, List.mem_map]
      simp only [require_eq_ok, ih, exists_const]
      refine and_congr_left' ⟨fun h hmem => ?_, fun h other hother he => h ⟨other, hother, he.symm⟩⟩
      obtain ⟨other, hother, he⟩ := hmem
      exact h other hother he.symm

/-- Among distinct names the search finds the column itself. -/
theorem findIdx?_of_mem {cols : List ColDef} {col : ColDef} (hnodup : (cols.map Prod.fst).Nodup)
    (hcol : col ∈ cols) : ∃ i, cols.findIdx? (fun c => c.1 = col.1) = some i ∧
      cols[i]? = some col := by
  induction cols with
  | nil => exact absurd hcol List.not_mem_nil
  | cons c cols ih =>
      rw [List.map_cons, List.nodup_cons] at hnodup
      rw [List.findIdx?_cons]
      rcases List.mem_cons.mp hcol with rfl | hmem
      · exact ⟨0, if_pos (by simp), rfl⟩
      · have hne : ¬ c.1 = col.1 := fun he => hnodup.1 (he ▸ List.mem_map_of_mem hmem)
        obtain ⟨i, hi, hget⟩ := ih hnodup.2 hmem
        exact ⟨i + 1, by rw [if_neg (by simpa using hne), hi]; rfl, hget⟩

/-- Marking one more column. -/
theorem marks_set {cols : List ColDef} {names : List Bytes} {col : ColDef} {i : Nat}
    (hnodup : (cols.map Prod.fst).Nodup) (hi : cols[i]? = some col) :
    (marks cols names).set i true = marks cols (names ++ [col.1]) := by
  obtain ⟨hlt, rfl⟩ := List.getElem?_eq_some_iff.mp hi
  refine List.ext_getElem (by simp [marks]) fun j hj hj' => ?_
  have hjlt : j < cols.length := by simpa [marks] using hj'
  rw [List.getElem_set]
  split
  · rename_i heq
    subst heq
    simp [marks]
  · rename_i hne
    have hname : cols[j].1 ≠ cols[i].1 := by
      intro he
      have hget : (cols.map Prod.fst).get ⟨i, by simpa using hlt⟩ =
          (cols.map Prod.fst).get ⟨j, by simpa using hjlt⟩ := by simpa using he.symm
      exact hne (Fin.mk.inj (hnodup.get_inj_iff.mp hget))
    simp [marks, hname]

/-- **The key columns** are taken in the clause's order, if they are declared, and not taken
yet. -/
theorem takeKeys_eq_ok {cols : List ColDef} {pk names : List Bytes} {builder : TableDef}
    {result : List Bool × TableDef} (hnodup : (cols.map Prod.fst).Nodup) :
    takeKeys cols pk (marks cols names) builder = .ok result ↔
      pk.Nodup ∧ (∀ key ∈ pk, key ∉ names) ∧ ∃ keys : List ColDef, keys.map Prod.fst = pk ∧
        (∀ col ∈ keys, col ∈ cols) ∧ result = (marks cols (names ++ pk), builder.addCols keys) := by
  induction pk generalizing names builder with
  | nil =>
      rw [takeKeys, Except.ok.injEq, List.append_nil]
      constructor
      · rintro rfl
        exact ⟨List.nodup_nil, fun _ h => absurd h List.not_mem_nil, [], rfl,
          fun _ h => absurd h List.not_mem_nil, by rw [addCols_nil]⟩
      · rintro ⟨_, _, keys, hkeys, _, rfl⟩
        rw [List.map_eq_nil_iff.mp hkeys, addCols_nil]
  | cons key pk ih =>
      have hsplit : names ++ key :: pk = names ++ [key] ++ pk := by simp
      rw [takeKeys]
      cases hfind : cols.findIdx? (fun col => col.1 = key) with
      | none =>
          refine ⟨fun h => (by cases h), fun h => ?_⟩
          obtain ⟨_, _, keys, hkeys, hmem, _⟩ := h
          obtain ⟨col, keys, rfl, rfl, _⟩ := List.map_eq_cons_iff.mp hkeys
          obtain ⟨i, hi, _⟩ := findIdx?_of_mem hnodup (hmem col List.mem_cons_self)
          rw [hfind] at hi
          cases hi
      | some i =>
          obtain ⟨hlt, hkey, _⟩ := List.findIdx?_eq_some_iff_getElem.mp hfind
          obtain ⟨col, hcol⟩ : ∃ col, cols[i]? = some col := ⟨_, List.getElem?_eq_getElem hlt⟩
          obtain rfl : col.1 = key := by
            rw [List.getElem?_eq_getElem hlt, Option.some.injEq] at hcol
            rw [← hcol]
            exact of_decide_eq_true hkey
          have htaken : (marks cols names).getD i false = decide (col.1 ∈ names) := by
            rw [marks, List.getD_eq_getElem?_getD, List.getElem?_map, hcol]
            rfl
          have hget : cols.getD i ([], .error) = col := by
            rw [List.getD_eq_getElem?_getD, hcol]
            rfl
          dsimp only
          rw [bind_eq_ok, htaken, hget, marks_set hnodup hcol]
          simp only [require_eq_ok, decide_eq_false_iff_not, ih, exists_const]
          constructor
          · rintro ⟨hnew, hpk, hnames, keys, rfl, hmem, rfl⟩
            refine ⟨List.nodup_cons.mpr ⟨fun h => hnames _ h (by simp), hpk⟩,
              List.forall_mem_cons.mpr ⟨hnew, fun key hkey' h => hnames key hkey' (by simp [h])⟩,
              col :: keys, rfl, List.forall_mem_cons.mpr ⟨List.mem_of_getElem? hcol, hmem⟩, ?_⟩
            rw [hsplit, addCols_cons]
          · rintro ⟨hpk, hnames, keys, hkeys, hmem, rfl⟩
            obtain ⟨hnotin, hpk⟩ := List.nodup_cons.mp hpk
            obtain ⟨hnew, hnames⟩ := List.forall_mem_cons.mp hnames
            obtain ⟨c, keys, rfl, hc, rfl⟩ := List.map_eq_cons_iff.mp hkeys
            obtain ⟨hmemc, hrest⟩ := List.forall_mem_cons.mp hmem
            -- two columns of one name are one
            obtain ⟨i', hi', hget'⟩ := findIdx?_of_mem hnodup hmemc
            rw [hc, hfind, Option.some.injEq] at hi'
            rw [← hi', hcol, Option.some.injEq] at hget'
            subst hget'
            refine ⟨hnew, hpk, fun key hkey' h => ?_, keys, rfl,
              hrest, by rw [hsplit, addCols_cons]⟩
            rcases List.mem_append.mp h with h | h
            · exact hnames key hkey' h
            · exact hnotin (List.mem_singleton.mp h ▸ hkey')

/-- **The other columns** follow in their order. -/
theorem addRest_eq (cols : List ColDef) (names : List Bytes) (builder : TableDef) :
    addRest (cols.zip (marks cols names)) builder =
      builder.addCols (cols.filter fun col => col.1 ∉ names) := by
  induction cols generalizing builder with
  | nil => exact (addCols_nil builder).symm
  | cons col cols ih =>
      rw [marks, List.map_cons, List.zip_cons_cons, addRest, ← marks, ih]
      by_cases hcol : col.1 ∈ names
      · rw [List.filter_cons_of_neg (by simpa using hcol), if_pos (decide_eq_true hcol)]
      · rw [List.filter_cons_of_pos (by simpa using hcol), if_neg (by simpa using hcol), addCols_cons]

/-- **What `build_table_def` builds**, and when. -/
theorem buildTableDef_eq_ok {name : Bytes} {cols : List ColDef} {pk : List Bytes}
    {tdef : TableDef} :
    buildTableDef name cols pk = .ok tdef ↔ (cols.map Prod.fst).Nodup ∧ pk.Nodup ∧
      ∃ keys : List ColDef, keys.map Prod.fst = pk ∧ (∀ col ∈ keys, col ∈ cols) ∧
        tdef = (TableDef.addCols { name := name } (keys ++ cols.filter fun col => col.1 ∉ pk)).setPkeys
          (castInt pk.length) := by
  have hnone : List.replicate cols.length false = marks cols [] := by
    rw [marks, List.eq_replicate_iff.mpr ⟨List.length_map _, fun b hb => ?_⟩]
    obtain ⟨col, _, rfl⟩ := List.mem_map.mp hb
    rfl
  rw [buildTableDef, bind_eq_ok, hnone]
  constructor
  · rintro ⟨_, hdistinct, h⟩
    have hnodup := checkDistinct_eq_ok.mp hdistinct
    rw [bind_eq_ok] at h
    obtain ⟨result, hkeys, h⟩ := h
    obtain ⟨hpk, _, keys, hnames, hmem, rfl⟩ := (takeKeys_eq_ok hnodup).mp hkeys
    obtain rfl := Except.ok.inj h
    rw [List.nil_append, addRest_eq, ← addCols_append]
    exact ⟨hnodup, hpk, keys, hnames, hmem, rfl⟩
  · rintro ⟨hnodup, hpk, keys, hnames, hmem, rfl⟩
    refine ⟨(), checkDistinct_eq_ok.mpr hnodup, bind_eq_ok.mpr ⟨_, (takeKeys_eq_ok hnodup).mpr
      ⟨hpk, fun _ _ h => absurd h List.not_mem_nil, keys, hnames, hmem, rfl⟩, ?_⟩⟩
    dsimp only
    rw [List.nil_append, addRest_eq, ← addCols_append]
    rfl

/-! ## None lost, none twice -/

/-- The key columns and the others are all the columns. -/
theorem perm_of_keys {cols keys : List ColDef} (hnodup : (cols.map Prod.fst).Nodup)
    (hpk : (keys.map Prod.fst).Nodup) (hmem : ∀ col ∈ keys, col ∈ cols) :
    (keys ++ cols.filter fun col => col.1 ∉ keys.map Prod.fst).Perm cols := by
  have hkeys : keys.Perm (cols.filter fun col => col.1 ∈ keys.map Prod.fst) := by
    refine (List.perm_ext_iff_of_nodup hpk.of_map (hnodup.of_map.filter _)).mpr fun col => ?_
    rw [List.mem_filter, decide_eq_true_iff]
    constructor
    · exact fun h => ⟨hmem col h, List.mem_map_of_mem h⟩
    · rintro ⟨hcol, hname⟩
      obtain ⟨key, hkey, he⟩ := List.mem_map.mp hname
      rwa [← List.inj_on_of_nodup_map hnodup (hmem key hkey) hcol he]
  refine (hkeys.append_right _).trans ?_
  have hsplit := List.filter_append_perm (fun col : ColDef => decide (col.1 ∈ keys.map Prod.fst)) cols
  simpa using hsplit

/-- Names of columns are the names of some columns. -/
theorem exists_keys {cols : List ColDef} {pk : List Bytes}
    (h : ∀ key ∈ pk, key ∈ cols.map Prod.fst) :
    ∃ keys : List ColDef, keys.map Prod.fst = pk ∧ ∀ col ∈ keys, col ∈ cols := by
  induction pk with
  | nil => exact ⟨[], rfl, fun _ h => absurd h List.not_mem_nil⟩
  | cons key pk ih =>
      obtain ⟨hkey, hpk⟩ := List.forall_mem_cons.mp h
      obtain ⟨col, hcol, rfl⟩ := List.mem_map.mp hkey
      obtain ⟨keys, rfl, hmem⟩ := ih hpk
      exact ⟨col :: keys, rfl, List.forall_mem_cons.mpr ⟨hcol, hmem⟩⟩

/-! ## Declarations -/

/-- The column a declaration declares. -/
def Declares (decl : Bytes × Bytes) (col : ColDef) : Prop :=
  col.1 = decl.1 ∧ valueTypeFromName decl.2 = some col.2

/-- Columns of known types are all declared, in their order. -/
theorem colDefs_of_known {decls : List (Bytes × Bytes)}
    (h : ∀ decl ∈ decls, valueTypeFromName decl.2 ≠ none) :
    ∃ cols, colDefs decls = .ok cols ∧ List.Forall₂ Declares decls cols := by
  induction decls with
  | nil => exact ⟨[], rfl, .nil⟩
  | cons decl decls ih =>
      obtain ⟨hdecl, hdecls⟩ := List.forall_mem_cons.mp h
      obtain ⟨type, htype⟩ := Option.ne_none_iff_exists'.mp hdecl
      obtain ⟨cols, hcols, hdeclared⟩ := ih hdecls
      have hcol : colDef decl.1 decl.2 = .ok (decl.1, type) := by rw [colDef, htype]
      exact ⟨(decl.1, type) :: cols, by rw [colDefs, hcol, ok_bind, hcols, ok_bind]; rfl,
        .cons ⟨rfl, htype⟩ hdeclared⟩

theorem declares_of_colDefs {decls : List (Bytes × Bytes)} {cols : List ColDef}
    (h : colDefs decls = .ok cols) : List.Forall₂ Declares decls cols := by
  induction decls generalizing cols with
  | nil =>
      obtain rfl := Except.ok.inj h
      exact .nil
  | cons decl decls ih =>
      obtain ⟨col, hcol, h⟩ := bind_eq_ok.mp h
      obtain ⟨rest, hrest, h⟩ := bind_eq_ok.mp h
      obtain rfl := Except.ok.inj h
      refine .cons ?_ (ih hrest)
      unfold colDef at hcol
      split at hcol
      · rename_i type htype
        obtain rfl := Except.ok.inj hcol
        exact ⟨rfl, htype⟩
      · cases hcol

theorem names_of_declares {decls : List (Bytes × Bytes)} {cols : List ColDef}
    (h : List.Forall₂ Declares decls cols) : cols.map Prod.fst = decls.map Prod.fst := by
  induction h with
  | nil => rfl
  | cons hcol _ ih => rw [List.map_cons, List.map_cons, hcol.1, ih]

/-! ## Statements -/

/-- One item, and more of them after commas. -/
def commaList : List (List Token) → List Token
  | [] => []
  | item :: items => item ++ items.flatMap fun item => .comma :: item

def declTokens (decl : Bytes × Bytes) : List Token := [.ident decl.1, .ident decl.2]

def keyTokens (key : Bytes) : List Token := [.ident key]

/-- The sentence of `create_stmt`. -/
def createTokens (name : Bytes) (decls : List (Bytes × Bytes)) (pk : List Bytes) : List Token :=
  [.create, .table, .ident name, .lparen] ++ commaList (decls.map declTokens) ++
    [.comma, .primary, .key, .lparen] ++ commaList (pk.map keyTokens) ++ [.rparen, .rparen]

/-- A CREATE TABLE the parser takes. The scanner is handed a text whose length is an `int`. -/
structure CreateStatement (sql name : Bytes) (decls : List (Bytes × Bytes)) (pk : List Bytes) :
    Prop where
  size : sql.length < 2 ^ 31
  decls_ne : decls ≠ []
  pk_ne : pk ≠ []
  parsed : ∃ symbols semi, lex sql = .ok symbols ∧ (semi = [] ∨ semi = [.semi]) ∧
    symbols.map Symbol.token = createTokens name decls pk ++ semi ++ [.endOfInput]

section

variable {α : Type} {f : α → List Token} {xs : List α}

theorem mem_commaList {x : α} {token : Token} (hx : x ∈ xs) (htoken : token ∈ f x) :
    token ∈ commaList (xs.map f) := by
  cases xs with
  | nil => exact absurd hx List.not_mem_nil
  | cons first xs =>
      rw [List.map_cons, commaList, List.mem_append, List.mem_flatMap]
      rcases List.mem_cons.mp hx with rfl | hx
      · exact Or.inl htoken
      · exact Or.inr ⟨f x, List.mem_map_of_mem hx, List.mem_cons_of_mem _ htoken⟩

theorem length_commaList (h : ∀ x, f x ≠ []) : xs.length ≤ (commaList (xs.map f)).length := by
  cases xs with
  | nil => exact Nat.zero_le _
  | cons first xs =>
      have hfirst : 0 < (f first).length := List.length_pos_iff.mpr (h first)
      have hrest : xs.length ≤ ((xs.map f).flatMap fun item => Token.comma :: item).length := by
        induction xs with
        | nil => exact Nat.zero_le _
        | cons x xs ih =>
            rw [List.map_cons, List.flatMap_cons, List.length_append, List.length_cons,
              List.length_cons]
            omega
      rw [List.map_cons, commaList, List.length_append, List.length_cons]
      omega

end

/-- **What a statement's text promises** of its names: they are identifiers, and too few to
overflow an `int`. -/
theorem CreateStatement.names {sql name : Bytes} {decls : List (Bytes × Bytes)} {pk : List Bytes}
    (h : CreateStatement sql name decls pk) : Ident name ∧ (∀ decl ∈ decls, Ident decl.1) ∧
      decls.length < 2 ^ 31 ∧ pk.length < 2 ^ 31 := by
  obtain ⟨symbols, semi, hlex, _, hsymbols⟩ := h.parsed
  obtain ⟨tokens, htokens, hlen, hmade⟩ := lex_spec hlex
  have heq : tokens = createTokens name decls pk ++ semi :=
    List.append_cancel_right (htokens.symm.trans hsymbols)
  subst heq
  have hident : ∀ {n : Bytes}, .ident n ∈ createTokens name decls pk → Ident n := by
    intro n hn
    obtain ⟨text, hmade⟩ := hmade _ (List.mem_append_left _ hn)
    exact hmade.ident
  have hsize := h.size
  have hdecls : decls.length ≤ (commaList (decls.map declTokens)).length :=
    length_commaList fun decl => List.cons_ne_nil _ _
  have hpk : pk.length ≤ (commaList (pk.map keyTokens)).length :=
    length_commaList fun key => List.cons_ne_nil _ _
  simp only [List.length_append, createTokens] at hlen
  refine ⟨hident (by simp [createTokens]), fun decl hdecl => hident ?_, by omega, by omega⟩
  have hmem : Token.ident decl.1 ∈ commaList (decls.map declTokens) :=
    mem_commaList hdecl List.mem_cons_self
  simp [createTokens, hmem]

/-! ## The definition that is built -/

section

variable {name : Bytes} {cols : List ColDef} {pk : List Bytes} {tdef : TableDef}

theorem buildTableDef_checked (hname : Ident name) (hpk : pk ≠ []) (hclause : pk.length < 2 ^ 31)
    (h : buildTableDef name cols pk = .ok tdef) : tdef.Checked := by
  obtain ⟨hnodup, hdistinct, keys, hkeys, hmem, rfl⟩ := buildTableDef_eq_ok.mp h
  have hpos : 0 < pk.length := List.length_pos_iff.mpr hpk
  refine ⟨hname.ne_nil, ?_, ?_, ?_, fun index hindex => absurd hindex List.not_mem_nil⟩
  · simp [TableDef.addCols, TableDef.setPkeys]
  · rw [TableDef.setPkeys, castInt_of_lt hclause]
    exact Int.natCast_pos.mpr hpos
  · rw [TableDef.npkeys, TableDef.setPkeys, castInt_of_lt hclause, Int.toNat_natCast, ← hkeys]
    simp [TableDef.addCols]

theorem buildTableDef_tidy (hname : Ident name) (hcols : ∀ col ∈ cols, Ident col.1)
    (h : buildTableDef name cols pk = .ok tdef) : tdef.Tidy := by
  obtain ⟨_, _, keys, _, hmem, rfl⟩ := buildTableDef_eq_ok.mp h
  refine ⟨fun hnl => ?_, fun col hcol => ?_⟩
  · have hspace : isSpace newline = false := hname.isSpace newline hnl
    cases hspace
  · obtain ⟨c, hc, rfl⟩ : ∃ c ∈ cols, c.1 = col := by
      rw [TableDef.setPkeys, TableDef.addCols, List.nil_append] at hcol
      obtain ⟨c, hc, rfl⟩ := List.mem_map.mp hcol
      rcases List.mem_append.mp hc with hc | hc
      · exact ⟨c, hmem c hc, rfl⟩
      · exact ⟨c, (List.mem_filter.mp hc).1, rfl⟩
    exact ⟨(hcols c hc).ne_nil, (hcols c hc).isSpace⟩

/-- What the statement says of its table's columns. -/
structure Schema (name : Bytes) (cols : List ColDef) (pk : List Bytes)
    (tdef : TableDef) : Prop where
  name : tdef.name = name
  types : tdef.cols.length = tdef.types.length
  /-- The key columns in the clause's order, then the others in the order of declaration. -/
  columns : ∃ keys : List ColDef, keys.map Prod.fst = pk ∧
    tdef.cols.zip tdef.types = keys ++ cols.filter fun col => col.1 ∉ pk
  /-- Every declared column with its type, and no other. -/
  perm : (tdef.cols.zip tdef.types).Perm cols
  pkeys : tdef.pkeys = pk.length

theorem zip_addCols (name : Bytes) (cols : List ColDef) :
    (TableDef.addCols { name := name } cols).cols.zip
      (TableDef.addCols { name := name } cols).types = cols := by
  rw [TableDef.addCols, List.nil_append, List.nil_append]
  exact (List.zip_of_prod rfl rfl).symm

/-- **The definition is the statement's.** -/
theorem buildTableDef_schema (hclause : pk.length < 2 ^ 31)
    (h : buildTableDef name cols pk = .ok tdef) : Schema name cols pk tdef := by
  obtain ⟨hnodup, hdistinct, keys, rfl, hmem, rfl⟩ := buildTableDef_eq_ok.mp h
  have hzip := zip_addCols name (keys ++ cols.filter fun col => col.1 ∉ keys.map Prod.fst)
  refine ⟨rfl, by simp [TableDef.addCols, TableDef.setPkeys], ⟨keys, rfl, hzip⟩, ?_,
    by rw [TableDef.setPkeys, castInt_of_lt hclause]⟩
  exact (List.Perm.of_eq hzip).trans (perm_of_keys hnodup hdistinct hmem)

/-- With any number assigned it reads back from its text. -/
theorem buildTableDef_reads_back (hname : Ident name) (hcols : ∀ col ∈ cols, Ident col.1)
    (hpk : pk ≠ []) (hclause : pk.length < 2 ^ 31) (hsize : cols.length < 2 ^ 64)
    (h : buildTableDef name cols pk = .ok tdef) {p : Nat} (hp : p < 2 ^ 32) :
    decodeTableDef (encodeTableDef { tdef with keyPrefix := p }) =
      some { tdef with keyPrefix := p } := by
  obtain ⟨hne, htypes, hpos, hwidth, hindex⟩ := buildTableDef_checked hname hpk hclause h
  have hschema := buildTableDef_schema hclause h
  have hlen : tdef.cols.length = cols.length := by
    have := hschema.perm.length_eq
    rwa [List.length_zip, ← hschema.types, Nat.min_self] at this
  -- the statement declares no index
  have hempty : tdef.indexes = [] ∧ tdef.indexPrefixes = [] := by
    obtain ⟨_, _, _, _, _, rfl⟩ := buildTableDef_eq_ok.mp h
    exact ⟨rfl, rfl⟩
  obtain ⟨hline, hwords⟩ := buildTableDef_tidy hname hcols h
  refine decodeTableDef_encode ⟨hne, htypes, hpos, hwidth, ?_⟩ ⟨?_, hp, ?_, ?_, ?_, ?_, ?_⟩
    ⟨hline, hwords⟩
  · rw [hempty.1]
    exact fun _ hi => absurd hi List.not_mem_nil
  · rw [hschema.pkeys]
    omega
  · rwa [hlen]
  · rw [hempty.1]
    decide
  · rw [hempty.1]
    exact fun _ hi => absurd hi List.not_mem_nil
  · rw [hempty.2]
    decide
  · rw [hempty.2]
    exact fun _ hi => absurd hi List.not_mem_nil

end

/-- A definition whose names are the lexer's is as good as the catalog needs. -/
theorem usable_of_declares {name : Bytes} {decls : List (Bytes × Bytes)} {cols : List ColDef}
    {pk : List Bytes} {tdef : TableDef} (hname : Ident name) (hdecls : ∀ decl ∈ decls, Ident decl.1)
    (hdeclared : List.Forall₂ Declares decls cols) (hpk : pk ≠ []) (hsize : decls.length < 2 ^ 64)
    (hclause : pk.length < 2 ^ 31) (h : buildTableDef name cols pk = .ok tdef) :
    Schema name cols pk tdef ∧ tableDefCheck tdef = .ok tdef ∧ ∀ p < 2 ^ 32,
      decodeTableDef (encodeTableDef { tdef with keyPrefix := p }) =
        some { tdef with keyPrefix := p } := by
  have hident : ∀ col ∈ cols, Ident col.1 := by
    intro col hcol
    have hmem : col.1 ∈ decls.map Prod.fst :=
      names_of_declares hdeclared ▸ List.mem_map_of_mem hcol
    obtain ⟨decl, hdecl, he⟩ := List.mem_map.mp hmem
    exact he ▸ hdecls decl hdecl
  exact ⟨buildTableDef_schema hclause h,
    tableDefCheck_of_checked (buildTableDef_checked hname hpk hclause h), fun p hp =>
      buildTableDef_reads_back hname hident hpk hclause (hdeclared.length_eq ▸ hsize) h hp⟩

/-- **Every CREATE TABLE that is parsed yields a usable schema**, whatever it declares. -/
theorem CreateStatement.usable {sql name : Bytes} {decls : List (Bytes × Bytes)}
    {cols : List ColDef} {pk : List Bytes} {tdef : TableDef}
    (h : CreateStatement sql name decls pk) (hcols : colDefs decls = .ok cols)
    (hbuild : buildTableDef name cols pk = .ok tdef) :
    Schema name cols pk tdef ∧ tableDefCheck tdef = .ok tdef ∧ ∀ p < 2 ^ 32,
      decodeTableDef (encodeTableDef { tdef with keyPrefix := p }) =
        some { tdef with keyPrefix := p } := by
  obtain ⟨hname, hdecls, hsize, hclause⟩ := h.names
  exact usable_of_declares hname hdecls (declares_of_colDefs hcols) h.pk_ne
    (hsize.trans (by decide)) hclause hbuild

/-- **CREATE TABLE yields a usable schema.** The statement is accepted exactly when its
column names are distinct and its key columns declared and distinct; the definition is then
what the statement says, passes the catalog's check as it is and, with whatever number the
catalog gives it, reads back from its text. The lengths are those of any statement's lists. -/
theorem create_table_usable {name : Bytes} {decls : List (Bytes × Bytes)} {pk : List Bytes}
    (hname : Ident name) (hdecls : ∀ decl ∈ decls, Ident decl.1)
    (hknown : ∀ decl ∈ decls, valueTypeFromName decl.2 ≠ none) (hpk : pk ≠ [])
    (hsize : decls.length < 2 ^ 64) (hclause : pk.length < 2 ^ 31) :
    ∃ cols, colDefs decls = .ok cols ∧ List.Forall₂ Declares decls cols ∧
      ((∃ tdef, buildTableDef name cols pk = .ok tdef) ↔
        (decls.map Prod.fst).Nodup ∧ pk.Nodup ∧ ∀ key ∈ pk, key ∈ decls.map Prod.fst) ∧
      ∀ tdef, buildTableDef name cols pk = .ok tdef → Schema name cols pk tdef ∧
        tableDefCheck tdef = .ok tdef ∧ ∀ p < 2 ^ 32,
          decodeTableDef (encodeTableDef { tdef with keyPrefix := p }) =
            some { tdef with keyPrefix := p } := by
  obtain ⟨cols, hcols, hdeclared⟩ := colDefs_of_known hknown
  refine ⟨cols, hcols, hdeclared, ?_, fun tdef h =>
    usable_of_declares hname hdecls hdeclared hpk hsize hclause h⟩
  rw [← names_of_declares hdeclared]
  constructor
  · rintro ⟨tdef, h⟩
    obtain ⟨hnodup, hdistinct, keys, rfl, hmem, _⟩ := buildTableDef_eq_ok.mp h
    refine ⟨hnodup, hdistinct, fun key hkey => ?_⟩
    obtain ⟨col, hcol, rfl⟩ := List.mem_map.mp hkey
    exact List.mem_map_of_mem (hmem col hcol)
  · rintro ⟨hnodup, hdistinct, hdefined⟩
    obtain ⟨keys, hkeys, hmem⟩ := exists_keys hdefined
    exact ⟨_, buildTableDef_eq_ok.mpr ⟨hnodup, hdistinct, keys, hkeys, hmem, rfl⟩⟩

/-- The key declared last comes first. -/
theorem users_table_usable : ∃ tdef,
    buildTableDef (.ofString "users") [(.ofString "name", .bytes), (.ofString "id", .int64)]
      [.ofString "id"] = .ok tdef ∧
    tdef.cols = [.ofString "id", .ofString "name"] ∧ tdef.types = [.int64, .bytes] ∧
    tableDefCheck tdef = .ok tdef ∧ decodeTableDef (encodeTableDef { tdef with keyPrefix := 100 }) =
      some { tdef with keyPrefix := 100 } := by
  have hdecls : ∀ decl ∈ [(Bytes.ofString "name", Bytes.ofString "STR"),
      (.ofString "id", .ofString "INT64")], Ident decl.1 :=
    List.forall_mem_cons.mpr ⟨ident_of_lower (by decide) (by decide),
      List.forall_mem_singleton.mpr (ident_of_lower (by decide) (by decide))⟩
  obtain ⟨cols, hcols, _, hiff, h⟩ := create_table_usable
    (ident_of_lower (by decide) (by decide) : Ident (.ofString "users")) hdecls (by decide)
    (List.cons_ne_nil (Bytes.ofString "id") []) (by decide) (by decide)
  obtain rfl : [(.ofString "name", .bytes), (.ofString "id", .int64)] = cols := Except.ok.inj hcols
  obtain ⟨tdef, htdef⟩ := hiff.mpr ⟨by decide, by decide, by decide⟩
  obtain ⟨_, hcheck, hreads⟩ := h tdef htdef
  obtain rfl := Except.ok.inj htdef
  exact ⟨_, htdef, rfl, rfl, hcheck, hreads 100 (by decide)⟩

end SqlDb
