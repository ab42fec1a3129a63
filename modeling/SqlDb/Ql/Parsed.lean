import SqlDb.Ql.Print

/-!
# What a parsed statement is

Whatever text the parser takes, the statement it builds is well formed: its names are names, a
number in it is not negative, a tuple has two parts at least, the lists that run in parallel are
of one length, and a table's definition has its key's columns in front. As every such statement
can be written, these are the statements there are.
-/

namespace SqlDb

open Parsing

theorem Layout.spelled {sql : Bytes} {ts : List Token} (h : Layout sql ts) : Spelled ts := by
  induction h with
  | done => exact spelled_nil
  | comment => exact spelled_nil
  | token _ hw _ _ ih => exact spelled_cons.mpr ⟨⟨_, hw⟩, ih⟩

/-! ## Expressions -/

theorem binop_writable {op : Token} {level : Nat} {assoc : Precedence.Assoc} {lhs rhs : QLNode}
    (hop : binaryLevel op = some (level, assoc)) (hl : lhs.Writable) (hr : rhs.Writable) :
    (binop op lhs rhs).Writable := by
  cases op with
  | or => exact .logic .or hl hr
  | and => exact .logic .and hl hr
  | eq => exact .cmp .eq hl hr
  | ne => exact .cmp .ne hl hr
  | lt => exact .cmp .lt hl hr
  | le => exact .cmp .le hl hr
  | gt => exact .cmp .gt hl hr
  | ge => exact .cmp .ge hl hr
  | plus => exact .arith .add hl hr
  | minus => exact .arith .sub hl hr
  | star => exact .arith .mul hl hr
  | slash => exact .arith .div hl hr
  | percent => exact .arith .mod hl hr
  | _ => cases hop

theorem unop_writable {op : Token} {level : Nat} {kid : QLNode} (hop : unaryLevel op = some level)
    (hkid : kid.Writable) : (unop op kid).Writable := by
  cases op with
  | not => exact .not hkid
  | minus => exact .neg hkid
  | _ => cases hop

/-- **What is read is writable**, by the rule that reads it. -/
theorem reads_writable {p : Precedence.Grammar.Phrase Token QLNode} (h : exprGrammar.Reads p)
    (hspelled : Spelled p.tokens) : p.value.Writable := by
  induction h with
  | @atom t n hatom =>
      obtain ⟨ht, _⟩ := spelled_cons.mp hspelled
      cases t with
      | num v =>
          obtain rfl := Option.some.inj hatom
          exact .int64 (spelled_num ht)
      | str text =>
          obtain rfl := Option.some.inj hatom
          exact .str text
      | ident name =>
          obtain rfl := Option.some.inj hatom
          exact .sym (spelled_ident ht)
      | _ => cases hatom
  | group _ ih =>
      exact ih fun t ht => hspelled t (by simp [ht])
  | @tuple p more _ hne _ ihp ihmore =>
      refine .tup ?_ fun kid hkid => ?_
      · have hpos := List.length_pos_iff.mpr hne
        simp only [List.length_cons, List.length_map]
        omega
      · rcases List.mem_cons.mp hkid with rfl | hkid
        · exact ihp fun t ht => hspelled t (by simp [ht])
        · obtain ⟨q, hq, rfl⟩ := List.mem_map.mp hkid
          refine ihmore q hq fun t ht => hspelled t ?_
          have hmem : t ∈ more.flatMap fun q => exprGrammar.comma :: q.tokens :=
            List.mem_flatMap.mpr ⟨q, hq, List.mem_cons_of_mem _ ht⟩
          simp [hmem]
  | unary hop _ _ ih => exact unop_writable hop (ih (spelled_cons.mp hspelled).2)
  | binary hop _ _ _ _ ihp ihq =>
      obtain ⟨hp, hq⟩ := spelled_append.mp hspelled
      exact binop_writable hop (ihp hp) (ihq (spelled_cons.mp hq).2)

theorem expr_writable {ts : List Token} {n : QLNode} (h : Grammar.Expr ts n) (hts : Spelled ts) :
    n.Writable := by
  obtain ⟨p, hp, rfl, rfl⟩ := h
  exact reads_writable hp hts

/-! ## Clauses -/

theorem ident_name {ts : List Token} {name : Bytes} (h : Grammar.Ident ts name) (hts : Spelled ts) :
    Name name := by
  cases h
  exact spelled_ident (spelled_cons.mp hts).1

/-- The items of a list that has one. -/
theorem items_invariant {α : Type} {R : Language Token α} {ts : List Token} {as : List α}
    (h : Grammar.Items R ts as) (hts : Spelled ts) {P : α → Prop}
    (hitem : ∀ {us a}, R us a → Spelled us → P a) : as ≠ [] ∧ ∀ a ∈ as, P a := by
  refine Listed.invariant h hts (I := fun as => as ≠ [] ∧ ∀ a ∈ as, P a) (fun hR hus => ?_)
    fun ⟨_, has⟩ hR hus => ?_
  · exact ⟨List.cons_ne_nil _ _, List.forall_mem_singleton.mpr (hitem hR hus)⟩
  · exact ⟨by simp, List.forall_mem_append.mpr ⟨has, List.forall_mem_singleton.mpr (hitem hR hus)⟩⟩

theorem columns_names {ts : List Token} {names : List Bytes} (h : Grammar.ColList ts names)
    (hts : Spelled ts) : names ≠ [] ∧ ∀ name ∈ names, Name name :=
  items_invariant h hts ident_name

theorem columns_length {ts : List Token} {names : List Bytes} (h : Grammar.ColList ts names) :
    names.length ≤ ts.length := by
  induction h with
  | one hident => exact Nat.le_of_eq (by cases hident; rfl)
  | more _ _ ih =>
      simp only [List.length_append, List.length_cons, List.length_nil]
      omega

theorem scan_wellFormed {table : Bytes} {fs ls : List Token} {filter : QLNode}
    {range : Int64 × Int64} (htable : ∃ w, Spells w (.ident table))
    (hfilter : Grammar.FilterClause fs filter) (hfs : Spelled fs)
    (hrange : Grammar.LimitClause ls range) (hls : Spelled ls) :
    (QLScan.of table filter range).WellFormed := by
  refine ⟨spelled_ident htable, rfl, rfl, ?_, ?_⟩
  · cases hfilter with
    | empty => exact .inl rfl
    | mk _ hexpr => exact .inr (expr_writable hexpr (spelled_cons.mp hfs).2)
  · cases hrange with
    | empty => exact .inl ⟨rfl, rfl⟩
    | @count n =>
        have hn : 0 ≤ n.toInt := spelled_num (hls _ (by simp))
        have hzero : 0 ≤ (0 : Int64).toInt := by decide
        exact .inr ⟨hzero, hn⟩
    | @offset k n =>
        have hk : 0 ≤ k.toInt := spelled_num (hls _ (by simp))
        have hn : 0 ≤ n.toInt := spelled_num (hls _ (by simp))
        exact .inr ⟨hk, hn⟩

/-- A name that is made from an item's place. -/
theorem name_col (place : Nat) : Name (.ofString "col" ++ decimal place) := by
  have hletters : ∀ c ∈ Bytes.ofString "col", c ∈ letters := forall_mem_of_all (by decide)
  have hkey : ∀ entry ∈ fixedTokens, ¬ Bytes.ofString "col" <+: Bytes.ofString entry.1 := by decide
  have hlower : (Bytes.ofString "col").map toLower = Bytes.ofString "col" := by decide
  have hcol : Bytes.ofString "col" = 99 :: [111, 108] := by decide
  constructor
  · rw [hcol] at hletters ⊢
    refine ident_iff.mpr ⟨_, _, rfl, hletters _ List.mem_cons_self, fun d hd => ?_⟩
    rcases List.mem_append.mp hd with hd | hd
    · exact List.mem_append_left _ (hletters d (List.mem_cons_of_mem _ hd))
    · obtain ⟨k, hk, rfl⟩ := mem_decimal hd
      have hdigits : ∀ k < 10, digit k ∈ digits := by decide
      exact List.mem_append_right _ (hdigits k hk)
  · intro entry hentry he
    rw [List.map_append, hlower] at he
    exact hkey entry hentry ⟨_, he⟩

/-- **An item that is added has a name.** -/
theorem item_wellFormed {ts : List Token} {item : NamedExpr} (h : Grammar.SelectItem ts item)
    (hts : Spelled ts) (place : Nat) : ItemWellFormed (itemName place item, item.2) := by
  cases h with
  | star => exact .inl rfl
  | @expr _ n hexpr =>
      have hn := expr_writable hexpr hts
      refine .inr ⟨?_, hn⟩
      cases hn with
      | sym hname => exact hname
      | _ => exact name_col place
  | @named us n name hexpr =>
      obtain ⟨hus, hname⟩ := spelled_append.mp hts
      have hname : Name name := spelled_ident (spelled_cons.mp (spelled_cons.mp hname).2).1
      refine .inr ⟨?_, expr_writable hexpr hus⟩
      rw [itemName, if_neg hname.ident.ne_nil]
      exact hname

/-! ## Statements -/

/-- What a list of names and what stands beside them keep in step. -/
structure Parallel (I : Bytes × QLNode → Prop) (names : List Bytes)
    (values : List QLNode) : Prop where
  parallel : names.length = values.length
  nonempty : names ≠ []
  items : ∀ item ∈ names.zip values, I item

theorem Parallel.concat {I : Bytes × QLNode → Prop} {names : List Bytes} {values : List QLNode}
    (h : names.length = values.length) (hitems : ∀ item ∈ names.zip values, I item)
    {name : Bytes} {value : QLNode} (hitem : I (name, value)) :
    Parallel I (names ++ [name]) (values ++ [value]) := by
  refine ⟨by simp [h], by simp, ?_⟩
  rw [List.zip_append h]
  exact List.forall_mem_append.mpr ⟨hitems, List.forall_mem_singleton.mpr hitem⟩

theorem selectList_parallel {ts : List Token} {sel : QLSelect} (h : Grammar.SelectList ts sel)
    (hts : Spelled ts) : Parallel ItemWellFormed sel.names sel.output := by
  refine Listed.invariant h hts (I := fun sel => Parallel ItemWellFormed sel.names sel.output)
    (fun hitem hus => ?_) fun hsel hitem hus => ?_
  · exact .concat rfl (fun _ h => absurd h List.not_mem_nil) (item_wellFormed hitem hus _)
  · exact .concat hsel.parallel hsel.items (item_wellFormed hitem hus _)

theorem setList_parallel {ts : List Token} {stmt : QLUpdate} (h : Grammar.SetList ts stmt)
    (hts : Spelled ts) :
    Parallel (fun item => Name item.1 ∧ item.2.Writable) stmt.names stmt.values := by
  have hitem : ∀ {us item}, Grammar.Assignment us item → Spelled us →
      Name item.1 ∧ item.2.Writable := by
    rintro us item ⟨hexpr⟩ hus
    obtain ⟨hname, hus⟩ := spelled_cons.mp hus
    exact ⟨spelled_ident hname, expr_writable hexpr (spelled_cons.mp hus).2⟩
  refine Listed.invariant h hts
    (I := fun stmt => Parallel (fun item => Name item.1 ∧ item.2.Writable) stmt.names stmt.values)
    (fun h hus => ?_) fun hstmt h hus => ?_
  · exact .concat rfl (fun _ h => absurd h List.not_mem_nil) (hitem h hus)
  · exact .concat hstmt.parallel hstmt.items (hitem h hus)

/-- **The definition of a parsed CREATE TABLE.** -/
theorem buildTableDef_wellFormed {name : Bytes} {cols : List ColDef} {pk : List Bytes}
    {tdef : TableDef}
    (hname : Name name) (hcols : ∀ col ∈ cols, Name col.1 ∧ col.2 ≠ .error) (hpk : pk ≠ [])
    (hclause : pk.length < 2 ^ 31) (h : buildTableDef name cols pk = .ok tdef) :
    QLCreateTable.WellFormed ⟨tdef⟩ := by
  have hschema := buildTableDef_schema hclause h
  obtain ⟨hnodup, hdistinct, keys, hkeys, hmem, rfl⟩ := buildTableDef_eq_ok.mp h
  subst hkeys
  have hbuilt : ∀ col ∈ keys ++ cols.filter fun col => col.1 ∉ keys.map Prod.fst,
      Name col.1 ∧ col.2 ≠ .error := by
    refine List.forall_mem_append.mpr ⟨fun col hcol => hcols col (hmem col hcol),
      fun col hcol => ?_⟩
    exact hcols col (List.mem_filter.mp hcol).1
  refine ⟨hname, hschema.types, fun col hcol => ?_, ?_, fun type htype => ?_, ?_, rfl, rfl, rfl⟩
  · obtain ⟨c, hc, rfl⟩ := List.mem_map.mp hcol
    exact (hbuilt c hc).1
  · exact ((perm_of_keys hnodup hdistinct hmem).map Prod.fst).nodup_iff.mpr hnodup
  · obtain ⟨c, hc, rfl⟩ := List.mem_map.mp htype
    exact (hbuilt c hc).2
  · have hpos := List.length_pos_iff.mpr hpk
    rw [hschema.pkeys]
    simp only [TableDef.setPkeys, TableDef.addCols, List.length_map, List.length_append,
      List.nil_append] at hpos ⊢
    omega

theorem colDef_eq_ok {name type : Bytes} {col : ColDef} (h : colDef name type = .ok col) :
    col.1 = name ∧ col.2 ≠ .error := by
  have hknown : valueTypeFromName type ≠ some .error := by
    unfold valueTypeFromName
    dsimp only
    split
    · exact fun he => by cases he
    · split <;> exact fun he => by cases he
  unfold colDef at h
  split at h
  · rename_i t ht
    obtain rfl := Except.ok.inj h
    exact ⟨rfl, fun he => hknown (he ▸ ht)⟩
  · cases h

theorem create_wellFormed {ts : List Token} {stmt : QLCreateTable} (h : Grammar.CreateStmt ts stmt)
    (hts : Spelled ts) (hsize : ts.length < 2 ^ 31) : stmt.WellFormed := by
  obtain ⟨hcols, hkeys, hbuild⟩ := h
  cases hkeys with
  | mk hkeys =>
      simp only [spelled_append, spelled_cons] at hts
      simp only [List.length_append, List.length_cons] at hsize
      obtain ⟨⟨⟨_, _, hname, _, hds⟩, ⟨_, ⟨_, _, _, hks⟩, _⟩⟩, _⟩ := hts
      have hdecls := items_invariant hcols hds (P := fun col => Name col.1 ∧ col.2 ≠ .error)
        fun hdecl hus => by
          cases hdecl with
          | mk hcol =>
              obtain ⟨hname, htype⟩ := colDef_eq_ok hcol
              exact ⟨hname ▸ spelled_ident (spelled_cons.mp hus).1, htype⟩
      obtain ⟨hpk, _⟩ := columns_names hkeys hks
      have hclause := columns_length hkeys
      exact buildTableDef_wellFormed (spelled_ident hname) hdecls.2 hpk (by omega) hbuild

/-- **What the grammar derives from tokens of a text** is well formed. -/
theorem statement_wellFormed {ts : List Token} {stmt : QLStatement} (h : Grammar.Statement ts stmt)
    (hts : Spelled ts) (hsize : ts.length < 2 ^ 31) : stmt.WellFormed := by
  cases h with
  | create hstmt =>
      rw [List.length_append] at hsize
      exact create_wellFormed hstmt (spelled_append.mp hts).1 (by omega)
  | select hstmt =>
      obtain ⟨hlist, hfilter, hlimit⟩ := hstmt
      simp only [spelled_append, spelled_cons] at hts
      obtain ⟨⟨⟨⟨_, his⟩, _, htable, hfs⟩, hls⟩, _⟩ := hts
      obtain ⟨hparallel, hne, hitems⟩ := selectList_parallel hlist his
      refine ⟨scan_wellFormed htable hfilter hfs hlimit hls, hparallel, fun he => hne ?_, hitems⟩
      exact List.eq_nil_of_length_eq_zero (hparallel.trans (congrArg List.length he))
  | insert hstmt =>
      obtain ⟨hcols, hrows⟩ := hstmt
      simp only [spelled_append, spelled_cons] at hts
      obtain ⟨⟨⟨_, _, htable, _, hcs⟩, _, _, hvs⟩, _⟩ := hts
      obtain ⟨hcolumns, hnames⟩ := columns_names hcols hcs
      have hvalues := items_invariant hrows hvs
        (P := fun row => ∃ n : QLNode, n.Writable ∧ row = rowFromExpr n) fun hrow hus => by
          cases hrow with
          | mk hexpr => exact ⟨_, expr_writable hexpr hus, rfl⟩
      exact ⟨spelled_ident htable, rfl, hcolumns, hnames, hvalues.1, hvalues.2⟩
  | update hstmt =>
      obtain ⟨hlist, hfilter, hlimit⟩ := hstmt
      simp only [spelled_append, spelled_cons] at hts
      obtain ⟨⟨⟨⟨_, htable, _, hss⟩, hfs⟩, hls⟩, _⟩ := hts
      obtain ⟨hparallel, hne, hitems⟩ := setList_parallel hlist hss
      exact ⟨scan_wellFormed htable hfilter hfs hlimit hls, hparallel, hne, hitems⟩
  | delete hstmt =>
      obtain ⟨hfilter, hlimit⟩ := hstmt
      simp only [spelled_append, spelled_cons] at hts
      obtain ⟨⟨⟨_, _, htable, hfs⟩, hls⟩, _⟩ := hts
      exact scan_wellFormed htable hfilter hfs hlimit hls

/-! ## Texts -/

theorem Layout.length_le {sql : Bytes} {ts : List Token} (h : Layout sql ts) :
    ts.length ≤ sql.length := by
  obtain ⟨symbols, hlex, htokens⟩ := lex_eq_ok_iff.mpr h
  obtain ⟨us, hus, hlen, _⟩ := lex_spec hlex
  rwa [← List.append_cancel_right (hus.symm.trans htokens)]

theorem parseStatement_wellFormed {sql : Bytes} {stmt : QLStatement}
    (h : parseStatement sql = some stmt) : stmt.WellFormed := by
  obtain ⟨text, symbols, ts, hscan, hlex, htokens, hstmt⟩ := parseStatement_eq_some.mp h
  have hlayout := lex_eq_ok_iff.mp ⟨symbols, hlex, htokens⟩
  exact statement_wellFormed hstmt hlayout.spelled
    (hlayout.length_le.trans_lt (length_scanned hscan))

/-- **The parser takes the layouts of the grammar's sentences**, and builds what they mean. It goes
by the bytes that the lexer is given, which are the text as long as an `int` can measure it. -/
theorem parseStatement_iff {sql : Bytes} {stmt : QLStatement} :
    (parseStatement sql = some stmt ↔
      ∃ text ts, scanned sql = some text ∧ Layout text ts ∧ Grammar.Statement ts stmt) ∧
    (sql.length < 2 ^ 31 → (parseStatement sql = some stmt ↔
      ∃ ts, Layout sql ts ∧ Grammar.Statement ts stmt)) := by
  have hiff : parseStatement sql = some stmt ↔
      ∃ text ts, scanned sql = some text ∧ Layout text ts ∧ Grammar.Statement ts stmt := by
    rw [parseStatement_eq_some]
    constructor
    · rintro ⟨text, symbols, ts, hscan, hlex, htokens, hstmt⟩
      exact ⟨text, ts, hscan, lex_eq_ok_iff.mp ⟨symbols, hlex, htokens⟩, hstmt⟩
    · rintro ⟨text, ts, hscan, hlayout, hstmt⟩
      obtain ⟨symbols, hlex, htokens⟩ := lex_eq_ok_iff.mpr hlayout
      exact ⟨text, symbols, ts, hscan, hlex, htokens, hstmt⟩
  refine ⟨hiff, fun hsize => hiff.trans ⟨?_, ?_⟩⟩
  · rintro ⟨text, ts, hscan, hlayout, hstmt⟩
    obtain rfl := Option.some.inj ((scanned_of_lt hsize).symm.trans hscan)
    exact ⟨ts, hlayout, hstmt⟩
  · rintro ⟨ts, hlayout, hstmt⟩
    exact ⟨sql, ts, scanned_of_lt hsize, hlayout, hstmt⟩

/-- **The well-formed statements are those that texts spell**, and each is spelled by its own. -/
theorem statement_tfae {stmt : QLStatement} (hsize : stmt.text.length < 2 ^ 31) :
    [stmt.WellFormed, parseStatement stmt.text = some stmt,
      ∃ sql, parseStatement sql = some stmt].TFAE := by
  tfae_have 1 → 2 := fun h => parseStatement_text h hsize
  tfae_have 2 → 3 := fun h => ⟨_, h⟩
  tfae_have 3 → 1 := fun ⟨_, h⟩ => parseStatement_wellFormed h
  tfae_finish

/-- `delete from t where not a = -1 limit 2, 3` -/
theorem statement_tfae_delete :
    let stmt : QLStatement := .delete ⟨{
      table := .ofString "t"
      filter := .not (.cmp .eq (.sym (.ofString "a")) (.neg (.int64 1)))
      offset := 2
      limit := 3 }⟩
    stmt.text.length < 2 ^ 31 ∧ [stmt.WellFormed, parseStatement stmt.text = some stmt,
      ∃ sql, parseStatement sql = some stmt].TFAE :=
  ⟨by decide, statement_tfae (by decide)⟩

end SqlDb
