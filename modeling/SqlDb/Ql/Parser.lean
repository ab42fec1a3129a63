import SqlDb.Ql.Grammar

/-!
# The parser of the query language

The generated parser decides by the next token, and by the precedence of the operators, which
rule a sentence is read by. `parse_statement` fails where a text does not lex, where it is no
sentence, and where an action throws. It parses exactly the grammar's sentences.
-/

namespace SqlDb

open Parsing Outcome

/-! ## The parser -/

namespace QLParser

/-- The token is the next one. -/
def isAhead (t : Token) (ts : List Token) : Bool := ts.head? = some t

def ident : Parser Token Bytes := next fun
  | .ident name => some name
  | _ => none

def num : Parser Token Int64 := next fun
  | .num v => some v
  | _ => none

def expr : Parser Token QLNode := exprGrammar.parse

def items {α : Type} (ahead : List Token → Bool) (item : Parser Token α) : Parser Token (List α) :=
  list .comma ahead item (fun a => [a]) fun as a => as ++ [a]

def colList : Parser Token (List Bytes) := items (fun _ => true) ident

def pkClause : Parser Token (List Bytes) := do
  token .primary
  token .key
  token .lparen
  let pk ← colList
  token .rparen
  return pk

def colDef : Parser Token ColDef :=
  accept (fun decl : Bytes × Bytes => (SqlDb.colDef decl.1 decl.2).toOption) do
    let name ← ident
    let type ← ident
    return (name, type)

/-- Behind the columns a comma comes before the key. -/
def colDefs : Parser Token (List ColDef) := items (fun ts => !isAhead .primary ts) colDef

def createStmt : Parser Token QLCreateTable :=
  accept (fun parts : Bytes × List ColDef × List Bytes =>
      ((buildTableDef parts.1 parts.2.1 parts.2.2).toOption).map .mk) do
    token .create
    token .table
    let name ← ident
    token .lparen
    let cols ← colDefs
    token .comma
    let pk ← pkClause
    token .rparen
    return (name, cols, pk)

def filterClause : Parser Token QLNode :=
  choose (isAhead .where) (do token .where; expr)
    (choose (isAhead .filter) (do token .filter; expr) (pure .uninit))

def limitClause : Parser Token (Int64 × Int64) :=
  choose (isAhead .limit)
    (do
      token .limit
      let n ← num
      choose (isAhead .comma) (do token .comma; let count ← num; return (n, count)) (pure (0, n)))
    (pure (0, -1))

def selectItem : Parser Token NamedExpr :=
  choose (isAhead .star) (do token .star; return (.ofString "*", .star)) do
    let n ← expr
    choose (isAhead .as) (do token .as; let name ← ident; return (name, n)) (pure ([], n))

def selectList : Parser Token QLSelect :=
  list .comma (fun _ => true) selectItem (addSelectItem { scan := { table := [] } }) addSelectItem

def selectStmt : Parser Token QLSelect := do
  token .select
  let sel ← selectList
  token .from
  let table ← ident
  let filter ← filterClause
  let range ← limitClause
  return { sel with scan := .of table filter range }

def valueRow : Parser Token (List QLNode) := do
  let n ← expr
  return rowFromExpr n

def insertStmt : Parser Token QLInsert := do
  token .insert
  token .into
  let table ← ident
  token .lparen
  let names ← colList
  token .rparen
  token .values
  let values ← items (fun _ => true) valueRow
  return { table := table, names := names, values := values }

def assignment : Parser Token NamedExpr := do
  let name ← ident
  token .eq
  let n ← expr
  return (name, n)

def setList : Parser Token QLUpdate :=
  list .comma (fun _ => true) assignment
    (addAssignment { scan := { table := [] }, names := [], values := [] }) addAssignment

def updateStmt : Parser Token QLUpdate := do
  token .update
  let table ← ident
  token .set
  let stmt ← setList
  let filter ← filterClause
  let range ← limitClause
  return { stmt with scan := .of table filter range }

def deleteStmt : Parser Token QLDelete := do
  token .delete
  token .from
  let table ← ident
  let filter ← filterClause
  let range ← limitClause
  return ⟨.of table filter range⟩

def optSemi : Parser Token Unit := choose (isAhead .semi) (do token .semi; return ()) (pure ())

/-- A statement, by its first token. -/
def statement : Parser Token QLStatement := do
  let stmt ←
    choose (isAhead .create) (do let s ← createStmt; return .createTable s) <|
    choose (isAhead .select) (do let s ← selectStmt; return .select s) <|
    choose (isAhead .insert) (do let s ← insertStmt; return .insert s) <|
    choose (isAhead .update) (do let s ← updateStmt; return .update s) <|
    (do let s ← deleteStmt; return .delete s)
  let _ ← optSemi
  return stmt

/-- A statement, and then the end of the input. -/
def parse (ts : List Token) : Option QLStatement :=
  match statement ts with
  | some (stmt, [.endOfInput]) => some stmt
  | _ => none

end QLParser

/-- What `yy_scan_bytes` has the lexer read: as many bytes of the text as the `int` that its length
is cast to. A number below zero ends the program there. -/
def scanned (sql : Bytes) : Option Bytes :=
  if 0 ≤ castInt sql.length then some (sql.take (castInt sql.length).toNat) else none

/-- `parse_statement`, but for the text of an error. -/
def parseStatement (sql : Bytes) : Option QLStatement :=
  match scanned sql with
  | none => none
  | some text =>
      match lex text with
      | .error _ => none
      | .ok symbols => QLParser.parse (symbols.map Symbol.token)

/-- A text that an `int` can measure is read to its end. -/
theorem scanned_of_lt {sql : Bytes} (h : sql.length < 2 ^ 31) : scanned sql = some sql := by
  rw [scanned, castInt_of_lt h, if_pos (Int.natCast_nonneg _), Int.toNat_natCast, List.take_length]

theorem length_scanned {sql text : Bytes} (h : scanned sql = some text) :
    text.length < 2 ^ 31 := by
  unfold scanned at h
  split at h
  · rw [← Option.some.inj h, List.length_take]
    have hlt := castInt_lt sql.length
    omega
  · cases h

/-! ## What it parses -/

namespace QLParser

/-- An expression ends in front of anything but an infix operator. -/
def operators : List Token :=
  [.or, .and, .eq, .ne, .lt, .le, .gt, .ge, .plus, .minus, .star, .slash, .percent]

theorem stops_iff {rest : List Token} : exprGrammar.Stops rest ↔ NotAhead operators rest := by
  refine forall_congr' fun t => forall_congr' fun _ => ?_
  cases t <;> simp [exprGrammar, binaryLevel, operators]

theorem isAhead_cons {t u : Token} {ts : List Token} : isAhead t (u :: ts) = decide (u = t) := by
  simp [isAhead]

theorem isAhead_of_notAhead {t : Token} {cs rest : List Token} (h : NotAhead cs rest)
    (ht : t ∈ cs) :
    isAhead t rest = false := by
  cases rest with
  | nil => rfl
  | cons u rest =>
      rw [isAhead_cons, decide_eq_false_iff_not]
      rintro rfl
      exact h u rfl ht

theorem ident_parses : Parses ident Grammar.Ident fun _ => True :=
  (Parses.next _).congr (fun ts name => by
    constructor
    · rintro ⟨t, ht, rfl⟩
      cases t <;> cases ht
      exact .mk
    · rintro ⟨⟩
      exact ⟨_, rfl, rfl⟩) fun _ h => h

theorem num_parses : Parses num (fun ts v => ts = [.num v]) fun _ => True :=
  (Parses.next _).congr (fun ts v => by
    constructor
    · rintro ⟨t, ht, rfl⟩
      cases t <;> cases ht
      rfl
    · rintro rfl
      exact ⟨_, rfl, rfl⟩) fun _ h => h

theorem expr_parses : Parses expr Grammar.Expr (NotAhead operators) where
  sound h := by
    obtain ⟨p, hp, hvalue, htokens, _⟩ := Precedence.Grammar.parse_eq_some.mp h
    exact ⟨p.tokens, ⟨p, hp, rfl, hvalue⟩, htokens⟩
  complete := by
    rintro us rest n ⟨p, hp, rfl, rfl⟩ hrest
    exact Precedence.Grammar.parse_eq_some.mpr ⟨p, hp, rfl, rfl, stops_iff.mpr hrest⟩

/-- What an expression begins with begins no clause, and is no star. -/
theorem expr_begins {us : List Token} {n : QLNode} (h : Grammar.Expr us n) :
    ∃ t ts, us = t :: ts ∧ t ≠ .star := by
  obtain ⟨p, hp, rfl, _⟩ := h
  obtain ⟨t, ts, htokens, ht⟩ := hp.begins
  refine ⟨t, ts, htokens, ?_⟩
  rintro rfl
  rcases ht with ⟨_, ht⟩ | ⟨_, ht⟩ | ht <;> cases ht

theorem items_parses {α : Type} {p : Parser Token α} {R : Language Token α}
    {F G : List Token → Prop} {ahead : List Token → Bool} (hp : Parses p R F)
    (hsep : ∀ rest, F (.comma :: rest))
    (hahead : ∀ us a rest, R us a → F rest → ahead (us ++ rest) = true)
    (hG : ∀ rest, G rest → F rest ∧ ∀ ts, rest = .comma :: ts → ahead ts = false) :
    Parses (items ahead p) (Grammar.Items R) G := hp.list hsep hahead hG

theorem notAhead_comma {cs rest ts : List Token} (h : NotAhead cs rest) (hcomma : .comma ∈ cs)
    (he : rest = .comma :: ts) : (true : Bool) = false := by
  rw [he, notAhead_cons] at h
  exact absurd hcomma h

theorem colList_parses : Parses colList Grammar.ColList (NotAhead [.comma]) :=
  items_parses ident_parses (fun _ => trivial) (fun _ _ _ _ _ => rfl)
    fun _ h => ⟨trivial, fun _ => notAhead_comma h (by decide)⟩

theorem pkClause_parses : Parses pkClause Grammar.PkClause fun _ => True :=
  (Parses.behind <| Parses.behind <| Parses.behind <|
      colList_parses.bind (fun pk => Parses.behind (Parses.pure pk))
        fun pk us b rest h _ => by
          obtain ⟨vs, _, rfl⟩ := h
          simp).congr
    (fun ts pk => by
      constructor
      · rintro ⟨_, ⟨_, ⟨_, ⟨us, _, pk, hus, ⟨_, ⟨rfl, rfl⟩, rfl⟩, rfl⟩, rfl⟩, rfl⟩, rfl⟩
        exact .mk hus
      · rintro ⟨hus⟩
        exact ⟨_, ⟨_, ⟨_, ⟨_, _, _, hus, ⟨_, ⟨rfl, rfl⟩, rfl⟩, rfl⟩, rfl⟩, rfl⟩, rfl⟩)
    fun _ h => h

theorem colDef_parses : Parses colDef Grammar.ColDef fun _ => True :=
  (Parses.accept <| ident_parses.bind (fun name => ident_parses.map fun type => (name, type))
      fun _ _ _ _ _ _ => trivial).congr
    (fun ts col => by
      constructor
      · rintro ⟨_, ⟨_, _, name, ⟨⟩, ⟨type, ⟨⟩, rfl⟩, rfl⟩, hcol⟩
        exact .mk (toOption_eq_some.mp hcol)
      · rintro ⟨hcol⟩
        exact ⟨(_, _), ⟨_, _, _, .mk, ⟨_, .mk, rfl⟩, rfl⟩, toOption_eq_some.mpr hcol⟩)
    fun _ h => h

/-- The columns end at a comma that the key follows. -/
theorem colDefs_parses :
    Parses colDefs Grammar.ColDefs fun rest => ∃ ts, rest = .comma :: .primary :: ts :=
  items_parses colDef_parses (fun _ => trivial)
    (fun us col rest h _ => by
      obtain ⟨_⟩ := h
      rfl)
    fun rest h => ⟨trivial, fun ts hts => by
      obtain ⟨us, rfl⟩ := h
      obtain ⟨_, rfl⟩ := List.cons.inj hts
      rfl⟩

theorem createStmt_parses : Parses createStmt Grammar.CreateStmt fun _ => True :=
  (Parses.accept <| Parses.behind <| Parses.behind <|
      ident_parses.bind (fun name => Parses.behind <|
        colDefs_parses.bind (fun cols => Parses.behind <|
          pkClause_parses.bind (fun pk => Parses.behind (Parses.pure (name, cols, pk)))
            fun _ _ _ _ _ _ => trivial)
          fun cols us parts rest h _ => by
            obtain ⟨_, ⟨_, _, pk, ⟨_⟩, _, rfl⟩, rfl⟩ := h
            exact ⟨_, rfl⟩)
        fun _ _ _ _ _ _ => trivial).congr
    (fun ts stmt => by
      constructor
      · rintro ⟨_, ⟨_, ⟨_, ⟨_, _, name, ⟨⟩, ⟨_, ⟨ds, _, cols, hds, ⟨_, ⟨ks, _, pk, hks,
          ⟨_, ⟨rfl, rfl⟩, rfl⟩, rfl⟩, rfl⟩, rfl⟩, rfl⟩, rfl⟩, rfl⟩, rfl⟩, hstmt⟩
        obtain ⟨tdef, htdef, rfl⟩ := Option.map_eq_some_iff.mp hstmt
        have hmk := Grammar.CreateStmt.mk hds hks (toOption_eq_some.mp htdef)
        simpa using hmk
      · rintro @⟨name, ds, ks, cols, pk, tdef, hds, hks, htdef⟩
        refine ⟨(name, cols, pk), ⟨_, ⟨_, ⟨_, _, name, .mk, ⟨_, ⟨_, _, cols, hds, ⟨_, ⟨_, _, pk, hks,
          ⟨_, ⟨rfl, rfl⟩, rfl⟩, rfl⟩, rfl⟩, rfl⟩, rfl⟩, rfl⟩, rfl⟩, ?_⟩, ?_⟩
        · simp
        · exact Option.map_eq_some_iff.mpr ⟨tdef, toOption_eq_some.mpr htdef, rfl⟩)
    fun _ h => h

/-- The tokens with which a statement goes on, wherever it could end. -/
def goesOn : List Token := [.where, .filter, .limit, .comma, .as] ++ operators

theorem notAhead_operators {rest : List Token} (h : NotAhead goesOn rest) : NotAhead operators rest :=
  h.mono fun _ ht => List.mem_append_right _ ht

/-- One of two parts, where the first one begins with a token of its own. -/
theorem ahead_parses {α : Type} {t : Token} {p q : Parser Token α} {R S : Language Token α}
    {F : List Token → Prop} (hp : Parses p R F) (hq : Parses q S F)
    (hS : ∀ us a rest, S us a → F rest → isAhead t (us ++ rest) = false) :
    Parses (choose (isAhead t) (token t >>= fun _ => p) q)
      (fun ts a => (∃ us, R us a ∧ ts = t :: us) ∨ S ts a) F :=
  hp.behind.choose hq (fun us a rest h _ => by
    obtain ⟨vs, _, rfl⟩ := h
    exact decide_eq_true rfl) hS

/-- A part that may be absent. -/
theorem optional_parses {α : Type} {t : Token} {p : Parser Token α} {R : Language Token α}
    {cs : List Token} (hp : Parses p R (NotAhead cs)) (ht : t ∈ cs) (a : α) :
    Parses (choose (isAhead t) (token t >>= fun _ => p) (pure a))
      (fun ts b => (∃ us, R us b ∧ ts = t :: us) ∨ (ts = [] ∧ b = a)) (NotAhead cs) :=
  ahead_parses hp ((Parses.pure a).mono fun _ _ => trivial) fun us b rest h hrest => by
    obtain ⟨rfl, _⟩ := h
    exact isAhead_of_notAhead hrest ht

theorem filterClause_parses :
    Parses filterClause Grammar.FilterClause (NotAhead ([.where, .filter] ++ operators)) := by
  have hexpr : Parses expr Grammar.Expr (NotAhead ([.where, .filter] ++ operators)) :=
    expr_parses.mono fun _ h => h.mono fun _ ht => List.mem_append_right _ ht
  refine (ahead_parses hexpr (optional_parses hexpr (by decide) .uninit) ?_).congr (fun ts n => ?_)
    fun _ h => h
  · rintro _ _ rest (⟨us, _, rfl⟩ | ⟨rfl, rfl⟩) h
    · rfl
    · exact isAhead_of_notAhead h (by decide)
  · constructor
    · rintro (⟨us, hus, rfl⟩ | ⟨us, hus, rfl⟩ | ⟨rfl, rfl⟩)
      · exact .mk .where hus
      · exact .mk .filter hus
      · exact .empty
    · rintro (_ | @⟨kw, us, n, hkw, hus⟩)
      · exact .inr (.inr ⟨rfl, rfl⟩)
      · cases hkw with
        | «where» => exact .inl ⟨us, hus, rfl⟩
        | filter => exact .inr (.inl ⟨us, hus, rfl⟩)

theorem limitClause_parses : Parses limitClause Grammar.LimitClause (NotAhead [.limit, .comma]) := by
  have hcount : ∀ k : Int64, Parses (do let n ← num; return (k, n))
      (fun ts r => ∃ n, ts = [.num n] ∧ r = (k, n)) (NotAhead [.limit, .comma]) := fun k =>
    (num_parses.map fun n => (k, n)).mono fun _ _ => trivial
  refine (optional_parses (num_parses.bind
    (fun n => optional_parses (hcount n) (by decide) (0, n)) fun _ _ _ _ _ _ => trivial)
    (by decide) (0, -1)).congr (fun ts r => ?_) fun _ h => h
  constructor
  · rintro (⟨_, ⟨_, _, n, rfl, ⟨_, ⟨k, rfl, rfl⟩, rfl⟩ | ⟨rfl, rfl⟩, rfl⟩, rfl⟩ | ⟨rfl, rfl⟩)
    · exact .offset
    · exact .count
    · exact .empty
  · rintro (_ | @⟨n⟩ | @⟨k, n⟩)
    · exact .inr ⟨rfl, rfl⟩
    · exact .inl ⟨_, ⟨_, [], n, rfl, .inr ⟨rfl, rfl⟩, rfl⟩, rfl⟩
    · exact .inl ⟨_, ⟨_, _, k, rfl, .inl ⟨_, ⟨n, rfl, rfl⟩, rfl⟩, rfl⟩, rfl⟩

/-- The clauses behind a table, at a statement's end. -/
theorem clauses_parses {α : Type} (f : QLNode → Int64 × Int64 → α) :
    Parses (do
        let filter ← filterClause
        let range ← limitClause
        return f filter range)
      (fun ts a => ∃ fs ls filter range, Grammar.FilterClause fs filter ∧
        Grammar.LimitClause ls range ∧ ts = fs ++ ls ∧ a = f filter range)
      (NotAhead goesOn) := by
  have hlimit := limitClause_parses.mono fun _ (h : NotAhead goesOn _) => h.mono (by decide)
  refine (filterClause_parses.bind (fun filter => hlimit.map (f filter)) ?_).congr
    (fun ts a => ?_) fun _ h => h
  · rintro filter _ _ rest ⟨range, hrange, rfl⟩ h
    cases hrange with
    | empty => exact h.mono (by decide)
    | count => exact notAhead_cons.mpr (by decide)
    | offset => exact notAhead_cons.mpr (by decide)
  · constructor
    · rintro ⟨fs, ls, filter, hfs, ⟨range, hls, rfl⟩, rfl⟩
      exact ⟨fs, ls, filter, range, hfs, hls, rfl, rfl⟩
    · rintro ⟨fs, ls, filter, range, hfs, hls, rfl, rfl⟩
      exact ⟨fs, ls, filter, hfs, ⟨range, hls, rfl⟩, rfl⟩

theorem selectItem_parses :
    Parses selectItem Grammar.SelectItem (NotAhead (.as :: operators)) := by
  have hname : ∀ n : QLNode, Parses (do let name ← ident; return (name, n))
      (fun ts item => ∃ name, Grammar.Ident ts name ∧ item = (name, n))
      (NotAhead (.as :: operators)) := fun n =>
    (ident_parses.map fun name => (name, n)).mono fun _ _ => trivial
  have hexpr := expr_parses.bind
    (fun n => optional_parses (hname n) List.mem_cons_self ([], n)) (by
      rintro n _ _ rest (⟨us, _, rfl⟩ | ⟨rfl, rfl⟩) h
      · exact notAhead_cons.mpr (by decide)
      · exact h.mono fun _ ht => List.mem_cons_of_mem _ ht)
  have hstar := (Parses.pure (T := Token) ((.ofString "*", .star) : NamedExpr)).mono
    fun rest (_ : NotAhead (.as :: operators) rest) => trivial
  refine (ahead_parses hstar hexpr ?_).congr (fun ts item => ?_) fun _ h => h
  · -- no expression begins with a star
    rintro _ _ rest ⟨us, vs, n, hus, _, rfl⟩ _
    obtain ⟨t, ts, rfl, ht⟩ := expr_begins hus
    rw [List.cons_append, List.cons_append, isAhead_cons]
    exact decide_eq_false ht
  · constructor
    · rintro (⟨_, ⟨rfl, rfl⟩, rfl⟩ | ⟨us, _, n, hus, ⟨_, ⟨name, ⟨⟩, rfl⟩, rfl⟩ | ⟨rfl, rfl⟩, rfl⟩)
      · exact .star
      · exact .named hus
      · rw [List.append_nil]
        exact .expr hus
    · rintro (_ | @⟨ts, n, hts⟩ | @⟨ts, n, name, hts⟩)
      · exact .inl ⟨[], ⟨rfl, rfl⟩, rfl⟩
      · exact .inr ⟨ts, [], n, hts, .inr ⟨rfl, rfl⟩, (List.append_nil ts).symm⟩
      · exact .inr ⟨ts, _, n, hts, .inl ⟨_, ⟨name, .mk, rfl⟩, rfl⟩, rfl⟩

/-- The items end at the table. -/
theorem selectList_parses :
    Parses selectList Grammar.SelectList fun rest => ∃ ts, rest = .from :: ts :=
  selectItem_parses.list (fun _ => notAhead_cons.mpr (by decide)) (fun _ _ _ _ _ => rfl)
    fun rest h => by
      obtain ⟨us, rfl⟩ := h
      exact ⟨notAhead_cons.mpr (by decide), fun ts hts => nomatch hts⟩

theorem selectStmt_parses : Parses selectStmt Grammar.SelectStmt (NotAhead goesOn) := by
  have hclauses := fun (sel : QLSelect) (table : Bytes) => clauses_parses fun filter range =>
    { sel with scan := .of table filter range }
  have htable := fun sel : QLSelect =>
    (ident_parses.bind (hclauses sel) fun _ _ _ _ _ _ => trivial).behind (t := .from)
  refine (selectList_parses.bind htable fun sel us stmt rest h _ => ?_).behind.congr
    (fun ts stmt => ?_) fun _ h => h
  · obtain ⟨vs, _, rfl⟩ := h
    exact ⟨_, rfl⟩
  · constructor
    · rintro ⟨_, ⟨is, _, sel, his, ⟨_, ⟨_, _, table, ⟨⟩, ⟨fs, ls, filter, range, hfs, hls, rfl, rfl⟩,
        rfl⟩, rfl⟩, rfl⟩, rfl⟩
      have hmk := @Grammar.SelectStmt.mk is fs ls sel table filter range his hfs hls
      simpa using hmk
    · rintro @⟨is, fs, ls, sel, table, filter, range, his, hfs, hls⟩
      refine ⟨_, ⟨is, _, sel, his, ⟨_, ⟨_, _, table, .mk, ⟨fs, ls, filter, range, hfs, hls, rfl, rfl⟩,
        rfl⟩, rfl⟩, rfl⟩, ?_⟩
      simp

theorem valueRow_parses : Parses valueRow Grammar.ValueRow (NotAhead operators) :=
  (expr_parses.map rowFromExpr).congr
    (fun ts row => by
      constructor
      · rintro ⟨n, hts, rfl⟩
        exact .mk hts
      · rintro ⟨hts⟩
        exact ⟨_, hts, rfl⟩)
    fun _ h => h

theorem insertStmt_parses : Parses insertStmt Grammar.InsertStmt (NotAhead goesOn) := by
  have hrows : Parses (items (fun _ => true) valueRow) Grammar.ValueRows (NotAhead goesOn) :=
    items_parses valueRow_parses (fun _ => notAhead_cons.mpr (by decide)) (fun _ _ _ _ _ => rfl)
      fun _ h => ⟨notAhead_operators h, fun _ => notAhead_comma h (by decide)⟩
  refine (Parses.behind <| Parses.behind <| ident_parses.bind (fun table => Parses.behind <|
      colList_parses.bind (fun names => Parses.behind <| Parses.behind <|
          hrows.map fun values => ({ table := table, names := names, values := values } : QLInsert))
        fun names us stmt rest h _ => ?_)
      fun _ _ _ _ _ _ => trivial).congr (fun ts stmt => ?_) fun _ h => h
  · obtain ⟨_, _, rfl⟩ := h
    exact notAhead_cons.mpr (by decide)
  · constructor
    · rintro ⟨_, ⟨_, ⟨_, _, table, ⟨⟩, ⟨_, ⟨cs, _, names, hcs, ⟨_, ⟨vs, ⟨values, hvs, rfl⟩, rfl⟩, rfl⟩,
        rfl⟩, rfl⟩, rfl⟩, rfl⟩, rfl⟩
      have hmk := @Grammar.InsertStmt.mk cs vs table names values hcs hvs
      simpa using hmk
    · rintro @⟨cs, vs, table, names, values, hcs, hvs⟩
      refine ⟨_, ⟨_, ⟨_, _, table, .mk, ⟨_, ⟨cs, _, names, hcs, ⟨_, ⟨vs, ⟨values, hvs, rfl⟩, rfl⟩, rfl⟩,
        rfl⟩, rfl⟩, rfl⟩, rfl⟩, ?_⟩
      simp

theorem assignment_parses : Parses assignment Grammar.Assignment (NotAhead operators) :=
  (ident_parses.bind (fun name => Parses.behind (expr_parses.map fun n => (name, n)))
      fun _ _ _ _ _ _ => trivial).congr
    (fun ts item => by
      constructor
      · rintro ⟨_, _, name, ⟨⟩, ⟨us, ⟨n, hus, rfl⟩, rfl⟩, rfl⟩
        exact .mk hus
      · rintro @⟨us, name, n, hus⟩
        exact ⟨_, _, name, .mk, ⟨us, ⟨n, hus, rfl⟩, rfl⟩, rfl⟩)
    fun _ h => h

theorem setList_parses :
    Parses setList Grammar.SetList (NotAhead ([.comma] ++ operators)) :=
  assignment_parses.list (fun _ => notAhead_cons.mpr (by decide)) (fun _ _ _ _ _ => rfl)
    fun _ h => ⟨h.mono fun _ ht => List.mem_append_right _ ht,
      fun _ => notAhead_comma h (by decide)⟩

theorem updateStmt_parses : Parses updateStmt Grammar.UpdateStmt (NotAhead goesOn) := by
  have hclauses := fun (table : Bytes) (stmt : QLUpdate) => clauses_parses fun filter range =>
    { stmt with scan := .of table filter range }
  refine (ident_parses.bind (fun table => (setList_parses.bind (hclauses table)
    fun stmt us stmt' rest h hrest => ?_).behind) fun _ _ _ _ _ _ => trivial).behind.congr
    (fun ts stmt => ?_) fun _ h => h
  · obtain ⟨fs, ls, filter, range, hfs, hls, rfl, _⟩ := h
    cases hfs with
    | mk hkw => cases hkw <;> exact notAhead_cons.mpr (by decide)
    | empty =>
        cases hls with
        | empty => exact hrest.mono (by decide)
        | count => exact notAhead_cons.mpr (by decide)
        | offset => exact notAhead_cons.mpr (by decide)
  · constructor
    · rintro ⟨_, ⟨_, _, table, ⟨⟩, ⟨_, ⟨ss, _, stmt, hss, ⟨fs, ls, filter, range, hfs, hls, rfl, rfl⟩,
        rfl⟩, rfl⟩, rfl⟩, rfl⟩
      have hmk := @Grammar.UpdateStmt.mk ss fs ls stmt table filter range hss hfs hls
      simpa using hmk
    · rintro @⟨ss, fs, ls, stmt, table, filter, range, hss, hfs, hls⟩
      refine ⟨_, ⟨_, _, table, .mk, ⟨_, ⟨ss, _, stmt, hss, ⟨fs, ls, filter, range, hfs, hls, rfl, rfl⟩,
        rfl⟩, rfl⟩, rfl⟩, ?_⟩
      simp

theorem deleteStmt_parses : Parses deleteStmt Grammar.DeleteStmt (NotAhead goesOn) :=
  (Parses.behind <| Parses.behind <| ident_parses.bind (fun table =>
      clauses_parses fun filter range => (⟨.of table filter range⟩ : QLDelete))
      fun _ _ _ _ _ _ => trivial).congr
    (fun ts stmt => by
      constructor
      · rintro ⟨_, ⟨_, ⟨_, _, table, ⟨⟩, ⟨fs, ls, filter, range, hfs, hls, rfl, rfl⟩, rfl⟩, rfl⟩, rfl⟩
        have hmk := @Grammar.DeleteStmt.mk fs ls table filter range hfs hls
        simpa using hmk
      · rintro @⟨fs, ls, table, filter, range, hfs, hls⟩
        exact ⟨_, ⟨_, ⟨_, _, table, .mk, ⟨fs, ls, filter, range, hfs, hls, rfl, rfl⟩, rfl⟩, rfl⟩, rfl⟩)
    fun _ h => h

theorem optSemi_parses : Parses optSemi (fun ts _ => Grammar.OptSemi ts) (NotAhead [.semi]) :=
  (optional_parses ((Parses.pure ()).mono fun _ _ => trivial) List.mem_cons_self ()).congr
    (fun ts u => by
      constructor
      · rintro (⟨us, ⟨rfl, _⟩, rfl⟩ | ⟨rfl, _⟩)
        · exact .semi
        · exact .empty
      · rintro (_ | _)
        · exact .inr ⟨rfl, rfl⟩
        · exact .inl ⟨[], ⟨rfl, rfl⟩, rfl⟩)
    fun _ h => h

/-- One of two, which begin with different tokens. -/
theorem kinds_parses {α : Type} {t : Token} {p q : Parser Token α} {R S : Language Token α}
    {F : List Token → Prop} (hp : Parses p R F) (hR : ∀ ts a, R ts a → ∃ us, ts = t :: us)
    (hq : Parses q S F) (hS : ∀ ts a, S ts a → ∃ u us, ts = u :: us ∧ u ≠ t) :
    Parses (choose (isAhead t) p q) (fun ts a => R ts a ∨ S ts a) F :=
  hp.choose hq
    (fun ts a rest h _ => by
      obtain ⟨us, rfl⟩ := hR ts a h
      exact decide_eq_true rfl)
    fun ts a rest h _ => by
      obtain ⟨u, us, rfl, hu⟩ := hS ts a h
      rw [List.cons_append, isAhead_cons]
      exact decide_eq_false hu

/-- **A statement**, in front of the end of the input. -/
theorem statement_parses :
    Parses statement Grammar.Statement fun rest => ∃ ts, rest = .endOfInput :: ts := by
  -- each kind of statement, and those behind it in the order of the choices
  have hdelete := deleteStmt_parses.map QLStatement.delete
  have hupdate := kinds_parses (updateStmt_parses.map QLStatement.update)
    (by rintro _ _ ⟨_, ⟨_⟩, _⟩; exact ⟨_, rfl⟩) hdelete
    (by rintro _ _ ⟨_, ⟨_⟩, _⟩; exact ⟨_, _, rfl, by decide⟩)
  have hinsert := kinds_parses (insertStmt_parses.map QLStatement.insert)
    (by rintro _ _ ⟨_, ⟨_⟩, _⟩; exact ⟨_, rfl⟩) hupdate
    (by rintro _ _ (⟨_, ⟨_⟩, _⟩ | ⟨_, ⟨_⟩, _⟩) <;> exact ⟨_, _, rfl, by decide⟩)
  have hselect := kinds_parses (selectStmt_parses.map QLStatement.select)
    (by rintro _ _ ⟨_, ⟨_⟩, _⟩; exact ⟨_, rfl⟩) hinsert
    (by rintro _ _ (⟨_, ⟨_⟩, _⟩ | ⟨_, ⟨_⟩, _⟩ | ⟨_, ⟨_⟩, _⟩) <;> exact ⟨_, _, rfl, by decide⟩)
  have hcreate := kinds_parses
    ((createStmt_parses.map QLStatement.createTable).mono fun _ _ => trivial)
    (by rintro _ _ ⟨_, ⟨_⟩, _⟩; exact ⟨_, rfl⟩) hselect
    (by
      rintro _ _ (⟨_, ⟨_⟩, _⟩ | ⟨_, ⟨_⟩, _⟩ | ⟨_, ⟨_⟩, _⟩ | ⟨_, ⟨_⟩, _⟩) <;>
        exact ⟨_, _, rfl, by decide⟩)
  have hsemi := optSemi_parses.mono fun rest (h : ∃ ts, rest = Token.endOfInput :: ts) => by
    obtain ⟨us, rfl⟩ := h
    exact notAhead_cons.mpr (by decide : Token.endOfInput ∉ [Token.semi])
  refine (hcreate.bind (fun stmt => hsemi.map fun _ => stmt) ?_).congr (fun ts stmt => ?_)
    fun _ h => h
  · rintro stmt _ _ rest ⟨_, hus, rfl⟩ ⟨ts, rfl⟩
    cases hus with
    | empty => exact notAhead_cons.mpr (by decide)
    | semi => exact notAhead_cons.mpr (by decide)
  · constructor
    · rintro ⟨us, vs, _, h, ⟨_, hvs, rfl⟩, rfl⟩
      rcases h with ⟨s, hs, rfl⟩ | ⟨s, hs, rfl⟩ | ⟨s, hs, rfl⟩ | ⟨s, hs, rfl⟩ | ⟨s, hs, rfl⟩
      · exact .create hs hvs
      · exact .select hs hvs
      · exact .insert hs hvs
      · exact .update hs hvs
      · exact .delete hs hvs
    · rintro (@⟨us, vs, s, hs, hvs⟩ | @⟨us, vs, s, hs, hvs⟩ | @⟨us, vs, s, hs, hvs⟩ |
        @⟨us, vs, s, hs, hvs⟩ | @⟨us, vs, s, hs, hvs⟩)
      · exact ⟨us, vs, _, .inl ⟨s, hs, rfl⟩, ⟨(), hvs, rfl⟩, rfl⟩
      · exact ⟨us, vs, _, .inr (.inl ⟨s, hs, rfl⟩), ⟨(), hvs, rfl⟩, rfl⟩
      · exact ⟨us, vs, _, .inr (.inr (.inl ⟨s, hs, rfl⟩)), ⟨(), hvs, rfl⟩, rfl⟩
      · exact ⟨us, vs, _, .inr (.inr (.inr (.inl ⟨s, hs, rfl⟩))), ⟨(), hvs, rfl⟩, rfl⟩
      · exact ⟨us, vs, _, .inr (.inr (.inr (.inr ⟨s, hs, rfl⟩))), ⟨(), hvs, rfl⟩, rfl⟩

theorem parse_eq_some {ts : List Token} {stmt : QLStatement} :
    parse ts = some stmt ↔ ∃ us, Grammar.Statement us stmt ∧ ts = us ++ [.endOfInput] := by
  constructor
  · intro h
    unfold parse at h
    split at h
    · rename_i s hs
      obtain rfl := Option.some.inj h
      exact statement_parses.sound hs
    · cases h
  · rintro ⟨us, hus, rfl⟩
    rw [parse, statement_parses.complete hus ⟨[], rfl⟩]

/-- **A sentence means one thing.** -/
theorem statement_unique {us : List Token} {stmt stmt' : QLStatement}
    (h : Grammar.Statement us stmt) (h' : Grammar.Statement us stmt') : stmt = stmt' :=
  Option.some.inj ((parse_eq_some.mpr ⟨us, h, rfl⟩).symm.trans (parse_eq_some.mpr ⟨us, h', rfl⟩))

end QLParser

/-- **What is parsed** is a text of tokens that are a sentence. -/
theorem parseStatement_eq_some {sql : Bytes} {stmt : QLStatement} :
    parseStatement sql = some stmt ↔ ∃ text symbols us, scanned sql = some text ∧
      lex text = .ok symbols ∧ symbols.map Symbol.token = us ++ [.endOfInput] ∧
      Grammar.Statement us stmt := by
  unfold parseStatement
  cases scanned sql with
  | none =>
      refine ⟨fun h => (nomatch h), ?_⟩
      rintro ⟨_, _, _, h, _⟩
      cases h
  | some text =>
      dsimp only
      cases hlex : lex text with
      | error e =>
          refine ⟨fun h => (nomatch h), ?_⟩
          rintro ⟨_, symbols, us, htext, h, _⟩
          rw [← Option.some.inj htext, hlex] at h
          cases h
      | ok symbols =>
          rw [QLParser.parse_eq_some]
          constructor
          · rintro ⟨us, hus, htokens⟩
            exact ⟨text, symbols, us, rfl, hlex, htokens, hus⟩
          · rintro ⟨_, symbols', us, htext, h, htokens, hus⟩
            rw [← Option.some.inj htext, hlex] at h
            obtain rfl := Except.ok.inj h
            exact ⟨us, hus, htokens⟩

end SqlDb
