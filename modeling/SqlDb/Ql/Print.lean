import SqlDb.Ql.Layout
import SqlDb.Ql.Parser

/-!
# Writing a statement

A statement is written as a person would: with parentheses only where the precedence of the
operators asks for them, an item's name behind AS, and a space behind every token. What is
written is parsed back to the statement, and every statement that the parser yields can be
written; so the well-formed statements are those that have a text.
-/

namespace SqlDb

open Parsing

/-! ## Tokens -/

/-- A name that is no keyword. -/
structure Name (name : Bytes) : Prop where
  ident : Ident name
  free : ∀ entry ∈ fixedTokens, name.map toLower ≠ Bytes.ofString entry.1

/-- A text for the token, if it has any. -/
def Token.text : Token → Bytes
  | .num v => decimal v.toInt.toNat
  | .ident name => name
  | .str text => quote text
  | t => ((fixedTokens.find? fun entry => entry.2 = t).map fun entry => Bytes.ofString entry.1).getD []

/-- Every token has a spelling. -/
def Spelled (ts : List Token) : Prop := ∀ t ∈ ts, ∃ w, Spells w t

/-- Tokens with a space behind each. -/
def tokensText (ts : List Token) : Bytes := ts.flatMap fun t => t.text ++ [space]

theorem spelled_num {v : Int64} (h : ∃ w, Spells w (.num v)) : 0 ≤ v.toInt := by
  obtain ⟨w, h⟩ := h
  have hnum : ∀ {t}, Spells w t → ∀ v, t = .num v → 0 ≤ v.toInt := by
    intro t ht v he
    cases ht with
    | fixed hentry =>
        have hfixed : ∀ entry ∈ fixedTokens, entry.2 ≠ .num v := by simp [fixedTokens]
        exact absurd he (hfixed _ hentry)
    | num _ _ hlt =>
        obtain rfl := Token.num.inj he
        rw [Int64.toInt_ofNat_of_lt hlt]
        exact Int.natCast_nonneg _
    | ident => cases he
    | str => cases he
  exact hnum h v rfl

theorem spelled_ident {name : Bytes} (h : ∃ w, Spells w (.ident name)) : Name name := by
  obtain ⟨w, h⟩ := h
  have hident : ∀ {t}, Spells w t → ∀ name, t = .ident name → Name name := by
    intro t ht name he
    cases ht with
    | fixed hentry =>
        have hfixed : ∀ entry ∈ fixedTokens, entry.2 ≠ .ident name := by simp [fixedTokens]
        exact absurd he (hfixed _ hentry)
    | num => cases he
    | ident hident hfree =>
        obtain rfl := Token.ident.inj he
        exact ⟨hident, hfree⟩
    | str => cases he
  exact hident h name rfl

theorem spells_num {v : Int64} (h : 0 ≤ v.toInt) : Spells (Token.num v).text (.num v) := by
  have hlt : v.toInt.toNat < 2 ^ 63 := by
    have := v.toInt_lt
    omega
  have hvalue : Int64.ofNat v.toInt.toNat = v := by
    rw [← Int64.toInt_inj, Int64.toInt_ofNat_of_lt hlt]
    omega
  have hspells := Spells.num (decimal_ne_nil v.toInt.toNat) (fun c hc => ?_)
    (by rwa [digitsValue_decimal])
  · rwa [digitsValue_decimal, hvalue] at hspells
  · obtain ⟨d, hd, rfl⟩ := mem_decimal hc
    have hdigits : ∀ d < 10, digit d ∈ digits := by decide
    exact hdigits d hd

theorem spells_ident {name : Bytes} (h : Name name) : Spells (Token.ident name).text (.ident name) :=
  .ident h.ident h.free

/-- **A token that has a spelling is written in one.** -/
theorem spells_text {t : Token} (h : ∃ w, Spells w t) : Spells t.text t := by
  obtain ⟨w, h⟩ := h
  cases h with
  | fixed hentry =>
      have hfixed : ∀ entry ∈ fixedTokens, ∃ e ∈ fixedTokens, e.2 = entry.2 ∧
          entry.2.text.map toLower = Bytes.ofString e.1 := by decide
      obtain ⟨e, he, htoken, htext⟩ := hfixed _ hentry
      rw [← htoken] at htext ⊢
      exact .fixed he htext
  | num hne hdigits hlt =>
      refine spells_num ?_
      rw [Int64.toInt_ofNat_of_lt hlt]
      exact Int.natCast_nonneg _
  | ident hident hfree => exact .ident hident hfree
  | str ps =>
      obtain ⟨qs, htext, hvalue⟩ := exists_literalText (ps.map Piece.value)
      have hspells := Spells.str qs
      rwa [← htext, hvalue] at hspells

/-- **Tokens with spaces between them** lex to themselves. -/
theorem layout_tokensText {ts : List Token} (h : Spelled ts) : Layout (tokensText ts) ts := by
  have hgap : ∀ g, Gap g → Layout (g ++ tokensText ts) ts := by
    induction ts with
    | nil =>
        intro g hg
        rw [tokensText, List.flatMap_nil, List.append_nil]
        exact .done hg
    | cons t ts ih =>
        intro g hg
        obtain ⟨ht, hts⟩ := List.forall_mem_cons.mp h
        have htext : g ++ tokensText (t :: ts) = g ++ t.text ++ ([space] ++ tokensText ts) := by
          simp [tokensText]
        rw [htext]
        have hspace : Apart ([space] ++ tokensText ts) := by
          rintro c ⟨⟩
          decide
        exact .token hg (spells_text ht) ((spells_text ht).longest hspace)
          (ih hts [space] (.white (by decide) .nil))
  exact hgap [] .nil

/-! ## Expressions -/

def QLCmp.token : QLCmp → Token
  | .ge => .ge
  | .gt => .gt
  | .lt => .lt
  | .le => .le
  | .eq => .eq
  | .ne => .ne

def QLArith.token : QLArith → Token
  | .add => .plus
  | .sub => .minus
  | .mul => .star
  | .div => .slash
  | .mod => .percent

def QLLogic.token : QLLogic → Token
  | .and => .and
  | .or => .or

def parens (wanted : Bool) (ts : List Token) : List Token :=
  if wanted then .lparen :: ts ++ [.rparen] else ts

/-- An infix operator between its parts, where nothing looser than `k` may stand. -/
def infixTokens (op : Token) (lhs rhs : Nat → List Token) (k : Nat) : List Token :=
  match binaryLevel op with
  | some (level, assoc) => parens (level < k)
      (lhs (if assoc = .left then level else level + 1) ++ op :: rhs (level + 1))
  | none => []

def prefixTokens (op : Token) (kid : Nat → List Token) (k : Nat) : List Token :=
  match unaryLevel op with
  | some level => parens (level < k) (op :: kid level)
  | none => []

mutual

/-- The expression where nothing looser than `k` may stand. -/
def QLNode.tokens : QLNode → Nat → List Token
  | .int64 v, _ => [.num v]
  | .str text, _ => [.str text]
  | .sym name, _ => [.ident name]
  | .cmp type lhs rhs, k => infixTokens type.token lhs.tokens rhs.tokens k
  | .arith type lhs rhs, k => infixTokens type.token lhs.tokens rhs.tokens k
  | .logic type lhs rhs, k => infixTokens type.token lhs.tokens rhs.tokens k
  | .not kid, k => prefixTokens .not kid.tokens k
  | .neg kid, k => prefixTokens .minus kid.tokens k
  | .tup kids, _ => .lparen :: (kidsTokens kids).drop 1 ++ [.rparen]
  | .star, _ => [.star]
  | .uninit, _ => []

/-- Every kid behind a comma. -/
def kidsTokens : List QLNode → List Token
  | [] => []
  | kid :: kids => .comma :: kid.tokens 0 ++ kidsTokens kids

end

/-- What an expression of a statement is made of. -/
inductive QLNode.Writable : QLNode → Prop where
  | int64 {v : Int64} : 0 ≤ v.toInt → Writable (.int64 v)
  | str (text : Bytes) : Writable (.str text)
  | sym {name : Bytes} : Name name → Writable (.sym name)
  | tup {kids : List QLNode} : 2 ≤ kids.length → (∀ kid ∈ kids, Writable kid) → Writable (.tup kids)
  | cmp (type : QLCmp) {lhs rhs : QLNode} : Writable lhs → Writable rhs →
    Writable (.cmp type lhs rhs)
  | arith (type : QLArith) {lhs rhs : QLNode} : Writable lhs → Writable rhs →
      Writable (.arith type lhs rhs)
  | logic (type : QLLogic) {lhs rhs : QLNode} : Writable lhs → Writable rhs →
      Writable (.logic type lhs rhs)
  | not {kid : QLNode} : Writable kid → Writable (.not kid)
  | neg {kid : QLNode} : Writable kid → Writable (.neg kid)

/-- In parentheses where it is too loose to stand. -/
theorem writes_parens {level : Nat} {ts : List Token} {node : QLNode}
    (h : exprGrammar.Writes level ts node) (k : Nat) :
    exprGrammar.Writes k (parens (level < k) ts) node := by
  unfold parens
  by_cases hk : level < k
  · rw [if_pos (decide_eq_true hk)]
    exact h.group k
  · rw [if_neg (by simpa using hk)]
    exact h.mono (Nat.le_of_not_lt hk)

theorem writes_infix {op : Token} {level : Nat} {assoc : Precedence.Assoc} {lhs rhs : QLNode}
    (hop : binaryLevel op = some (level, assoc)) (hlhs : ∀ k, exprGrammar.Writes k (lhs.tokens k) lhs)
    (hrhs : ∀ k, exprGrammar.Writes k (rhs.tokens k) rhs) (k : Nat) :
    exprGrammar.Writes k (infixTokens op lhs.tokens rhs.tokens k) (binop op lhs rhs) := by
  have hbare := Precedence.Grammar.Writes.binary (G := exprGrammar) hop
    (k := if assoc = .left then level else level + 1) (by split <;> simp_all) (hlhs _) (hrhs _)
  unfold infixTokens
  rw [hop]
  exact writes_parens hbare k

theorem writes_prefix {op : Token} {level : Nat} {kid : QLNode} (hop : unaryLevel op = some level)
    (hkid : ∀ k, exprGrammar.Writes k (kid.tokens k) kid) (k : Nat) :
    exprGrammar.Writes k (prefixTokens op kid.tokens k) (unop op kid) := by
  have hfree : ∀ o assoc, binaryLevel o ≠ some (level, assoc) := by
    intro o assoc
    cases op <;> cases hop <;> cases o <;> simp [binaryLevel]
  have hbare := Precedence.Grammar.Writes.unary (G := exprGrammar) hop hfree (hkid level)
  unfold prefixTokens
  rw [hop]
  exact writes_parens hbare k

theorem kidsTokens_eq (kids : List QLNode) :
    kidsTokens kids = kids.flatMap fun kid => .comma :: kid.tokens 0 := by
  induction kids with
  | nil => rfl
  | cons kid kids ih => rw [kidsTokens, ih, List.flatMap_cons]

/-- **An expression is read as it was written.** -/
theorem QLNode.Writable.writes {n : QLNode} (h : n.Writable) :
    ∀ k, exprGrammar.Writes k (n.tokens k) n := by
  induction h with
  | int64 => exact fun k => Precedence.Grammar.writes_atom rfl k
  | str => exact fun k => Precedence.Grammar.writes_atom rfl k
  | sym => exact fun k => Precedence.Grammar.writes_atom rfl k
  | @tup kids hlen _ ih =>
      intro k
      obtain ⟨kid, kids, rfl⟩ := List.exists_cons_of_length_pos (by omega : 0 < kids.length)
      obtain ⟨hkid, hkids⟩ := List.forall_mem_cons.mp ih
      have hne : (kids.map fun kid => (kid.tokens 0, kid)) ≠ [] := fun h => by
        rw [List.map_eq_nil_iff] at h
        rw [h] at hlen
        simp at hlen
      have htuple := (hkid 0).tuple hne (fun q hq => by
        obtain ⟨kid, hmem, rfl⟩ := List.mem_map.mp hq
        exact hkids kid hmem 0) k
      have htokens : (QLNode.tup (kid :: kids)).tokens k = .lparen :: kid.tokens 0 ++
          ((kids.map fun kid => (kid.tokens 0, kid)).flatMap fun q => .comma :: q.1) ++ [.rparen] := by
        rw [QLNode.tokens, kidsTokens, kidsTokens_eq, List.flatMap_map]
        simp
      have hvalue : QLNode.tup (kid :: kids) =
          .tup (kid :: (kids.map fun kid => (kid.tokens 0, kid)).map Prod.snd) := by
        rw [List.map_map]
        simp [Function.comp_def]
      rw [htokens, hvalue]
      exact htuple
  | cmp type _ _ ihl ihr => exact fun k => by cases type <;> exact writes_infix rfl ihl ihr k
  | arith type _ _ ihl ihr => exact fun k => by cases type <;> exact writes_infix rfl ihl ihr k
  | logic type _ _ ihl ihr => exact fun k => by cases type <;> exact writes_infix rfl ihl ihr k
  | not _ ih => exact writes_prefix rfl ih
  | neg _ ih => exact writes_prefix rfl ih

theorem QLNode.Writable.expr {n : QLNode} (h : n.Writable) (k : Nat) :
    Grammar.Expr (n.tokens k) n := by
  obtain ⟨p, hp, htokens, hvalue, _⟩ := h.writes k
  exact ⟨p, hp, htokens, hvalue⟩

/-! ## Statements -/

structure QLScan.WellFormed (req : QLScan) : Prop where
  table : Name req.table
  key1 : req.key1 = .uninit
  key2 : req.key2 = .uninit
  filter : req.filter = .uninit ∨ req.filter.Writable
  range : (req.offset = 0 ∧ req.limit = -1) ∨ (0 ≤ req.offset.toInt ∧ 0 ≤ req.limit.toInt)

/-- A star, or an expression with a name. -/
def ItemWellFormed (item : NamedExpr) : Prop :=
  item = (.ofString "*", .star) ∨ (Name item.1 ∧ item.2.Writable)

structure QLSelect.WellFormed (stmt : QLSelect) : Prop where
  scan : stmt.scan.WellFormed
  parallel : stmt.names.length = stmt.output.length
  nonempty : stmt.output ≠ []
  items : ∀ item ∈ stmt.names.zip stmt.output, ItemWellFormed item

structure QLInsert.WellFormed (stmt : QLInsert) : Prop where
  table : Name stmt.table
  mode : stmt.mode = .insertOnly
  columns : stmt.names ≠ []
  names : ∀ name ∈ stmt.names, Name name
  nonempty : stmt.values ≠ []
  rows : ∀ row ∈ stmt.values, ∃ n : QLNode, n.Writable ∧ row = rowFromExpr n

structure QLUpdate.WellFormed (stmt : QLUpdate) : Prop where
  scan : stmt.scan.WellFormed
  parallel : stmt.names.length = stmt.values.length
  nonempty : stmt.names ≠ []
  items : ∀ item ∈ stmt.names.zip stmt.values, Name item.1 ∧ item.2.Writable

structure QLCreateTable.WellFormed (stmt : QLCreateTable) : Prop where
  name : Name stmt.tdef.name
  parallel : stmt.tdef.cols.length = stmt.tdef.types.length
  cols : ∀ col ∈ stmt.tdef.cols, Name col
  distinct : stmt.tdef.cols.Nodup
  types : ∀ type ∈ stmt.tdef.types, type ≠ .error
  pkeys : 0 < stmt.tdef.pkeys ∧ stmt.tdef.pkeys ≤ stmt.tdef.cols.length
  bare : stmt.tdef.keyPrefix = 0 ∧ stmt.tdef.indexes = [] ∧ stmt.tdef.indexPrefixes = []

def QLStatement.WellFormed : QLStatement → Prop
  | .createTable stmt => stmt.WellFormed
  | .select stmt => stmt.WellFormed
  | .insert stmt => stmt.WellFormed
  | .update stmt => stmt.WellFormed
  | .delete stmt => stmt.scan.WellFormed

def filterTokens (filter : QLNode) : List Token :=
  if filter.isUninit then [] else .where :: filter.tokens 0

def limitTokens (offset limit : Int64) : List Token :=
  if limit = -1 then [] else [.limit, .num offset, .comma, .num limit]

def QLScan.clauses (req : QLScan) : List Token :=
  filterTokens req.filter ++ limitTokens req.offset req.limit

def itemTokens (item : NamedExpr) : List Token :=
  match item.2 with
  | .star => [.star]
  | n => n.tokens 0 ++ [.as, .ident item.1]

/-- One value as it is, and more of them in parentheses. -/
def rowTokens : List QLNode → List Token
  | [n] => n.tokens 0
  | row => (QLNode.tup row).tokens 0

def assignmentTokens (item : NamedExpr) : List Token := .ident item.1 :: .eq :: item.2.tokens 0

def typeName : ValueType → Bytes
  | .int64 => .ofString "INT64"
  | .bytes => .ofString "BYTES"
  | .error => []

def QLStatement.tokens : QLStatement → List Token
  | .createTable stmt => createTokens stmt.tdef.name
      (stmt.tdef.cols.zip (stmt.tdef.types.map typeName)) (stmt.tdef.cols.take stmt.tdef.npkeys)
  | .select stmt => .select :: commaList ((stmt.names.zip stmt.output).map itemTokens) ++
      .from :: .ident stmt.scan.table :: stmt.scan.clauses
  | .insert stmt => .insert :: .into :: .ident stmt.table :: .lparen ::
      commaList (stmt.names.map keyTokens) ++ .rparen :: .values ::
      commaList (stmt.values.map rowTokens)
  | .update stmt => .update :: .ident stmt.scan.table :: .set ::
      commaList ((stmt.names.zip stmt.values).map assignmentTokens) ++ stmt.scan.clauses
  | .delete stmt => .delete :: .from :: .ident stmt.scan.table :: stmt.scan.clauses

/-- A text of the statement. -/
def QLStatement.text (stmt : QLStatement) : Bytes := tokensText stmt.tokens

/-! ## What is written is a sentence -/

theorem listed_commaList {α β : Type} {R : Language Token α} {first : α → β} {step : β → α → β}
    {f : α → List Token} {x : α} {xs : List α} (h : ∀ y ∈ x :: xs, R (f y) y) :
    Listed .comma R first step (commaList ((x :: xs).map f)) (xs.foldl step (first x)) := by
  obtain ⟨hx, hxs⟩ := List.forall_mem_cons.mp h
  refine listed_iff.mpr ⟨f x, x, xs.map fun y => (f y, y), hx, fun q hq => ?_, ?_, ?_⟩
  · obtain ⟨y, hy, rfl⟩ := List.mem_map.mp hq
    exact hxs y hy
  · rw [List.map_cons, commaList, List.flatMap_map, List.flatMap_map]
  · rw [List.map_map]
    exact congrArg (fun ys => List.foldl step (first x) ys) (List.map_id xs).symm

theorem foldl_concat {α : Type} (as bs : List α) :
    bs.foldl (fun as a => as ++ [a]) as = as ++ bs := by
  induction bs generalizing as with
  | nil => exact (List.append_nil as).symm
  | cons b bs ih => rw [List.foldl_cons, ih, List.append_assoc, List.singleton_append]

theorem items_commaList {α : Type} {R : Language Token α} {f : α → List Token} {xs : List α}
    (hne : xs ≠ []) (h : ∀ x ∈ xs, R (f x) x) : Grammar.Items R (commaList (xs.map f)) xs := by
  obtain ⟨x, xs, rfl⟩ := List.exists_cons_of_ne_nil hne
  have hlist : Grammar.Items R _ (xs.foldl (fun as a => as ++ [a]) [x]) := listed_commaList h
  rwa [foldl_concat] at hlist

theorem QLNode.Writable.isUninit {n : QLNode} (h : n.Writable) : n.isUninit = false := by
  cases h <;> rfl

theorem clauses_sentence {req : QLScan} (h : req.WellFormed) :
    Grammar.FilterClause (filterTokens req.filter) req.filter ∧
      Grammar.LimitClause (limitTokens req.offset req.limit) (req.offset, req.limit) := by
  constructor
  · rcases h.filter with he | hw
    · rw [he]
      exact .empty
    · rw [filterTokens, hw.isUninit]
      exact .mk .where (hw.expr 0)
  · rcases h.range with ⟨hoffset, hlimit⟩ | ⟨_, hlimit⟩
    · rw [hoffset, hlimit]
      exact .empty
    · have hne : req.limit ≠ -1 := fun he => by
        rw [he] at hlimit
        exact absurd hlimit (by decide)
      rw [limitTokens, if_neg hne]
      exact .offset

theorem scan_of {req : QLScan} (h : req.WellFormed) :
    QLScan.of req.table req.filter (req.offset, req.limit) = req := by
  cases req
  obtain rfl := h.key1
  obtain rfl := h.key2
  rfl

theorem item_sentence {item : NamedExpr} (h : ItemWellFormed item) :
    Grammar.SelectItem (itemTokens item) item ∧ item.1 ≠ [] := by
  rcases h with rfl | ⟨hname, hw⟩
  · exact ⟨.star, by decide⟩
  · obtain ⟨name, n⟩ := item
    refine ⟨?_, hname.ident.ne_nil⟩
    have htokens : itemTokens (name, n) = n.tokens 0 ++ [.as, .ident name] := by
      cases hw <;> rfl
    rw [htokens]
    exact .named (hw.expr 0)

/-- Items with names keep them. -/
theorem foldl_addSelectItem {items : List NamedExpr} (h : ∀ item ∈ items, item.1 ≠ [])
    (sel : QLSelect) : items.foldl addSelectItem sel = { sel with
      names := sel.names ++ items.map Prod.fst, output := sel.output ++ items.map Prod.snd } := by
  induction items generalizing sel with
  | nil => simp
  | cons item items ih =>
      obtain ⟨hitem, hitems⟩ := List.forall_mem_cons.mp h
      rw [List.foldl_cons, ih hitems]
      simp [addSelectItem, itemName, hitem]

theorem foldl_addAssignment (items : List NamedExpr) (stmt : QLUpdate) :
    items.foldl addAssignment stmt = { stmt with
      names := stmt.names ++ items.map Prod.fst, values := stmt.values ++ items.map Prod.snd } := by
  induction items generalizing stmt with
  | nil => simp
  | cons item items ih =>
      rw [List.foldl_cons, ih]
      simp [addAssignment]

theorem select_sentence {stmt : QLSelect} (h : stmt.WellFormed) :
    Grammar.Statement (QLStatement.select stmt).tokens (.select stmt) := by
  obtain ⟨hfilter, hlimit⟩ := clauses_sentence h.scan
  obtain ⟨item, items, hitems⟩ : ∃ item items, stmt.names.zip stmt.output = item :: items := by
    refine List.exists_cons_of_ne_nil fun he => h.nonempty ?_
    have hlen := congrArg List.length he
    rw [List.length_zip, h.parallel, Nat.min_self] at hlen
    exact List.eq_nil_of_length_eq_zero hlen
  have hwf := h.items
  rw [hitems] at hwf
  have hlist : Grammar.SelectList (commaList ((item :: items).map itemTokens))
      (items.foldl addSelectItem (addSelectItem { scan := { table := [] } } item)) :=
    listed_commaList fun item hitem => (item_sentence (hwf item hitem)).1
  rw [← List.foldl_cons, foldl_addSelectItem fun i hi => (item_sentence (hwf i hi)).2, ← hitems,
    List.map_fst_zip h.parallel.le, List.map_snd_zip h.parallel.ge] at hlist
  have hsentence := Grammar.Statement.select
    (@Grammar.SelectStmt.mk _ _ _ _ stmt.scan.table _ _ hlist hfilter hlimit) .empty
  rw [scan_of h.scan] at hsentence
  rw [QLStatement.tokens, QLScan.clauses]
  simpa using hsentence

theorem update_sentence {stmt : QLUpdate} (h : stmt.WellFormed) :
    Grammar.Statement (QLStatement.update stmt).tokens (.update stmt) := by
  obtain ⟨hfilter, hlimit⟩ := clauses_sentence h.scan
  obtain ⟨item, items, hitems⟩ : ∃ item items, stmt.names.zip stmt.values = item :: items := by
    refine List.exists_cons_of_ne_nil fun he => h.nonempty ?_
    have hlen := congrArg List.length he
    rw [List.length_zip, ← h.parallel, Nat.min_self] at hlen
    exact List.eq_nil_of_length_eq_zero hlen
  have hwf := h.items
  rw [hitems] at hwf
  have hlist : Grammar.SetList (commaList ((item :: items).map assignmentTokens))
      (items.foldl addAssignment
        (addAssignment { scan := { table := [] }, names := [], values := [] } item)) :=
    listed_commaList fun item hitem => .mk ((hwf item hitem).2.expr 0)
  rw [← List.foldl_cons, foldl_addAssignment, ← hitems, List.map_fst_zip h.parallel.le,
    List.map_snd_zip h.parallel.ge] at hlist
  have hsentence := Grammar.Statement.update
    (@Grammar.UpdateStmt.mk _ _ _ _ stmt.scan.table _ _ hlist hfilter hlimit) .empty
  rw [scan_of h.scan] at hsentence
  rw [QLStatement.tokens, QLScan.clauses]
  simpa using hsentence

theorem delete_sentence {stmt : QLDelete} (h : stmt.scan.WellFormed) :
    Grammar.Statement (QLStatement.delete stmt).tokens (.delete stmt) := by
  obtain ⟨hfilter, hlimit⟩ := clauses_sentence h
  have hsentence := Grammar.Statement.delete
    (@Grammar.DeleteStmt.mk _ _ stmt.scan.table _ _ hfilter hlimit) .empty
  rw [scan_of h] at hsentence
  rw [QLStatement.tokens, QLScan.clauses]
  simpa using hsentence

theorem rowTokens_rowFromExpr {n : QLNode} (h : n.Writable) : rowTokens (rowFromExpr n) = n.tokens 0 := by
  cases h with
  | @tup kids hlen _ =>
      match kids, hlen with
      | _ :: _ :: _, _ => rfl
  | _ => rfl

theorem row_sentence {row : List QLNode} (h : ∃ n : QLNode, n.Writable ∧ row = rowFromExpr n) :
    Grammar.ValueRow (rowTokens row) row := by
  obtain ⟨n, hn, rfl⟩ := h
  rw [rowTokens_rowFromExpr hn]
  exact .mk (hn.expr 0)

theorem insert_sentence {stmt : QLInsert} (h : stmt.WellFormed) :
    Grammar.Statement (QLStatement.insert stmt).tokens (.insert stmt) := by
  have hnames : Grammar.ColList (commaList (stmt.names.map keyTokens)) stmt.names :=
    items_commaList h.columns fun _ _ => .mk
  have hrows : Grammar.ValueRows (commaList (stmt.values.map rowTokens)) stmt.values :=
    items_commaList h.nonempty fun row hrow => row_sentence (h.rows row hrow)
  have hsentence := Grammar.Statement.insert
    (@Grammar.InsertStmt.mk _ _ stmt.table _ _ hnames hrows) .empty
  have hmode := h.mode
  obtain ⟨table, mode, names, values⟩ := stmt
  subst hmode
  rw [List.append_nil] at hsentence
  exact hsentence

theorem colDef_typeName (name : Bytes) {type : ValueType} (h : type ≠ .error) :
    colDef name (typeName type) = .ok (name, type) := by
  have hknown : valueTypeFromName (typeName type) = some type := by
    cases type with
    | error => exact absurd rfl h
    | int64 => decide
    | bytes => decide
  rw [colDef, hknown]

/-- Among distinct names, those that are not the first ones come behind them. -/
theorem filter_notMem_take {cols : List ColDef} (h : (cols.map Prod.fst).Nodup) (k : Nat) :
    (cols.filter fun col => col.1 ∉ (cols.map Prod.fst).take k) = cols.drop k := by
  induction cols generalizing k with
  | nil => simp
  | cons col cols ih =>
      rw [List.map_cons, List.nodup_cons] at h
      cases k with
      | zero => simp
      | succ k =>
          rw [List.map_cons, List.take_succ_cons, List.drop_succ_cons, ← ih h.2 k,
            List.filter_cons_of_neg (by simp)]
          refine List.filter_congr fun c hc => decide_eq_decide.mpr (not_congr ?_)
          have hne : c.1 ≠ col.1 := fun he => h.1 (he ▸ List.mem_map_of_mem hc)
          rw [List.mem_cons]
          exact or_iff_right hne

/-- **The definition is built again** from its columns and its key. -/
theorem buildTableDef_self {stmt : QLCreateTable} (h : stmt.WellFormed)
    (hclause : stmt.tdef.npkeys < 2 ^ 31) :
    buildTableDef stmt.tdef.name (stmt.tdef.cols.zip stmt.tdef.types)
      (stmt.tdef.cols.take stmt.tdef.npkeys) = .ok stmt.tdef := by
  have hnames : (stmt.tdef.cols.zip stmt.tdef.types).map Prod.fst = stmt.tdef.cols :=
    List.map_fst_zip h.parallel.le
  have htypes : (stmt.tdef.cols.zip stmt.tdef.types).map Prod.snd = stmt.tdef.types :=
    List.map_snd_zip h.parallel.ge
  have hpkeys := h.pkeys
  have hk : (stmt.tdef.npkeys : Int) = stmt.tdef.pkeys := by
    rw [TableDef.npkeys]
    omega
  have hlen : (stmt.tdef.cols.take stmt.tdef.npkeys).length = stmt.tdef.npkeys := by
    rw [List.length_take]
    omega
  refine buildTableDef_eq_ok.mpr ⟨by rw [hnames]; exact h.distinct, h.distinct.sublist
    (List.take_sublist _ _), (stmt.tdef.cols.zip stmt.tdef.types).take stmt.tdef.npkeys, ?_,
    fun col hcol => List.mem_of_mem_take hcol, ?_⟩
  · rw [List.map_take, hnames]
  · have hfilter := filter_notMem_take (by rw [hnames]; exact h.distinct) stmt.tdef.npkeys
    rw [hnames] at hfilter
    rw [hfilter, List.take_append_drop, castInt_of_lt (by rwa [hlen]), hlen, hk]
    obtain ⟨⟨name, types, cols, pkeys, indexes, keyPrefix, indexPrefixes⟩⟩ := stmt
    obtain ⟨hzero, hindexes, hindexPrefixes⟩ := h.bare
    dsimp only at hzero hindexes hindexPrefixes hnames htypes
    rw [TableDef.addCols, TableDef.setPkeys, hnames, htypes, hzero, hindexes, hindexPrefixes]
    rfl

theorem create_sentence {stmt : QLCreateTable} (h : stmt.WellFormed)
    (hclause : stmt.tdef.npkeys < 2 ^ 31) :
    Grammar.Statement (QLStatement.createTable stmt).tokens (.createTable stmt) := by
  have hpkeys := h.pkeys
  have hk : 0 < stmt.tdef.npkeys := by
    rw [TableDef.npkeys]
    omega
  have hne : stmt.tdef.cols ≠ [] := fun he => by
    rw [he] at hpkeys
    simp at hpkeys
    omega
  have hzip : stmt.tdef.cols.zip (stmt.tdef.types.map typeName) =
      (stmt.tdef.cols.zip stmt.tdef.types).map fun col => (col.1, typeName col.2) := by
    rw [List.zip_map_right]
    rfl
  have hdecls : Grammar.ColDefs (commaList ((stmt.tdef.cols.zip (stmt.tdef.types.map typeName)).map
      declTokens)) (stmt.tdef.cols.zip stmt.tdef.types) := by
    rw [hzip, List.map_map]
    refine items_commaList (fun he => hne ?_) fun col hcol => ?_
    · have hlen := congrArg List.length he
      rw [List.length_zip, ← h.parallel, Nat.min_self] at hlen
      exact List.eq_nil_of_length_eq_zero hlen
    · exact .mk (colDef_typeName col.1 (h.types _ (List.of_mem_zip hcol).2))
  have hkeys : Grammar.ColList (commaList ((stmt.tdef.cols.take stmt.tdef.npkeys).map keyTokens))
      (stmt.tdef.cols.take stmt.tdef.npkeys) := by
    refine items_commaList (fun he => ?_) fun _ _ => .mk
    rw [List.take_eq_nil_iff] at he
    exact he.elim (Nat.ne_of_gt hk) hne
  have hsentence := Grammar.Statement.create (@Grammar.CreateStmt.mk stmt.tdef.name _ _ _ _ stmt.tdef
    hdecls (.mk hkeys) (buildTableDef_self h hclause)) .empty
  rw [QLStatement.tokens, createTokens]
  simpa using hsentence

/-! ## What is written is spelled -/

theorem spelled_fixed {t : Token} (h : ∃ entry ∈ fixedTokens, entry.2 = t) : ∃ w, Spells w t := by
  obtain ⟨entry, hentry, rfl⟩ := h
  exact ⟨_, .fixed hentry (fixedTokens_lower entry hentry)⟩

@[simp] theorem spelled_nil : Spelled [] := fun _ h => absurd h List.not_mem_nil

@[simp] theorem spelled_cons {t : Token} {ts : List Token} :
    Spelled (t :: ts) ↔ (∃ w, Spells w t) ∧ Spelled ts := List.forall_mem_cons

@[simp] theorem spelled_append {ts us : List Token} : Spelled (ts ++ us) ↔ Spelled ts ∧ Spelled us :=
  List.forall_mem_append

theorem spelled_flatMap {α : Type} {f : α → List Token} {xs : List α}
    (h : ∀ x ∈ xs, Spelled (f x)) :
    Spelled (xs.flatMap fun x => .comma :: f x) := by
  intro t ht
  obtain ⟨x, hx, ht⟩ := List.mem_flatMap.mp ht
  rcases List.mem_cons.mp ht with rfl | ht
  · exact spelled_fixed (by decide)
  · exact h x hx t ht

theorem spelled_commaList {α : Type} {f : α → List Token} {xs : List α}
    (h : ∀ x ∈ xs, Spelled (f x)) : Spelled (commaList (xs.map f)) := by
  cases xs with
  | nil => exact spelled_nil
  | cons x xs =>
      obtain ⟨hx, hxs⟩ := List.forall_mem_cons.mp h
      rw [List.map_cons, commaList, List.flatMap_map]
      exact spelled_append.mpr ⟨hx, spelled_flatMap hxs⟩

theorem spelled_parens {ts : List Token} (h : Spelled ts) (wanted : Bool) :
    Spelled (parens wanted ts) := by
  unfold parens
  split
  · simp [h, spelled_fixed (by decide : ∃ entry ∈ fixedTokens, entry.2 = .lparen),
      spelled_fixed (by decide : ∃ entry ∈ fixedTokens, entry.2 = .rparen)]
  · exact h

theorem spelled_infix {op : Token} {lhs rhs : Nat → List Token} (hop : ∃ w, Spells w op)
    (hlhs : ∀ k, Spelled (lhs k)) (hrhs : ∀ k, Spelled (rhs k)) (k : Nat) :
    Spelled (infixTokens op lhs rhs k) := by
  unfold infixTokens
  split
  · exact spelled_parens (by simp [hop, hlhs, hrhs]) _
  · exact spelled_nil

theorem spelled_prefix {op : Token} {kid : Nat → List Token} (hop : ∃ w, Spells w op)
    (hkid : ∀ k, Spelled (kid k)) (k : Nat) : Spelled (prefixTokens op kid k) := by
  unfold prefixTokens
  split
  · exact spelled_parens (by simp [hop, hkid]) _
  · exact spelled_nil

theorem Name.spelled {name : Bytes} (h : Name name) : ∃ w, Spells w (.ident name) :=
  ⟨_, spells_ident h⟩

theorem QLNode.Writable.spelled {n : QLNode} (h : n.Writable) : ∀ k, Spelled (n.tokens k) := by
  induction h with
  | int64 hv => exact fun _ => spelled_cons.mpr ⟨⟨_, spells_num hv⟩, spelled_nil⟩
  | str text =>
      obtain ⟨ps, _, hvalue⟩ := exists_literalText text
      exact fun _ => spelled_cons.mpr ⟨⟨_, hvalue ▸ Spells.str ps⟩, spelled_nil⟩
  | sym hname => exact fun _ => spelled_cons.mpr ⟨hname.spelled, spelled_nil⟩
  | @tup kids _ _ ih =>
      intro k
      have hkids : Spelled (kidsTokens kids) := by
        rw [kidsTokens_eq]
        exact spelled_flatMap fun kid hkid => ih kid hkid 0
      have hdrop : Spelled ((kidsTokens kids).drop 1) := fun t ht => hkids t (List.mem_of_mem_drop ht)
      rw [QLNode.tokens]
      exact spelled_append.mpr ⟨spelled_cons.mpr ⟨spelled_fixed (by decide), hdrop⟩,
        spelled_cons.mpr ⟨spelled_fixed (by decide), spelled_nil⟩⟩
  | cmp type _ _ ihl ihr =>
      exact spelled_infix (spelled_fixed (by cases type <;> decide)) ihl ihr
  | arith type _ _ ihl ihr =>
      exact spelled_infix (spelled_fixed (by cases type <;> decide)) ihl ihr
  | logic type _ _ ihl ihr =>
      exact spelled_infix (spelled_fixed (by cases type <;> decide)) ihl ihr
  | not _ ih => exact spelled_prefix (spelled_fixed (by decide)) ih
  | neg _ ih => exact spelled_prefix (spelled_fixed (by decide)) ih

theorem num_spelled {v : Int64} (h : 0 ≤ v.toInt) : ∃ w, Spells w (.num v) := ⟨_, spells_num h⟩

theorem QLScan.WellFormed.spelled {req : QLScan} (h : req.WellFormed) : Spelled req.clauses := by
  have hfilter : Spelled (filterTokens req.filter) := by
    rcases h.filter with he | hw
    · rw [he]
      exact spelled_nil
    · rw [filterTokens, hw.isUninit]
      exact spelled_cons.mpr ⟨spelled_fixed (by decide), hw.spelled 0⟩
  have hlimit : Spelled (limitTokens req.offset req.limit) := by
    unfold limitTokens
    split
    · exact spelled_nil
    · rename_i hne
      obtain ⟨hoffset, hlimit⟩ := h.range.resolve_left fun he => hne he.2
      simp only [spelled_cons]
      exact ⟨spelled_fixed (by decide), num_spelled hoffset, spelled_fixed (by decide),
        num_spelled hlimit, spelled_nil⟩
  exact spelled_append.mpr ⟨hfilter, hlimit⟩

theorem spelled_item {item : NamedExpr} (h : ItemWellFormed item) : Spelled (itemTokens item) := by
  rcases h with rfl | ⟨hname, hw⟩
  · exact spelled_cons.mpr ⟨spelled_fixed (by decide), spelled_nil⟩
  · obtain ⟨name, n⟩ := item
    have htokens : itemTokens (name, n) = n.tokens 0 ++ [.as, .ident name] := by
      cases hw <;> rfl
    rw [htokens]
    exact spelled_append.mpr ⟨hw.spelled 0, spelled_cons.mpr ⟨spelled_fixed (by decide),
      spelled_cons.mpr ⟨hname.spelled, spelled_nil⟩⟩⟩

theorem typeName_name {type : ValueType} (h : type ≠ .error) : Name (typeName type) := by
  have hletters : ∀ w ∈ ([.ofString "INT64", .ofString "BYTES"] : List Bytes),
      w.head?.any letters.contains = true ∧ w.tail.all (letters ++ digits).contains = true ∧
        ∀ entry ∈ fixedTokens, w.map toLower ≠ Bytes.ofString entry.1 := by decide
  have hname : ∀ w ∈ ([.ofString "INT64", .ofString "BYTES"] : List Bytes), Name w := by
    intro w hw
    obtain ⟨hhead, htail, hfree⟩ := hletters w hw
    cases w with
    | nil => cases hhead
    | cons c rest =>
        refine ⟨ident_iff.mpr ⟨c, rest, rfl, List.contains_iff_mem.mp hhead, fun d hd => ?_⟩, hfree⟩
        exact List.contains_iff_mem.mp (List.all_eq_true.mp htail d hd)
  cases type with
  | error => exact absurd rfl h
  | int64 => exact hname _ (by decide)
  | bytes => exact hname _ (by decide)

theorem spelled_row {row : List QLNode} (h : ∃ n : QLNode, n.Writable ∧ row = rowFromExpr n) :
    Spelled (rowTokens row) := by
  obtain ⟨n, hn, rfl⟩ := h
  rw [rowTokens_rowFromExpr hn]
  exact hn.spelled 0

theorem spelled_names {names : List Bytes} (h : ∀ name ∈ names, Name name) :
    Spelled (commaList (names.map keyTokens)) :=
  spelled_commaList fun name hname => spelled_cons.mpr ⟨(h name hname).spelled, spelled_nil⟩

/-- **A statement is written in tokens that have a text.** -/
theorem QLStatement.WellFormed.spelled {stmt : QLStatement} (h : stmt.WellFormed) :
    Spelled stmt.tokens := by
  have hfixed : ∀ t ∈ fixedTokens.map Prod.snd, ∃ w, Spells w t := fun t ht =>
    spelled_fixed (by simpa using List.mem_map.mp ht)
  cases stmt with
  | createTable stmt =>
      have hdecls : Spelled (commaList ((stmt.tdef.cols.zip (stmt.tdef.types.map typeName)).map
          declTokens)) := by
        refine spelled_commaList fun decl hdecl => ?_
        obtain ⟨hcol, htype⟩ := List.of_mem_zip hdecl
        obtain ⟨type, hmem, he⟩ := List.mem_map.mp htype
        exact spelled_cons.mpr ⟨(h.cols _ hcol).spelled, spelled_cons.mpr
          ⟨he ▸ (typeName_name (h.types type hmem)).spelled, spelled_nil⟩⟩
      have hkeys : Spelled (commaList ((stmt.tdef.cols.take stmt.tdef.npkeys).map keyTokens)) :=
        spelled_names fun name hname => h.cols name (List.mem_of_mem_take hname)
      simp only [QLStatement.tokens, createTokens, spelled_append, spelled_cons, hdecls, hkeys,
        h.name.spelled, spelled_nil, and_true, true_and]
      exact ⟨⟨⟨hfixed _ (by decide), hfixed _ (by decide), hfixed _ (by decide)⟩, hfixed _ (by decide),
        hfixed _ (by decide), hfixed _ (by decide), hfixed _ (by decide)⟩, hfixed _ (by decide),
        hfixed _ (by decide)⟩
  | select stmt =>
      have hitems := spelled_commaList fun item hitem => spelled_item (h.items item hitem)
      simp only [QLStatement.tokens, spelled_append, spelled_cons, hitems, h.scan.table.spelled,
        h.scan.spelled, and_true]
      exact ⟨hfixed _ (by decide), hfixed _ (by decide)⟩
  | insert stmt =>
      have hrows := spelled_commaList fun row hrow => spelled_row (h.rows row hrow)
      simp only [QLStatement.tokens, spelled_append, spelled_cons, spelled_names h.names, hrows,
        h.table.spelled, and_true, true_and]
      exact ⟨⟨hfixed _ (by decide), hfixed _ (by decide), hfixed _ (by decide)⟩,
        hfixed _ (by decide), hfixed _ (by decide)⟩
  | update stmt =>
      have hitems := spelled_commaList (f := assignmentTokens) fun item hitem => spelled_cons.mpr
        ⟨(h.items item hitem).1.spelled, spelled_cons.mpr
          ⟨hfixed _ (by decide), (h.items item hitem).2.spelled 0⟩⟩
      simp only [QLStatement.tokens, spelled_append, spelled_cons, hitems, h.scan.table.spelled,
        h.scan.spelled, and_true, true_and]
      exact ⟨hfixed _ (by decide), hfixed _ (by decide)⟩
  | delete stmt =>
      simp only [QLStatement.tokens, spelled_cons, QLScan.WellFormed.table h |>.spelled,
        QLScan.WellFormed.spelled h, and_true]
      exact ⟨hfixed _ (by decide), hfixed _ (by decide)⟩

/-! ## The round trip -/

theorem length_tokensText (ts : List Token) : ts.length ≤ (tokensText ts).length := by
  induction ts with
  | nil => exact Nat.zero_le _
  | cons t ts ih =>
      rw [tokensText] at ih ⊢
      simp only [List.flatMap_cons, List.length_append, List.length_cons]
      omega

theorem QLStatement.WellFormed.sentence {stmt : QLStatement} (h : stmt.WellFormed)
    (hsize : stmt.text.length < 2 ^ 31) : Grammar.Statement stmt.tokens stmt := by
  cases stmt with
  | createTable stmt =>
      refine create_sentence h ?_
      have hlen := length_tokensText (QLStatement.createTable stmt).tokens
      have hkeys : (stmt.tdef.cols.take stmt.tdef.npkeys).length ≤ _ :=
        length_commaList (f := keyTokens) fun key => List.cons_ne_nil _ _
      have hpkeys := QLCreateTable.WellFormed.pkeys h
      simp only [QLStatement.tokens, createTokens, List.length_append] at hlen
      rw [List.length_take] at hkeys
      simp only [TableDef.npkeys] at hkeys hlen ⊢
      rw [QLStatement.text, QLStatement.tokens] at hsize
      simp only [createTokens, TableDef.npkeys] at hsize
      omega
  | select stmt => exact select_sentence h
  | insert stmt => exact insert_sentence h
  | update stmt => exact update_sentence h
  | delete stmt => exact delete_sentence h

/-- **The parser is a left inverse of writing.** -/
theorem parseStatement_text {stmt : QLStatement} (h : stmt.WellFormed)
    (hsize : stmt.text.length < 2 ^ 31) : parseStatement stmt.text = some stmt := by
  obtain ⟨symbols, hlex, htokens⟩ := lex_eq_ok_iff.mpr (layout_tokensText h.spelled)
  exact parseStatement_eq_some.mpr
    ⟨_, symbols, stmt.tokens, scanned_of_lt hsize, hlex, htokens, h.sentence hsize⟩

end SqlDb
