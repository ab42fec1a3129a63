import SqlDb.Base.Parsing
import SqlDb.Base.Precedence
import SqlDb.Ql.Create
import SqlDb.Ql.Exec

/-!
# The grammar of the query language

A language for each nonterminal of the grammar, and a constructor for each of its rules; what
a sentence means is what the rule's action builds. The lists are recursive on the left, as
in the grammar. Expressions are the operator grammar of the precedence declarations.
-/

namespace SqlDb

open Parsing

/-! ## Statements -/

structure QLSelect where
  scan : QLScan
  /-- Parallel to `output`. -/
  names : List Bytes := []
  output : List QLNode := []

structure QLInsert where
  table : Bytes
  mode : UpdateMode := .insertOnly
  names : List Bytes
  /-- One entry for each row, parallel to `names`. -/
  values : List (List QLNode)

structure QLCreateTable where
  tdef : TableDef

inductive QLStatement where
  | createTable (stmt : QLCreateTable)
  | select (stmt : QLSelect)
  | insert (stmt : QLInsert)
  | update (stmt : QLUpdate)
  | delete (stmt : QLDelete)

/-! ## Actions -/

abbrev NamedExpr := Bytes × QLNode

/-- The columns of a row: a tuple's, or the one expression. -/
def rowFromExpr : QLNode → List QLNode
  | .tup kids => kids
  | expr => [expr]

/-- An item's name: as written, or the column's, or made from its place. -/
def itemName (place : Nat) (item : NamedExpr) : Bytes :=
  if item.1 = [] then
    match item.2 with
    | .sym name => name
    | _ => .ofString "col" ++ decimal place
  else item.1

def addSelectItem (sel : QLSelect) (item : NamedExpr) : QLSelect :=
  { sel with
    names := sel.names ++ [itemName (sel.output.length + 1) item]
    output := sel.output ++ [item.2] }

def addAssignment (stmt : QLUpdate) (item : NamedExpr) : QLUpdate :=
  { stmt with names := stmt.names ++ [item.1], values := stmt.values ++ [item.2] }

/-- The clauses behind a statement's table. -/
def QLScan.of (table : Bytes) (filter : QLNode) (range : Int64 × Int64) : QLScan :=
  { table := table, filter := filter, offset := range.1, limit := range.2 }

/-! ## Expressions -/

/-- The precedence declarations, loosest first. NOT, at 3, and the unary minus, at 7, are prefix
operators. -/
def binaryLevel : Token → Option (Nat × Precedence.Assoc)
  | .or => some (1, .left)
  | .and => some (2, .left)
  | .eq | .ne | .lt | .le | .gt | .ge => some (4, .nonassoc)
  | .plus | .minus => some (5, .left)
  | .star | .slash | .percent => some (6, .left)
  | _ => none

def unaryLevel : Token → Option Nat
  | .not => some 3
  | .minus => some 7
  | _ => none

/-- `ql_binop`, with the tag of the operator's rule. -/
def binop : Token → QLNode → QLNode → QLNode
  | .or => .logic .or
  | .and => .logic .and
  | .eq => .cmp .eq
  | .ne => .cmp .ne
  | .lt => .cmp .lt
  | .le => .cmp .le
  | .gt => .cmp .gt
  | .ge => .cmp .ge
  | .plus => .arith .add
  | .minus => .arith .sub
  | .star => .arith .mul
  | .slash => .arith .div
  | .percent => .arith .mod
  | _ => fun _ _ => .uninit

/-- `ql_unop` -/
def unop : Token → QLNode → QLNode
  | .not => .not
  | .minus => .neg
  | _ => fun _ => .uninit

/-- The rules of `expr` and `atom`. -/
def exprGrammar : Precedence.Grammar Token QLNode where
  atom
    | .num v => some (.int64 v)
    | .str text => some (.str text)
    | .ident name => some (.sym name)
    | _ => none
  unaryLevel := unaryLevel
  binaryLevel := binaryLevel
  lparen := .lparen
  comma := .comma
  rparen := .rparen
  unary := unop
  binary := binop
  tuple := .tup
  atom_unary t level h := by cases t <;> first | rfl | cases h
  atom_lparen := rfl
  unaryLevel_lparen := rfl
  binaryLevel_comma := rfl
  binaryLevel_rparen := rfl
  rparen_ne_comma := by decide

/-! ## Sentences -/

namespace Grammar

def Expr : Language Token QLNode := fun ts n =>
  ∃ p, exprGrammar.Reads p ∧ p.tokens = ts ∧ p.value = n

inductive Ident : Language Token Bytes
  | mk {name : Bytes} : Ident [.ident name] name

/-- A list whose meaning is that of its items. -/
def Items {α : Type} (R : Language Token α) : Language Token (List α) :=
  Listed .comma R (fun a => [a]) fun as a => as ++ [a]

def ColList : Language Token (List Bytes) := Items Ident

inductive PkClause : Language Token (List Bytes)
  | mk {ts : List Token} {pk : List Bytes} : ColList ts pk →
      PkClause (.primary :: .key :: .lparen :: ts ++ [.rparen]) pk

inductive ColDef : Language Token SqlDb.ColDef
  | mk {name type : Bytes} {col : SqlDb.ColDef} : colDef name type = .ok col →
      ColDef [.ident name, .ident type] col

def ColDefs : Language Token (List SqlDb.ColDef) := Items ColDef

inductive CreateStmt : Language Token QLCreateTable
  | mk {name : Bytes} {ds ks : List Token} {cols : List SqlDb.ColDef} {pk : List Bytes}
      {tdef : TableDef} : ColDefs ds cols → PkClause ks pk → buildTableDef name cols pk = .ok tdef →
      CreateStmt (.create :: .table :: .ident name :: .lparen :: ds ++ .comma :: ks ++ [.rparen])
        ⟨tdef⟩

inductive WhereKw : Token → Prop
  | «where» : WhereKw .where
  | filter : WhereKw .filter

inductive FilterClause : Language Token QLNode
  | empty : FilterClause [] .uninit
  | mk {kw : Token} {ts : List Token} {n : QLNode} : WhereKw kw → Expr ts n →
    FilterClause (kw :: ts) n

inductive LimitClause : Language Token (Int64 × Int64)
  | empty : LimitClause [] (0, -1)
  | count {n : Int64} : LimitClause [.limit, .num n] (0, n)
  | offset {k n : Int64} : LimitClause [.limit, .num k, .comma, .num n] (k, n)

inductive SelectItem : Language Token NamedExpr
  | star : SelectItem [.star] (.ofString "*", .star)
  | expr {ts : List Token} {n : QLNode} : Expr ts n → SelectItem ts ([], n)
  | named {ts : List Token} {n : QLNode} {name : Bytes} : Expr ts n →
      SelectItem (ts ++ [.as, .ident name]) (name, n)

def SelectList : Language Token QLSelect :=
  Listed .comma SelectItem (addSelectItem { scan := { table := [] } }) addSelectItem

inductive SelectStmt : Language Token QLSelect
  | mk {is fs ls : List Token} {sel : QLSelect} {table : Bytes} {filter : QLNode}
      {range : Int64 × Int64} : SelectList is sel → FilterClause fs filter → LimitClause ls range →
      SelectStmt (.select :: is ++ .from :: .ident table :: fs ++ ls)
        { sel with scan := .of table filter range }

inductive ValueRow : Language Token (List QLNode)
  | mk {ts : List Token} {n : QLNode} : Expr ts n → ValueRow ts (rowFromExpr n)

def ValueRows : Language Token (List (List QLNode)) := Items ValueRow

inductive InsertStmt : Language Token QLInsert
  | mk {cs vs : List Token} {table : Bytes} {names : List Bytes} {values : List (List QLNode)} :
      ColList cs names → ValueRows vs values →
      InsertStmt (.insert :: .into :: .ident table :: .lparen :: cs ++ .rparen :: .values :: vs)
        { table := table, names := names, values := values }

inductive Assignment : Language Token NamedExpr
  | mk {ts : List Token} {name : Bytes} {n : QLNode} : Expr ts n →
      Assignment (.ident name :: .eq :: ts) (name, n)

def SetList : Language Token QLUpdate :=
  Listed .comma Assignment (addAssignment { scan := { table := [] }, names := [], values := [] })
    addAssignment

inductive UpdateStmt : Language Token QLUpdate
  | mk {ss fs ls : List Token} {stmt : QLUpdate} {table : Bytes} {filter : QLNode}
      {range : Int64 × Int64} : SetList ss stmt → FilterClause fs filter → LimitClause ls range →
      UpdateStmt (.update :: .ident table :: .set :: ss ++ fs ++ ls)
        { stmt with scan := .of table filter range }

inductive DeleteStmt : Language Token QLDelete
  | mk {fs ls : List Token} {table : Bytes} {filter : QLNode} {range : Int64 × Int64} :
      FilterClause fs filter → LimitClause ls range →
      DeleteStmt (.delete :: .from :: .ident table :: fs ++ ls) ⟨.of table filter range⟩

inductive OptSemi : List Token → Prop
  | empty : OptSemi []
  | semi : OptSemi [.semi]

inductive Statement : Language Token QLStatement
  | create {ts us : List Token} {stmt : QLCreateTable} : CreateStmt ts stmt → OptSemi us →
      Statement (ts ++ us) (.createTable stmt)
  | select {ts us : List Token} {stmt : QLSelect} : SelectStmt ts stmt → OptSemi us →
      Statement (ts ++ us) (.select stmt)
  | insert {ts us : List Token} {stmt : QLInsert} : InsertStmt ts stmt → OptSemi us →
      Statement (ts ++ us) (.insert stmt)
  | update {ts us : List Token} {stmt : QLUpdate} : UpdateStmt ts stmt → OptSemi us →
      Statement (ts ++ us) (.update stmt)
  | delete {ts us : List Token} {stmt : QLDelete} : DeleteStmt ts stmt → OptSemi us →
      Statement (ts ++ us) (.delete stmt)

end Grammar

end SqlDb
