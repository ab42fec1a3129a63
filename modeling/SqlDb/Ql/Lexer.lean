import SqlDb.Base.Bytes
import SqlDb.Base.Regex
import SqlDb.Catalog.TableDef

/-!
# The scanner of the query language

A statement's text is cut into tokens by the rules of the scanner's source, in their order:
the rule that matches the most text fires, the first of them when several match as much. A
rule skips its text, makes a token of it or rejects it.

The scanner counts lines and columns as it goes. Every firing marks where the text it took
begins; the end of the input fires no rule and keeps the last mark.
-/

namespace SqlDb

open RegularExpression

inductive Token where
  | endOfInput
  | num (v : Int64)
  | ident (name : Bytes)
  | str (text : Bytes)
  | select
  | «from»
  | «where»
  | filter
  | limit
  | insert
  | into
  | values
  | update
  | set
  | delete
  | create
  | table
  | primary
  | key
  | «as»
  | lparen
  | rparen
  | comma
  | semi
  | and
  | or
  | not
  | eq
  | ne
  | lt
  | le
  | gt
  | ge
  | plus
  | minus
  | star
  | slash
  | percent
deriving DecidableEq

/-- Where the scanner is: the part of `ParseContext` it reads and writes. Two `int`s, which count at
most the bytes that the scanner is given, fewer than 2^31. -/
structure Position where
  line : Nat := 1
  col : Nat := 1
deriving DecidableEq

/-- The text from one position to another. -/
structure Location where
  start : Position
  stop : Position
deriving DecidableEq

structure Symbol where
  token : Token
  loc : Location
deriving DecidableEq

structure SyntaxError where
  loc : Location
  msg : Bytes
deriving DecidableEq

/-! ## Actions -/

/-- What the byte after a backslash stands for: `n`, `t`, `r` and `0` for bytes of their own. -/
def unescape (c : UInt8) : UInt8 :=
  if c = 110 then newline else if c = 116 then 9 else if c = 114 then 13 else if c = 48 then 0 else c

/-- The loop of `unquote`, on the text from `i` on; the last byte is the closing quote. -/
def unquoteLoop : Bytes → Bytes
  | c :: next :: rest =>
      if c = 39 ∧ next = 39 then 39 :: unquoteLoop rest
      else if c ≠ 92 then c :: unquoteLoop (next :: rest)
      else unescape next :: unquoteLoop rest
  | _ => []

/-- A literal's body, decoded. Its length is handed over as an `int`, which that of a part of the
scanned bytes fits. -/
def unquote (text : Bytes) : Bytes := unquoteLoop (text.drop 1)

/-- The loop of `count_lines`: the lines so far and the last newline. -/
def countLinesLoop : Bytes → Nat → Nat → Option Nat → Nat × Option Nat
  | [], _, line, lastNl => (line, lastNl)
  | c :: text, i, line, lastNl =>
      if c = newline then countLinesLoop text (i + 1) (line + 1) (some i)
      else countLinesLoop text (i + 1) line lastNl

/-- The position after a token that may hold newlines. -/
def countLines (pos : Position) (text : Bytes) : Position :=
  match countLinesLoop text 0 pos.line none with
  | (line, none) => ⟨line, pos.col⟩
  | (line, some i) => ⟨line, text.length - i⟩

/-- What firing a rule comes to. -/
inductive Act where
  /-- The action falls through, and scanning goes on. -/
  | skip (pos : Position)
  | token (token : Token)
  | reject (msg : Bytes)

/-- A pattern, and the action on the text and the position after it. -/
structure Rule where
  pattern : RegularExpression UInt8
  action : Bytes → Position → Act

/-! ## Patterns -/

/-- `[lo-hi]` -/
def span (lo hi : Nat) : Bytes := ((List.range (hi + 1)).drop lo).map UInt8.ofNat

/-- `[^cs]` -/
def noneOf (cs : Bytes) : RegularExpression UInt8 :=
  oneOf ((span 0 255).filter fun c => !cs.contains c)

/-- A letter matches in either case. -/
def caseless (c : UInt8) : RegularExpression UInt8 :=
  if 97 ≤ c ∧ c ≤ 122 then oneOf [c, c - 32] else char c

/-- A quoted pattern of the source. -/
def literal (s : String) : RegularExpression UInt8 := ((Bytes.ofString s).map caseless).prod

def letters : Bytes := span 65 90 ++ span 97 122 ++ [95]

def digits : Bytes := span 48 57

/-! ## Rules -/

def spaceRule : Rule := ⟨oneOrMore (oneOf [32, 9, 13]), fun _ pos => .skip pos⟩

def newlineRule : Rule := ⟨char newline, fun _ pos => .skip ⟨pos.line + 1, 1⟩⟩

def lineCommentRule : Rule := ⟨literal "--" * (noneOf [newline]).star, fun _ pos => .skip pos⟩

def blockCommentRule : Rule :=
  ⟨literal "/*" * ((noneOf [42] + oneOrMore (char 42) * noneOf [42, 47]).star *
    (oneOrMore (char 42) * literal "/")), fun text pos => .skip (countLines pos text)⟩

/-- A token with one spelling. -/
def fixedRule (s : String) (token : Token) : Rule := ⟨literal s, fun _ _ => .token token⟩

/-- Keywords, operators and punctuation. -/
def fixedTokens : List (String × Token) :=
  [("select", .select), ("from", .from), ("where", .where), ("filter", .filter),
    ("limit", .limit), ("insert", .insert), ("into", .into), ("values", .values),
    ("update", .update), ("set", .set), ("delete", .delete), ("create", .create),
    ("table", .table), ("primary", .primary), ("key", .key), ("as", .as), ("and", .and),
    ("or", .or), ("not", .not), (">=", .ge), ("<=", .le), ("!=", .ne), ("<>", .ne), ("=", .eq),
    ("<", .lt), (">", .gt), ("+", .plus), ("-", .minus), ("*", .star), ("/", .slash),
    ("%", .percent), ("(", .lparen), (")", .rparen), (",", .comma), (";", .semi)]

def fixedRules : List Rule := fixedTokens.map fun entry => fixedRule entry.1 entry.2

/-- `strtoll` on digits, which cannot be negative. -/
def numRule : Rule :=
  ⟨oneOrMore (oneOf digits), fun text _ =>
    if digitsValue text < 2 ^ 63 then .token (.num (.ofNat (digitsValue text)))
    else .reject (.ofString "integer literal out of range: " ++ text)⟩

def identRule : Rule :=
  ⟨oneOf letters * (oneOf (letters ++ digits)).star, fun text _ => .token (.ident text)⟩

/-- One byte of a literal's body as it is, a backslash with what it escapes, or two quotes. -/
def strBody : RegularExpression UInt8 :=
  noneOf [39, 92, newline] + char 92 * noneOf [newline] + word [39, 39]

def strRule : Rule :=
  ⟨char 39 * (strBody.star * char 39), fun text _ => .token (.str (unquote text))⟩

/-- The quote is never closed. -/
def quoteRule : Rule := ⟨char 39, fun _ _ => .reject (.ofString "unterminated string literal")⟩

def otherRule : Rule :=
  ⟨noneOf [newline], fun text _ => .reject (.ofString "unexpected character: " ++ text.take 1)⟩

/-- The rules in their order. -/
def lexerRules : List Rule :=
  [spaceRule, newlineRule, lineCommentRule, blockCommentRule] ++ fixedRules ++
    [numRule, identRule, strRule, quoteRule, otherRule]

/-! ## Scanning -/

/-- How much of the input a rule matches. -/
def Rule.score (s : Bytes) (rule : Rule) : Nat := rule.pattern.matchLength s

/-- `YY_USER_ACTION`, as far as it moves the position. -/
def Position.advance (pos : Position) (n : Nat) : Position := ⟨pos.line, pos.col + n⟩

/-- The loop inside `yylex`; every round takes some of the input, so `fuel` its length suffices.
`tok` is where the text of the last firing began. -/
def yylexLoop (rules : List Rule) :
    Nat → Bytes → Position → Position → Except SyntaxError (Symbol × Bytes × Position)
  | 0, s, tok, pos => .ok (⟨.endOfInput, ⟨tok, pos⟩⟩, s, pos)
  | fuel + 1, s, tok, pos =>
      if s = [] then .ok (⟨.endOfInput, ⟨tok, pos⟩⟩, [], pos)
      else
        match best (Rule.score s) rules with
        -- the default rule, which drops one byte
        | none => yylexLoop rules fuel (s.drop 1) pos (pos.advance 1)
        | some rule =>
            let n := rule.score s
            match rule.action (s.take n) (pos.advance n) with
            | .skip pos' => yylexLoop rules fuel (s.drop n) pos pos'
            | .token token => .ok (⟨token, ⟨pos, pos.advance n⟩⟩, s.drop n, pos.advance n)
            | .reject msg => .error ⟨⟨pos, pos.advance n⟩, msg⟩

def yylex (s : Bytes) (pos : Position) : Except SyntaxError (Symbol × Bytes × Position) :=
  yylexLoop lexerRules s.length s pos pos

/-- The symbols the parser is handed, up to the end of the input. -/
def lexLoop : Nat → Bytes → Position → Except SyntaxError (List Symbol)
  | 0, _, _ => .ok []
  | fuel + 1, s, pos => do
      let (symbol, s, pos) ← yylex s pos
      if symbol.token = .endOfInput then
        return [symbol]
      let symbols ← lexLoop fuel s pos
      return symbol :: symbols

/-- A whole statement; there are at most as many tokens as bytes, and the end. -/
def lex (sql : Bytes) : Except SyntaxError (List Symbol) := lexLoop (sql.length + 1) sql {}

end SqlDb
