import Lua2wasm.Raw
import Lua2wasm.Lexer.Tokens
import Lua2wasm.Lib.Descent

/-!
# The parser

The syntax half of `parser.c`: the parsing functions from the tokens to the tree of `Raw.lean`, by recursive descent
and with a table of precedences for the operators. The scope operations that they do on the way are in `Resolve.lean`.
So an error of the source is the first one of the two halves.

`Nested` holds the two functions that all others call for what is nested in theirs, `parse_prec` and `parse_block`.
`nested` ties the knot, with fuel for the depth of the nesting. To read behind the last token, which the source does
not check, is a fault of its own.
-/

namespace Lua2wasm.Syntax

open Lexer (Token TokKind Sym)

/-- What ends parsing. -/
inductive ParseFault
  /-- `set_error_at`. -/
  | error (line : ℕ) (msg : String)
  /-- No fuel is left, or there is no token to read. -/
  | stuck
  deriving DecidableEq, Repr

/-- A parsing function. -/
abbrev Parse (α : Type) := Descent.Parser Token ParseFault α

/-- `TOK_NAMES`. -/
def tokKindName : TokKind → String
  | .eof => "EOF" | .error => "ERROR" | .ident => "IDENT" | .int => "INT" | .float => "FLOAT" | .string => "STRING"
  | .lparen => "(" | .rparen => ")" | .lbrace => "\x7b" | .rbrace => "\x7d" | .lbracket => "[" | .rbracket => "]"
  | .comma => "," | .semi => ";" | .colon => ":" | .dblcolon => "::" | .dot => "." | .concat => ".."
  | .ellipsis => "..." | .assign => "=" | .plus => "+" | .minus => "-" | .star => "*" | .slash => "/"
  | .dslash => "//" | .percent => "%" | .caret => "^" | .hash => "#" | .eq => "==" | .neq => "~=" | .lt => "<"
  | .le => "<=" | .gt => ">" | .ge => ">=" | .amp => "&" | .pipe => "|" | .tilde => "~" | .shl => "<<" | .shr => ">>"
  | .kwAnd => "and" | .kwBreak => "break" | .kwDo => "do" | .kwElse => "else" | .kwElseif => "elseif" | .kwEnd => "end"
  | .kwFalse => "false" | .kwFor => "for" | .kwFunction => "function" | .kwGoto => "goto" | .kwIf => "if"
  | .kwIn => "in" | .kwLocal => "local" | .kwNil => "nil" | .kwNot => "not" | .kwOr => "or" | .kwRepeat => "repeat"
  | .kwReturn => "return" | .kwThen => "then" | .kwTrue => "true" | .kwUntil => "until" | .kwWhile => "while"

/-! ## Reading tokens -/

/-- `peek`. -/
def peek : Parse Sym := Descent.peek Token.sym .stuck

/-- `peek_at`, one token on. -/
def peekSecond : Parse Sym := Descent.peekSecond Token.sym .stuck

/-- `advance`. -/
def advance : Parse Unit := Descent.advance .stuck

/-- `match`. -/
def matchTok (kind : TokKind) : Parse Bool := Descent.accept Token.sym .stuck (.tok kind)

/-- The line of the current token. -/
def peekLine : Parse ℕ := Descent.peek Token.line .stuck

/-- `set_error`, with a message that may name the current token. -/
def setError {α : Type} (msg : Token → String) : Parse α := Descent.failAt .stuck fun t => .error t.line (msg t)

/-- `expect`. -/
def expect (kind : TokKind) (what : String) : Parse Unit := do
  if ← matchTok kind then return ()
  else setError fun t => "expected " ++ what ++ ", got " ++ tokKindName t.kind

/-- A name, or an error. -/
def expectName (msg : String) : Parse String := do
  match ← peek with
  | .name s => do
    advance
    return s
  | _ => setError fun _ => msg

/-- A loop that collects values. -/
def many {α : Type} (more : Parse Bool) (item : Parse α) : Parse (List α) := Descent.many .stuck more item

/-! ## Operators -/

/-- `prec_of` and `binop_of`, of the tokens that are binary operators. -/
def binary : Sym → Option (BinOp × ℕ)
  | .tok .kwOr => some (.or, 1)
  | .tok .kwAnd => some (.and, 2)
  | .tok .eq => some (.eq, 3)
  | .tok .neq => some (.neq, 3)
  | .tok .lt => some (.lt, 3)
  | .tok .le => some (.le, 3)
  | .tok .gt => some (.gt, 3)
  | .tok .ge => some (.ge, 3)
  | .tok .pipe => some (.bor, 4)
  | .tok .tilde => some (.bxor, 5)
  | .tok .amp => some (.band, 6)
  | .tok .shl => some (.shl, 7)
  | .tok .shr => some (.shr, 7)
  | .tok .concat => some (.concat, 8)
  | .tok .plus => some (.add, 9)
  | .tok .minus => some (.sub, 9)
  | .tok .star => some (.mul, 10)
  | .tok .slash => some (.div, 10)
  | .tok .dslash => some (.fdiv, 10)
  | .tok .percent => some (.mod, 10)
  | .tok .caret => some (.pow, 12)
  | _ => none

/-- `PREC_UNARY`. -/
def precUnary : ℕ := 11

/-- The unary operators. -/
def unary : Sym → Option UnOp
  | .tok .minus => some .neg
  | .tok .kwNot => some .not
  | .tok .hash => some .len
  | .tok .tilde => some .bnot
  | _ => none

/-- The precedence that the operand behind an operator has at least. -/
def nextMin (op : BinOp) (prec : ℕ) : ℕ := if op = .concat ∨ op = .pow then prec else prec + 1

/-- What goes on a prefix expression. -/
def chains : Sym → Bool
  | .tok .lparen | .tok .dot | .tok .lbracket | .str _ | .tok .lbrace | .tok .colon => true
  | _ => false

/-! ## Expressions -/

/-- What is nested: `parse_prec`, and `parse_block` with the keywords that end it. -/
structure Nested where
  prec : ℕ → Parse RawExpr
  block : List TokKind → Parse (List RawStmt)

section

variable (self : Nested)

/-- `parse_expr`. -/
def parseExpr : Parse RawExpr := self.prec 1

/-- Expressions with commas between them. -/
def parseExprList : Parse (List RawExpr) := do
  let e ← parseExpr self
  let es ← many (matchTok .comma) (parseExpr self)
  return e :: es

/-- The loop over parameters, up to `...`, with fuel. -/
def paramsFuel : ℕ → Parse (List String × RawVararg)
  | 0 => fun _ => .error .stuck
  | n + 1 => do
    match ← peek with
    | .tok .ellipsis => do
      advance
      match ← peek with
      | .name s => do
        advance
        return ([], .named s)
      | _ => return ([], .anon)
    | _ => do
      let s ← expectName "expected parameter name"
      if ← matchTok .comma then
        let r ← paramsFuel n
        return (s :: r.1, r.2)
      else return ([s], .none)

/-- The parameters of a function. -/
def parseParams : Parse (List String × RawVararg) := do
  let y ← peek
  if y = .tok .rparen then return ([], .none)
  else fun ts => paramsFuel (ts.length + 1) ts

/-- `parse_function_body`. -/
def parseFunctionBody : Parse RawFunc := do
  expect .lparen "( in function declaration"
  let r ← parseParams
  expect .rparen ")"
  let body ← self.block [.kwEnd]
  expect .kwEnd "end (of function)"
  return .mk r.1 r.2 body

/-- Whether an entry of a table is next. -/
def moreEntries : Parse Bool := do
  let y ← peek
  return y ≠ .tok .rbrace && y ≠ .tok .eof

/-- Whether a separator and an entry are next. -/
def separated : Parse Bool := do
  if ← matchTok .comma then moreEntries
  else if ← matchTok .semi then moreEntries
  else return false

/-- An entry of a table. -/
def parseEntry : Parse RawEntry := do
  match ← peek with
  | .tok .lbracket => do
    advance
    let k ← parseExpr self
    expect .rbracket "]"
    expect .assign "="
    let v ← parseExpr self
    return .keyExpr k v
  | .name s => do
    -- `name = value`; any other name begins an expression
    let second ← peekSecond
    if second = .tok .assign then
      advance
      let _ ← matchTok .assign
      let v ← parseExpr self
      return .keyExpr (.string s) v
    else
      let v ← parseExpr self
      return .positional v
  | _ => do
    let v ← parseExpr self
    return .positional v

/-- A table constructor, at its brace. -/
def parseTable : Parse RawExpr := do
  advance
  if ← moreEntries then
    let e ← parseEntry self
    let es ← many separated (parseEntry self)
    expect .rbrace "\x7d"
    return .table (e :: es)
  else
    expect .rbrace "\x7d"
    return .table []

/-- `parse_primary`. -/
def parsePrimary : Parse RawExpr := do
  match ← peek with
  | .tok .kwNil => do
    advance
    return .nil
  | .tok .kwTrue => do
    advance
    return .true
  | .tok .kwFalse => do
    advance
    return .false
  | .int i => do
    advance
    return .int i
  | .float x => do
    advance
    return .float x
  | .str s => do
    advance
    return .string s
  | .name s => do
    advance
    return .name s
  | .tok .lparen => do
    advance
    let inner ← parseExpr self
    expect .rparen ")"
    return .paren inner
  | .tok .ellipsis => do
    advance
    return .vararg
  | .tok .kwFunction => do
    advance
    let f ← parseFunctionBody self
    return .function f
  | .tok .lbrace => parseTable self
  | _ => setError fun _ => "expected expression"

/-- The arguments of a call, behind the parenthesis that opens them. -/
def parseArgs : Parse (List RawExpr) := do
  let y ← peek
  let args ← if y = .tok .rparen then pure [] else parseExprList self
  expect .rparen ")"
  return args

/-- The arguments of a method call: a string, a table constructor, or a list in parentheses. -/
def parseMethodArgs : Parse (List RawExpr) := do
  match ← peek with
  | .str s => do
    advance
    return [.string s]
  | .tok .lbrace => do
    let arg ← parseTable self
    return [arg]
  | _ => do
    expect .lparen "("
    parseArgs self

/-- A call, an index or a method call behind a prefix expression. -/
def chainStep (e : RawExpr) : Parse RawExpr := do
  match ← peek with
  | .tok .lparen => do
    advance
    let args ← parseArgs self
    return .call e args
  | .tok .dot => do
    advance
    let name ← expectName "expected field name after '.'"
    return .index e (.string name)
  | .tok .lbracket => do
    advance
    let k ← parseExpr self
    expect .rbracket "]"
    return .index e k
  | .str s => do
    advance
    return .call e [.string s]
  | .tok .lbrace => do
    let arg ← parseTable self
    return .call e [arg]
  | _ => do
    -- a colon
    advance
    let m ← expectName "expected method name after ':'"
    let args ← parseMethodArgs self
    return .methodCall e m args

/-- Whether a prefix expression goes on. -/
def moreChain : Parse Bool := do
  let y ← peek
  return chains y

/-- `parse_prefix_chain`. -/
def parsePrefixChain : Parse RawExpr := do
  let e ← parsePrimary self
  Descent.iterate .stuck moreChain (chainStep self) e

/-- `parse_unary`. -/
def parseUnary : Parse RawExpr := do
  let y ← peek
  match unary y with
  | some op => do
    advance
    let operand ← self.prec precUnary
    return .unop op operand
  | none => parsePrefixChain self

/-- Whether an operator of so high a precedence is next. -/
def moreBinary (minPrec : ℕ) : Parse Bool := do
  let y ← peek
  match binary y with
  | some o => return minPrec ≤ o.2
  | none => return false

/-- An operator and its right operand. -/
def binaryStep (lhs : RawExpr) : Parse RawExpr := do
  let y ← peek
  match binary y with
  | some o => do
    advance
    let rhs ← self.prec (nextMin o.1 o.2)
    return .binop o.1 lhs rhs
  | none => return lhs

/-- `parse_prec`. -/
def parsePrec (minPrec : ℕ) : Parse RawExpr := do
  let lhs ← parseUnary self
  Descent.iterate .stuck (moreBinary minPrec) (binaryStep self) lhs

/-! ## Statements -/

/-- `parse_attribute`. -/
def parseAttribute : Parse Attrib := do
  advance
  let a ← expectName "expected attribute name after '<'"
  if a = "const" ∨ a = "close" then
    if ← matchTok .gt then return if a = "const" then .const else .close
    else setError fun _ => "expected '>' after attribute"
  else setError fun _ => "unknown attribute"

/-- A declared name with its attribute, if it has one of its own. -/
def parseAttribName (msg : String) (defaultAttrib : Attrib) : Parse (String × Attrib) := do
  let name ← expectName msg
  let y ← peek
  if y = .tok .lt then
    let a ← parseAttribute
    return (name, a)
  else return (name, defaultAttrib)

/-- The values behind `=`, if there are any. -/
def parseValues : Parse (List RawExpr) := do
  if ← matchTok .assign then parseExprList self
  else return []

/-- The attribute in front of declared names. -/
def parseDefaultAttrib : Parse Attrib := do
  let y ← peek
  if y = .tok .lt then parseAttribute
  else return .none

/-- `parse_local`. -/
def parseLocal : Parse RawStmt := do
  advance
  let y ← peek
  if y = .tok .kwFunction then
    advance
    let name ← expectName "expected function name"
    let f ← parseFunctionBody self
    return .localFunc name f
  else
    -- an attribute in front is that of every name that has none of its own
    let attrib ← parseDefaultAttrib
    let first ← parseAttribName "expected identifier after `local`" attrib
    let others ← many (matchTok .comma) (parseAttribName "expected identifier" attrib)
    if 1 < ((first :: others).filter fun x => x.2 = .close).length then
      setError fun _ => "multiple to-be-closed variables in local list"
    else
      let values ← parseValues self
      return .localStmt (first :: others) values

/-- An arm of an `if`, behind `if` or `elseif`. -/
def parseArm : Parse RawArm := do
  let c ← parseExpr self
  expect .kwThen "then"
  let body ← self.block [.kwElse, .kwElseif, .kwEnd]
  return .mk c body

/-- `parse_if`. -/
def parseIf : Parse RawStmt := do
  advance
  let first ← parseArm self
  let others ← many (matchTok .kwElseif) (parseArm self)
  if ← matchTok .kwElse then
    let elseBody ← self.block [.kwEnd]
    expect .kwEnd "end (of if)"
    return .ifStmt (first :: others) Bool.true elseBody
  else
    expect .kwEnd "end (of if)"
    return .ifStmt (first :: others) Bool.false []

/-- `parse_while`. -/
def parseWhile : Parse RawStmt := do
  advance
  let c ← parseExpr self
  expect .kwDo "do"
  let body ← self.block [.kwEnd]
  expect .kwEnd "end (of while)"
  return .whileStmt c body

/-- `parse_do`. -/
def parseDo : Parse RawStmt := do
  advance
  let body ← self.block [.kwEnd]
  expect .kwEnd "end (of do)"
  return .doStmt body

/-- `looks_like_block_end`. -/
def looksLikeBlockEnd (y : Sym) : Bool :=
  y ∈ [.tok .eof, .tok .kwEnd, .tok .kwElse, .tok .kwElseif, .tok .kwUntil, .tok .semi]

/-- `parse_return`. -/
def parseReturn : Parse RawStmt := do
  advance
  let y ← peek
  let values ← if looksLikeBlockEnd y then pure [] else parseExprList self
  -- nothing says that the block has to end here: statements behind a `return` are parsed on
  let _ ← matchTok .semi
  return .returnStmt values

/-- The step of a numeric `for`, if there is one. -/
def parseStep : Parse (Option RawExpr) := do
  if ← matchTok .comma then
    let e ← parseExpr self
    return some e
  else return none

/-- `parse_for`. -/
def parseFor : Parse RawStmt := do
  advance
  let first ← expectName "expected identifier after `for`"
  if ← matchTok .assign then
    let start ← parseExpr self
    expect .comma ","
    let stop ← parseExpr self
    let step ← parseStep self
    expect .kwDo "do"
    let body ← self.block [.kwEnd]
    expect .kwEnd "end (of for)"
    return .forNum first start stop step body
  else
    let others ← many (matchTok .comma) (expectName "expected name")
    expect .kwIn "in"
    let exprs ← parseExprList self
    expect .kwDo "do"
    let body ← self.block [.kwEnd]
    expect .kwEnd "end (of for)"
    return .forGen (first :: others) exprs body

/-- `parse_repeat`. -/
def parseRepeat : Parse RawStmt := do
  advance
  let body ← self.block [.kwUntil]
  expect .kwUntil "until"
  let c ← parseExpr self
  return .repeatStmt body c

/-- `parse_break`. -/
def parseBreak : Parse RawStmt := do
  advance
  return .breakStmt

/-- `parse_goto`. -/
def parseGoto : Parse RawStmt := do
  advance
  let name ← expectName "expected identifier after `goto`"
  return .gotoStmt name

/-- `parse_label`. -/
def parseLabel : Parse RawStmt := do
  advance
  let name ← expectName "expected identifier inside `::...::`"
  if ← matchTok .dblcolon then return .label name
  else setError fun _ => "expected `::` after label name"

/-- What is inside parentheses. The source marks it, and has no node for them. -/
def unparen : RawExpr → RawExpr
  | .paren e => unparen e
  | e => e

/-- Whether an expression is a statement. -/
def isCall (e : RawExpr) : Bool :=
  match unparen e with
  | .call _ _ | .methodCall _ _ _ => true
  | _ => false

/-- Whether an expression can be assigned to. -/
def isTarget (e : RawExpr) : Bool :=
  match unparen e with
  | .name _ | .index _ _ => true
  | _ => false

/-- A further target of an assignment. -/
def parseTarget : Parse RawExpr := do
  let t ← parsePrefixChain self
  if isTarget t then return t
  else setError fun _ => "invalid assignment target"

/-- `parse_ident_stmt`. -/
def parseIdentStmt : Parse RawStmt := do
  let first ← parsePrefixChain self
  if isCall first then return .exprStmt first
  else if isTarget first then
    let others ← many (matchTok .comma) (parseTarget self)
    expect .assign "= (assignment)"
    let values ← parseExprList self
    return .assign (first :: others) values
  else setError fun _ => "expression statement must be a call or assignment"

/-- A name of a global declaration, with its attribute. -/
def parseGlobalName (defaultAttrib : Attrib) : Parse (String × Attrib) := do
  -- the error has the line of the name, which is not that of the current token any more
  let line ← peekLine
  let x ← parseAttribName "expected identifier" defaultAttrib
  if x.2 = .close then fun _ => .error (.error line "global variables cannot be to-be-closed")
  else return x

/-- `parse_global`. -/
def parseGlobal : Parse RawStmt := do
  advance
  if ← matchTok .kwFunction then
    let name ← expectName "expected function name"
    let f ← parseFunctionBody self
    return .globalFunc name f
  else
    let attrib ← parseDefaultAttrib
    if attrib = .close then setError fun _ => "global variables cannot be to-be-closed"
    else if ← matchTok .star then return .globalAll attrib
    else
      match ← peek with
      | .name _ => do
        let first ← parseGlobalName attrib
        let others ← many (matchTok .comma) (parseGlobalName attrib)
        let values ← parseValues self
        return .globalDecl (first :: others) values
      | _ => setError fun _ => "expected identifier after `global`"

/-- `parse_function_stmt`. -/
def parseFunctionStmt : Parse RawStmt := do
  advance
  let name ← expectName "expected function name"
  let path ← many (matchTok .dot) (expectName "expected name after '.'")
  if ← matchTok .colon then
    let m ← expectName "expected name after ':'"
    let f ← parseFunctionBody self
    return .functionStmt name path (some m) f
  else
    let f ← parseFunctionBody self
    return .functionStmt name path none f

/-- What makes a declaration of the name `global` in front of it. -/
def opensGlobal : Sym → Bool
  | .name _ | .tok .kwFunction | .tok .lt | .tok .star => true
  | _ => false

/-- The statement that begins with a name. -/
def parseNameStmt (name : String) : Parse RawStmt := do
  let second ← peekSecond
  if name = "global" ∧ opensGlobal second then parseGlobal self
  else parseIdentStmt self

/-- The cases of `parse_stmt` that give a statement, by the current token. -/
def parseStmtAt : Sym → Parse RawStmt
  | .tok .kwLocal => parseLocal self
  | .tok .kwFunction => parseFunctionStmt self
  | .tok .kwIf => parseIf self
  | .tok .kwWhile => parseWhile self
  | .tok .kwDo => parseDo self
  | .tok .kwReturn => parseReturn self
  | .tok .kwFor => parseFor self
  | .tok .kwRepeat => parseRepeat self
  | .tok .kwBreak => parseBreak
  | .tok .kwGoto => parseGoto
  | .tok .dblcolon => parseLabel
  | .tok .lparen => parseIdentStmt self
  | .name s => parseNameStmt self s
  | _ => setError fun _ => "expected a statement"

/-- `parse_stmt`. A semicolon is no statement. -/
def parseStmt : Parse (Option RawStmt) := do
  let y ← peek
  if y = .tok .semi then
    advance
    return none
  else
    let s ← parseStmtAt self y
    return some s

/-- `is_block_end`. -/
def isBlockEnd (stops : List TokKind) (y : Sym) : Bool := y = .tok .eof || stops.any fun k => y = .tok k

/-- Whether a block goes on. -/
def moreStmts (stops : List TokKind) : Parse Bool := do
  let y ← peek
  return !isBlockEnd stops y

/-- `parse_block`. -/
def parseBlock (stops : List TokKind) : Parse (List RawStmt) := do
  -- semicolons leave no statement behind
  let ss ← many (moreStmts stops) (parseStmt self)
  return ss.reduceOption

end

/-- The functions for what is nested, so deep at most. -/
def nested : ℕ → Nested
  | 0 => ⟨fun _ _ => .error .stuck, fun _ _ => .error .stuck⟩
  | n + 1 => ⟨parsePrec (nested n), parseBlock (nested n)⟩

/-- `parse`. -/
def parse (ts : List Token) : Except ParseFault (List RawStmt) := ((nested ts.length).block [.eof] ts).map Prod.fst

end Lua2wasm.Syntax
