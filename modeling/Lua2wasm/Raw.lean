import Lua2wasm.Ast

/-!
# The tree before name resolution

The source parses and resolves names in one pass: each parsing function reads tokens and, at each
name, declaration and block boundary, works on the scope tables of the parser. Here the two halves
are apart. The parser (`Parser.lean`) turns tokens into the tree of this file, and the resolver
(`Resolve.lean`) turns that tree into the tree of `Ast.lean`. The resolver visits the nodes in the
order in which the source parses them, so it does the same scope operations in the same order.

This tree keeps what the resolver needs and the other tree has lost: parentheses, the names of the
variables, and the declarations that leave no statement behind (`global *`).
-/

namespace Lua2wasm

/-- The end of a parameter list: nothing, `...`, or `...name`. -/
inductive RawVararg
  | none
  | anon
  | named (name : String)
  deriving DecidableEq, Repr

mutual

/-- Expressions with unresolved names. -/
inductive RawExpr
  | nil
  | true
  | false
  | int (iVal : I64)
  | float (fVal : F64)
  | string (s : String)
  | name (name : String)
  | paren (inner : RawExpr)
  | vararg
  | function (func : RawFunc)
  | table (entries : List RawEntry)
  | call (callee : RawExpr) (args : List RawExpr)
  | index (table key : RawExpr)
  | methodCall (recv : RawExpr) (method : String) (args : List RawExpr)
  | unop (op : UnOp) (operand : RawExpr)
  | binop (op : BinOp) (lhs rhs : RawExpr)

/-- An entry of a table constructor. -/
inductive RawEntry
  | positional (value : RawExpr)
  | keyExpr (key value : RawExpr)

/-- The part of a function after the keyword: parameters and body. -/
inductive RawFunc
  | mk (params : List String) (vararg : RawVararg) (body : List RawStmt)

/-- Statements with unresolved names. -/
inductive RawStmt
  | localStmt (names : List (String × Attrib)) (values : List RawExpr)
  | localFunc (name : String) (func : RawFunc)
  /-- `global function name … end`. -/
  | globalFunc (name : String) (func : RawFunc)
  /-- `global *`, or `global<const> *`. -/
  | globalAll (attrib : Attrib)
  | globalDecl (names : List (String × Attrib)) (values : List RawExpr)
  /-- `function name.path:method … end`. -/
  | functionStmt (name : String) (path : List String) (method : Option String) (func : RawFunc)
  | assign (targets : List RawExpr) (values : List RawExpr)
  | exprStmt (expr : RawExpr)
  | ifStmt (arms : List RawArm) (hasElse : Bool) (elseBody : List RawStmt)
  | whileStmt (cond : RawExpr) (body : List RawStmt)
  | doStmt (body : List RawStmt)
  | returnStmt (values : List RawExpr)
  | forNum (name : String) (start stop : RawExpr) (step : Option RawExpr) (body : List RawStmt)
  | forGen (names : List String) (exprs : List RawExpr) (body : List RawStmt)
  | repeatStmt (body : List RawStmt) (cond : RawExpr)
  | breakStmt
  | gotoStmt (name : String)
  | label (name : String)

/-- A condition of an `if` with the block it guards. -/
inductive RawArm
  | mk (cond : RawExpr) (body : List RawStmt)

end

/-- Whether a statement is a label. -/
def RawStmt.isLabel : RawStmt → Bool
  | .label _ => true
  | _ => false

end Lua2wasm
