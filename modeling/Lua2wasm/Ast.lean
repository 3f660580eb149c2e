import Mathlib

/-!
# The syntax tree

The tree that `parse` builds and that code generation reads, as `ast.h` and `parser.h` declare it.
A function literal does not hold its function: every function is collected into one table
(`ParseResult.funcs`), and the tree names it by its index there, which is `func_idx` in the source.
The main chunk is not in the table. Where the source writes `-1` for it (`parent_idx`), `none`
stands here.

Line numbers, and the names that only error messages read, are left out. Names and string literals
are strings of one character a byte.
-/

namespace Lua2wasm

/-- A 64-bit integer, with the wrap-around arithmetic of `i64`. -/
abbrev I64 := BitVec 64

/-- A float, by its bit pattern. -/
structure F64 where
  /-- The 64 bits. -/
  bits : BitVec 64
  deriving DecidableEq, Repr

/-- Where a function finds an upvalue when its closure is made: in a local slot of the enclosing
function, or in an upvalue of it. -/
inductive UpvalSource
  | fromLocal
  | fromUpval
  deriving DecidableEq, Repr

/-- An entry of a function's upvalue list. -/
structure UpvalueRef where
  /-- The table of the enclosing function that `idx` points into. -/
  src : UpvalSource
  /-- A local slot or an upvalue index of the enclosing function. -/
  idx : ℕ
  deriving DecidableEq, Repr

/-- The four kinds of variable that a name resolves to. -/
inductive VarKind
  | varLocal
  | varUpval
  | varBuiltin
  | varGlobal
  deriving DecidableEq, Repr

/-- The binary operators. -/
inductive BinOp
  | add | sub | mul | div | fdiv | mod | pow
  | band | bor | bxor | shl | shr | concat
  | eq | neq | lt | le | gt | ge | and | or
  deriving DecidableEq, Repr

/-- The unary operators. -/
inductive UnOp
  | neg | not | len | bnot
  deriving DecidableEq, Repr

/-- The attribute of a declared name: `0`, `1` and `2` in the source. -/
inductive Attrib
  | none
  | const
  | close
  deriving DecidableEq, Repr

mutual

/-- Expressions. The flag `paren` says that the source text has parentheses around the expression.
Only the nodes whose flag code generation reads have it: those with many values, and `..`. -/
inductive Expr
  | nil
  | true
  | false
  | int (iVal : I64)
  | float (fVal : F64)
  | string (s : String)
  | var (name : String) (kind : VarKind) (idx : ℕ) (ro : Bool)
  | call (callee : Expr) (args : List Expr) (paren : Bool)
  | binop (op : BinOp) (lhs rhs : Expr) (paren : Bool)
  | unop (op : UnOp) (operand : Expr)
  | function (func : ℕ)
  | index (table key : Expr)
  | table (entries : List TableEntry)
  | methodCall (recv : Expr) (method : String) (args : List Expr) (paren : Bool)
  /-- `...`. In a function with a named vararg table, `tab` is the table's slot; `pack` marks the
  initializer that builds that table. -/
  | vararg (tab : Option ℕ) (pack : Bool) (paren : Bool)

/-- An entry of a table constructor. -/
inductive TableEntry
  | positional (value : Expr)
  | keyExpr (key value : Expr)

end

/-- An assignment target: a variable or an index expression. -/
inductive AssignTarget
  | var (kind : VarKind) (idx : ℕ)
  | index (table key : Expr)

mutual

/-- Statements. -/
inductive Stmt
  | localStmt (localIdxs : List ℕ) (attribs : List Attrib) (values : List Expr)
  | assign (targets : List AssignTarget) (values : List Expr)
  | exprStmt (expr : Expr)
  | ifStmt (arms : List IfArm) (hasElse : Bool) (elseBody : List Stmt)
  | whileStmt (cond : Expr) (body : List Stmt)
  | doStmt (body : List Stmt)
  | returnStmt (values : List Expr)
  | localFunc (localIdx func : ℕ)
  | forNum (localIdx : ℕ) (start stop : Expr) (step : Option Expr) (body : List Stmt)
  | forGen (localIdxs : List ℕ) (exprs : List Expr) (body : List Stmt)
  | repeatStmt (body : List Stmt) (cond : Expr)
  | breakStmt
  | globalDecl (globalIdxs : List ℕ) (values : List Expr)
  | gotoStmt (name : String)
  | label (name : String)

/-- A condition of an `if` with the block it guards. -/
inductive IfArm
  | mk (cond : Expr) (body : List Stmt)

end

/-- A block: its statements in order. -/
abbrev Block := List Stmt

/-- A function, as code generation gets it. -/
structure LuaFunc where
  /-- The enclosing function, or `none` where that is the main chunk. -/
  parentIdx : Option ℕ
  /-- The number of declared parameters; they are the slots `0, …, nParams - 1`. -/
  nParams : ℕ := 0
  /-- The number of local slots, parameters included. -/
  nLocals : ℕ := 0
  /-- What the function captures, in the order of first use. -/
  upvalues : List UpvalueRef := []
  /-- The statements of the function. -/
  body : Block := []
  /-- Whether the parameter list ends in `...`. -/
  isVararg : Bool := false
  /-- The slots that some nested function captures. -/
  captured : List Bool := []

/-- What `parse` returns when it succeeds. -/
structure ParseResult where
  /-- The statements of the main chunk. -/
  mainBody : Block
  /-- The number of local slots of the main chunk. -/
  mainNLocals : ℕ
  /-- The slots of the main chunk that some function captures. -/
  mainCaptured : List Bool
  /-- All functions, in the order in which their parsing began. -/
  funcs : List LuaFunc
  /-- The names of the globals table. -/
  globals : List String

end Lua2wasm
