import Lua2wasm.Lib.Logged
import Lua2wasm.Resolve

/-!
# The checks of assignments

The walk of `Resolve.lean` once more, with a log of the assignments to names that it comes to: each is written down
when `check_assignable` is about to look at it, and stays written down when the walk ends with an error.
-/

namespace Lua2wasm

/-- The check of an assignment to a name. -/
structure Check where
  /-- The name. -/
  name : String
  /-- Whether the assignment is refused. -/
  refused : Bool
  /-- Whether no escape table has been accessed past its end so far. -/
  inBounds : Bool
  deriving DecidableEq, Repr

/-- A computation on the scope state that logs checks. -/
abbrev CheckM := Logged Parser String Check

/-- Whether no escape table has been accessed past its end. -/
def Parser.tablesFit (p : Parser) : Bool := p.inBounds && (p.frame :: p.outer).all (·.captured.inBounds)

/-- The check of a variable; other expressions are not checked. -/
def checkOf (e : Expr) (p : Parser) : Option Check :=
  match e with
  | .var name kind idx ro => some ⟨name, p.isConst kind idx ro, p.tablesFit⟩
  | _ => none

/-- `check_assignable`, logged. -/
def logAssignable (e : Expr) : CheckM Unit := do
  Logged.record (checkOf e)
  checkAssignable e

/-- `checkFunctionName`, logged. -/
def logFunctionName (plain : Bool) (base : Expr) : CheckM Unit :=
  if plain then logAssignable base else pure ()

/-- `resolveBlock`, logged. -/
def checkBlock (stmts : CheckM (List Stmt)) : CheckM Block := do
  let s ← beginBlock
  let items ← stmts
  endBlock s
  pure items

mutual

/-- An expression. -/
def checkExpr : RawExpr → CheckM Expr
  | .nil => pure .nil
  | .true => pure .true
  | .false => pure .false
  | .int i => pure (.int i)
  | .float x => pure (.float x)
  | .string s => pure (.string s)
  | .name name => resolveVar name
  | .paren inner => do
    let e ← checkExpr inner
    pure e.setParen
  | .vararg => resolveVararg
  | .function func => do
    let k ← checkFunc false func
    pure (.function k)
  | .table entries => do
    let entries ← checkEntries entries
    pure (.table entries)
  | .call callee args => do
    let callee ← checkExpr callee
    let args ← checkExprs args
    pure (.call callee args false)
  | .index table key => do
    let table ← checkExpr table
    let key ← checkExpr key
    pure (.index table key)
  | .methodCall recv method args => do
    let recv ← checkExpr recv
    let args ← checkExprs args
    pure (.methodCall recv method args false)
  | .unop op operand => do
    let operand ← checkExpr operand
    pure (.unop op operand)
  | .binop op lhs rhs => do
    let lhs ← checkExpr lhs
    let rhs ← checkExpr rhs
    pure (.binop op lhs rhs false)
termination_by structural e => e

/-- A list of expressions. -/
def checkExprs : List RawExpr → CheckM (List Expr)
  | [] => pure []
  | e :: es => do
    let e ← checkExpr e
    let es ← checkExprs es
    pure (e :: es)

/-- The entries of a table constructor. -/
def checkEntries : List RawEntry → CheckM (List TableEntry)
  | [] => pure []
  | .positional v :: es => do
    let v ← checkExpr v
    let es ← checkEntries es
    pure (.positional v :: es)
  | .keyExpr k v :: es => do
    let k ← checkExpr k
    let v ← checkExpr v
    let es ← checkEntries es
    pure (.keyExpr k v :: es)

/-- A function. -/
def checkFunc (withSelf : Bool) : RawFunc → CheckM ℕ
  | .mk params vararg body => do
    let s ← beginFunc
    let params := if withSelf then "self" :: params else params
    declareParams params
    declareVararg vararg
    let b ← beginBody
    let body ← checkBlock (checkStmts false body)
    endBody b
    endFunc s params.length body

/-- The statements of a block. -/
def checkStmts (isRepeat : Bool) : List RawStmt → CheckM (List Stmt)
  | [] => pure []
  | s :: rest => do
    let st ← checkStmt (!isRepeat && rest.all RawStmt.isLabel) s
    let sts ← checkStmts isRepeat rest
    pure (st.toList ++ sts)

/-- A statement. -/
def checkStmt (endsBlock : Bool) : RawStmt → CheckM (Option Stmt)
  | .localStmt names values => do
    let values ← checkExprs values
    let slots ← declareLocals names
    pure (some (.localStmt slots (names.map (·.2)) values))
  | .localFunc name func => do
    let slot ← declareLocal "too many locals" name .none
    let k ← checkFunc false func
    pure (some (.localFunc slot k))
  | .globalFunc name func => do
    let g ← declareGlobalIndex name
    declareGlobal (some name) .none
    let k ← checkFunc false func
    pure (some (.globalDecl [g] [.function k]))
  | .globalAll attrib => do
    declareGlobal none attrib
    pure none
  | .globalDecl names values => do
    let gs ← globalIndices names
    let values ← checkExprs values
    declareGlobals names
    pure (some (.globalDecl gs values))
  | .functionStmt name path method func => do
    let base ← resolveVar name
    logFunctionName (path.isEmpty && method.isNone) base
    let target ← exprToTarget (makeIndex base (path ++ method.toList))
    let k ← checkFunc method.isSome func
    pure (some (.assign [target] [.function k]))
  | .assign targets values => do
    let targets ← checkTargets targets
    let values ← checkExprs values
    pure (some (.assign targets values))
  | .exprStmt e => do
    let e ← checkExpr e
    pure (some (.exprStmt e))
  | .ifStmt arms hasElse elseBody => do
    let arms ← checkArms arms
    let mark ← frameMark
    let elseBody ← checkBlock (checkStmts false elseBody)
    scopeRewind mark
    pure (some (.ifStmt arms hasElse elseBody))
  | .whileStmt cond body => do
    let cond ← checkExpr cond
    let mark ← frameMark
    let body ← checkBlock (checkStmts false body)
    scopeRewind mark
    pure (some (.whileStmt cond body))
  | .doStmt body => do
    let mark ← frameMark
    let body ← checkBlock (checkStmts false body)
    scopeRewind mark
    pure (some (.doStmt body))
  | .returnStmt values => do
    let values ← checkExprs values
    pure (some (.returnStmt values))
  | .forNum name start stop step body => do
    let start ← checkExpr start
    let stop ← checkExpr stop
    let step ← checkOption step
    let mark ← frameMark
    let slot ← declareLocal "too many locals" name .const
    let body ← checkBlock (checkStmts false body)
    scopeRewind mark
    pure (some (.forNum slot start stop step body))
  | .forGen names exprs body => do
    let exprs ← checkExprs exprs
    let mark ← frameMark
    let slots ← declareLocals (forGenNames names)
    let body ← checkBlock (checkStmts false body)
    scopeRewind mark
    pure (some (.forGen slots exprs body))
  | .repeatStmt body cond => do
    let mark ← frameMark
    let body ← checkBlock (checkStmts true body)
    let cond ← checkExpr cond
    scopeRewind mark
    pure (some (.repeatStmt body cond))
  | .breakStmt => pure (some .breakStmt)
  | .gotoStmt name => do
    declareGoto name
    pure (some (.gotoStmt name))
  | .label name => do
    declareLabel name endsBlock
    pure (some (.label name))

/-- The targets of an assignment. -/
def checkTargets : List RawExpr → CheckM (List AssignTarget)
  | [] => pure []
  | t :: ts => do
    let e ← checkExpr t
    let target ← exprToTarget e
    logAssignable e
    let targets ← checkTargets ts
    pure (target :: targets)

/-- The step of a numeric `for`. -/
def checkOption : Option RawExpr → CheckM (Option Expr)
  | none => pure none
  | some e => do
    let e ← checkExpr e
    pure (some e)

/-- The conditions and blocks of an `if`. -/
def checkArms : List RawArm → CheckM (List IfArm)
  | [] => pure []
  | .mk cond body :: arms => do
    let cond ← checkExpr cond
    let mark ← frameMark
    let body ← checkBlock (checkStmts false body)
    scopeRewind mark
    let arms ← checkArms arms
    pure (.mk cond body :: arms)

end

/-- The checks of a program, up to its end or its first error. -/
def checks (chunk : List RawStmt) : List Check := (checkBlock (checkStmts false chunk) Parser.init []).2

end Lua2wasm
