import Lua2wasm.Resolve

/-!
# Lexical scoping

What name resolution is for, said without the parser's tables. An environment lists the
declarations in scope at a point of the program, innermost first and across all enclosing
functions. `Env.lookup` is the scoping rule of the language: the innermost declaration of a name
binds it, and a name that none declares is a global, unless a `global` declaration in scope voids
that.

`LexExpr` and its companions relate a raw tree to a resolved one. A declaration extends the
environment of the statements after it in its block and of nothing else. A variable of the resolved
tree says where the function that uses it finds the variable (`VarKind` and index); `Denotes`
follows that through the upvalue lists of the enclosing functions to the function and the slot that
declare it.
-/

namespace Lua2wasm

/-! ## Environments -/

/-- A declaration in scope. The function is `none` for the main chunk. -/
inductive Decl
  /-- A local of function `fn`, in `slot`. -/
  | loc (name : String) (fn : Option ℕ) (slot : ℕ)
  /-- `global name`. -/
  | glob (name : String) (ro : Bool)
  /-- `global *`. -/
  | globAll (ro : Bool)
  deriving DecidableEq, Repr

/-- What a name stands for. -/
inductive Binding
  | loc (fn : Option ℕ) (slot : ℕ)
  | glob (ro : Bool)
  deriving DecidableEq, Repr

/-- The declarations in scope, innermost first. -/
abbrev Env := List Decl

/-- What a declaration says about a name. -/
@[simp] def Decl.binds (name : String) : Decl → Option Binding
  | .loc n fn slot => if n = name then some (.loc fn slot) else none
  | .glob n ro => if n = name then some (.glob ro) else none
  | .globAll _ => none

/-- The read-only flag of a collective declaration. -/
@[simp] def Decl.collective : Decl → Option Bool
  | .loc _ _ _ => none
  | .glob _ _ => none
  | .globAll ro => some ro

/-- Whether a declaration is a `global name`. -/
@[simp] def Decl.isGlob : Decl → Bool
  | .loc _ _ _ => false
  | .glob _ _ => true
  | .globAll _ => false

/-- A free name is a global: the innermost `global *` in scope decides whether it is read-only, and
without one no `global name` may be in scope. The name `_ENV` is never free. -/
def Env.free (env : Env) (name : String) : Option Binding :=
  if name = "_ENV" then some (.glob false)
  else match env.findSome? Decl.collective with
    | some ro => some (.glob ro)
    | none => if env.any Decl.isGlob then none else some (.glob false)

/-- The scoping rule: the innermost declaration of a name binds it. -/
def Env.lookup (env : Env) (name : String) : Option Binding :=
  match env.findSome? (Decl.binds name) with
  | some b => some b
  | none => env.free name

/-- The environment after the locals `names` of function `fn` are declared in `slots`. -/
def Env.declareLocals (env : Env) (fn : Option ℕ) (names : List String) (slots : List ℕ) : Env :=
  ((names.zip slots).map fun (name, slot) => Decl.loc name fn slot).reverse ++ env

/-- The environment after a `global` statement. -/
def Env.declareGlobals (env : Env) (names : List (String × Attrib)) : Env :=
  (names.map fun (name, attrib) => Decl.glob name (attrib = .const)).reverse ++ env

/-! ## Variables of the resolved tree -/

/-- Variable `idx` of kind `kind` in function `fn` is the local `slot` of function `g`: a local of
`fn` itself, or what following the upvalue lists outwards from `fn` reaches. -/
inductive Denotes (F : ParseResult) : Option ℕ → VarKind → ℕ → Option ℕ → ℕ → Prop
  | here {fn slot} : Denotes F fn .varLocal slot fn slot
  | fromLocal {k lf i slot} (hf : F.funcs[k]? = some lf)
      (hu : lf.upvalues[i]? = some ⟨.fromLocal, slot⟩) :
      Denotes F (some k) .varUpval i lf.parentIdx slot
  | fromUpval {k lf i j g slot} (hf : F.funcs[k]? = some lf)
      (hu : lf.upvalues[i]? = some ⟨.fromUpval, j⟩)
      (ih : Denotes F lf.parentIdx .varUpval j g slot) :
      Denotes F (some k) .varUpval i g slot

/-- An occurrence of `name` in function `fn` is resolved to what the scoping rule binds it to. -/
inductive Refers (F : ParseResult) (fn : Option ℕ) (name : String) :
    Option Binding → VarKind → ℕ → Bool → Prop
  | loc {kind idx g slot} (hd : Denotes F fn kind idx g slot) :
      Refers F fn name (some (.loc g slot)) kind idx false
  | builtin {ro b} (hb : lookupBuiltin name = some b) :
      Refers F fn name (some (.glob ro)) .varBuiltin b ro
  | global {ro g} (hb : lookupBuiltin name = none) (hg : F.globals[g]? = some name) :
      Refers F fn name (some (.glob ro)) .varGlobal g ro

/-- The assignment target that an expression stands for. -/
inductive TargetOf : Expr → AssignTarget → Prop
  | var {name kind idx ro} : TargetOf (.var name kind idx ro) (.var kind idx)
  | index {table key} : TargetOf (.index table key) (.index table key)

/-! ## Resolved programs -/

/-- The names of a function's parameters. -/
def paramNames (withSelf : Bool) (params : List String) : List String :=
  if withSelf then "self" :: params else params

/-- The environment of a function's statements: its parameters, and then the name of its vararg
table. -/
def Env.declareParams (env : Env) (fn : Option ℕ) (params : List String) : RawVararg → Env
  | .named name => (env.declareLocals fn params (List.range params.length)).declareLocals fn
      [name] [params.length]
  | _ => env.declareLocals fn params (List.range params.length)

/-- The slot of a named vararg table. -/
def varargSlotOf (params : List String) : RawVararg → Option ℕ
  | .named _ => some params.length
  | _ => none

mutual

/-- The expression that a raw expression in function `fn` stands for under `env`. -/
inductive LexExpr (F : ParseResult) : Option ℕ → Env → RawExpr → Expr → Prop
  | nil {fn env} : LexExpr F fn env .nil .nil
  | true {fn env} : LexExpr F fn env .true .true
  | false {fn env} : LexExpr F fn env .false .false
  | int {fn env i} : LexExpr F fn env (.int i) (.int i)
  | float {fn env x} : LexExpr F fn env (.float x) (.float x)
  | string {fn env s} : LexExpr F fn env (.string s) (.string s)
  | name {fn env name kind idx ro} (h : Refers F fn name (env.lookup name) kind idx ro) :
      LexExpr F fn env (.name name) (.var name kind idx ro)
  | paren {fn env e e'} (h : LexExpr F fn env e e') : LexExpr F fn env (.paren e) e'.setParen
  | vararg {fn env tab} : LexExpr F fn env .vararg (.vararg tab Bool.false Bool.false)
  | function {fn env func k} (h : LexFunc F fn env Bool.false func k) :
      LexExpr F fn env (.function func) (.function k)
  | table {fn env entries entries'} (h : LexEntries F fn env entries entries') :
      LexExpr F fn env (.table entries) (.table entries')
  | call {fn env callee callee' args args'} (hf : LexExpr F fn env callee callee')
      (ha : LexExprs F fn env args args') :
      LexExpr F fn env (.call callee args) (.call callee' args' Bool.false)
  | index {fn env table table' key key'} (ht : LexExpr F fn env table table')
      (hk : LexExpr F fn env key key') :
      LexExpr F fn env (.index table key) (.index table' key')
  | methodCall {fn env recv recv' method args args'} (hr : LexExpr F fn env recv recv')
      (ha : LexExprs F fn env args args') :
      LexExpr F fn env (.methodCall recv method args) (.methodCall recv' method args' Bool.false)
  | unop {fn env op operand operand'} (h : LexExpr F fn env operand operand') :
      LexExpr F fn env (.unop op operand) (.unop op operand')
  | binop {fn env op lhs lhs' rhs rhs'} (hl : LexExpr F fn env lhs lhs')
      (hr : LexExpr F fn env rhs rhs') :
      LexExpr F fn env (.binop op lhs rhs) (.binop op lhs' rhs' Bool.false)

/-- A list of expressions, all under the same environment. -/
inductive LexExprs (F : ParseResult) : Option ℕ → Env → List RawExpr → List Expr → Prop
  | nil {fn env} : LexExprs F fn env [] []
  | cons {fn env e e' es es'} (h : LexExpr F fn env e e') (hs : LexExprs F fn env es es') :
      LexExprs F fn env (e :: es) (e' :: es')

/-- The entries of a table constructor. -/
inductive LexEntries (F : ParseResult) : Option ℕ → Env → List RawEntry → List TableEntry → Prop
  | nil {fn env} : LexEntries F fn env [] []
  | positional {fn env v v' es es'} (h : LexExpr F fn env v v') (hs : LexEntries F fn env es es') :
      LexEntries F fn env (.positional v :: es) (.positional v' :: es')
  | keyExpr {fn env k k' v v' es es'} (hk : LexExpr F fn env k k') (hv : LexExpr F fn env v v')
      (hs : LexEntries F fn env es es') :
      LexEntries F fn env (.keyExpr k v :: es) (.keyExpr k' v' :: es')

/-- The function at index `k` of the function table is the one that a raw function in function `fn`
stands for. Its statements see the parameters, which are its first slots. -/
inductive LexFunc (F : ParseResult) : Option ℕ → Env → Bool → RawFunc → ℕ → Prop
  | mk {fn env env' withSelf params vararg body body' k lf} (hf : F.funcs[k]? = some lf)
      (hparent : lf.parentIdx = fn) (hparams : lf.nParams = (paramNames withSelf params).length)
      (hvararg : lf.isVararg = (vararg != .none))
      (hbody : lf.body = prependVarargDecl (varargSlotOf (paramNames withSelf params) vararg) body')
      (h : LexStmts F (some k) (env.declareParams (some k) (paramNames withSelf params) vararg)
        body body' env') :
      LexFunc F fn env withSelf (.mk params vararg body) k

/-- The statements of a block, with the environment at its end. -/
inductive LexStmts (F : ParseResult) : Option ℕ → Env → List RawStmt → List Stmt → Env → Prop
  | nil {fn env} : LexStmts F fn env [] [] env
  | cons {fn env env' env'' s st ss sts} (h : LexStmt F fn env s st env')
      (hs : LexStmts F fn env' ss sts env'') :
      LexStmts F fn env (s :: ss) (st.toList ++ sts) env''

/-- A statement, with the environment of the statements after it. -/
inductive LexStmt (F : ParseResult) : Option ℕ → Env → RawStmt → Option Stmt → Env → Prop
  /-- The values do not see the names they initialise. -/
  | localStmt {fn env names values values' slots} (h : LexExprs F fn env values values')
      (hn : slots.length = names.length) :
      LexStmt F fn env (.localStmt names values)
        (some (.localStmt slots (names.map (·.2)) values'))
        (env.declareLocals fn (names.map (·.1)) slots)
  /-- The function sees its own name. -/
  | localFunc {fn env name func slot k}
      (h : LexFunc F fn (env.declareLocals fn [name] [slot]) Bool.false func k) :
      LexStmt F fn env (.localFunc name func) (some (.localFunc slot k))
        (env.declareLocals fn [name] [slot])
  | globalFunc {fn env name func g k} (hg : F.globals[g]? = some name)
      (h : LexFunc F fn (env.declareGlobals [(name, .none)]) Bool.false func k) :
      LexStmt F fn env (.globalFunc name func) (some (.globalDecl [g] [.function k]))
        (env.declareGlobals [(name, .none)])
  | globalAll {fn env attrib} :
      LexStmt F fn env (.globalAll attrib) none (.globAll (attrib = .const) :: env)
  | globalDecl {fn env names values values' gs} (h : LexExprs F fn env values values')
      (hg : gs.map (F.globals[·]?) = names.map (some ·.1)) :
      LexStmt F fn env (.globalDecl names values) (some (.globalDecl gs values'))
        (env.declareGlobals names)
  | functionStmt {fn env name path method func kind idx ro target k}
      (hr : Refers F fn name (env.lookup name) kind idx ro)
      (ht : TargetOf (makeIndex (.var name kind idx ro) (path ++ method.toList)) target)
      (h : LexFunc F fn env method.isSome func k) :
      LexStmt F fn env (.functionStmt name path method func)
        (some (.assign [target] [.function k])) env
  | assign {fn env targets targets' values values'} (ht : LexTargets F fn env targets targets')
      (hv : LexExprs F fn env values values') :
      LexStmt F fn env (.assign targets values) (some (.assign targets' values')) env
  | exprStmt {fn env e e'} (h : LexExpr F fn env e e') :
      LexStmt F fn env (.exprStmt e) (some (.exprStmt e')) env
  | ifStmt {fn env env' arms arms' hasElse elseBody elseBody'} (ha : LexArms F fn env arms arms')
      (he : LexStmts F fn env elseBody elseBody' env') :
      LexStmt F fn env (.ifStmt arms hasElse elseBody) (some (.ifStmt arms' hasElse elseBody')) env
  | whileStmt {fn env env' cond cond' body body'} (hc : LexExpr F fn env cond cond')
      (hb : LexStmts F fn env body body' env') :
      LexStmt F fn env (.whileStmt cond body) (some (.whileStmt cond' body')) env
  | doStmt {fn env env' body body'} (hb : LexStmts F fn env body body' env') :
      LexStmt F fn env (.doStmt body) (some (.doStmt body')) env
  | returnStmt {fn env values values'} (h : LexExprs F fn env values values') :
      LexStmt F fn env (.returnStmt values) (some (.returnStmt values')) env
  | forNum {fn env env' name start start' stop stop' step step' slot body body'}
      (h1 : LexExpr F fn env start start') (h2 : LexExpr F fn env stop stop')
      (h3 : LexOption F fn env step step')
      (hb : LexStmts F fn (env.declareLocals fn [name] [slot]) body body' env') :
      LexStmt F fn env (.forNum name start stop step body)
        (some (.forNum slot start' stop' step' body')) env
  | forGen {fn env env' names exprs exprs' slots body body'} (he : LexExprs F fn env exprs exprs')
      (hn : slots.length = names.length)
      (hb : LexStmts F fn (env.declareLocals fn names slots) body body' env') :
      LexStmt F fn env (.forGen names exprs body) (some (.forGen slots exprs' body')) env
  /-- The condition sees the locals of the body. -/
  | repeatStmt {fn env env' body body' cond cond'} (hb : LexStmts F fn env body body' env')
      (hc : LexExpr F fn env' cond cond') :
      LexStmt F fn env (.repeatStmt body cond) (some (.repeatStmt body' cond')) env
  | breakStmt {fn env} : LexStmt F fn env .breakStmt (some .breakStmt) env
  | gotoStmt {fn env name} : LexStmt F fn env (.gotoStmt name) (some (.gotoStmt name)) env
  | label {fn env name} : LexStmt F fn env (.label name) (some (.label name)) env

/-- The targets of an assignment. -/
inductive LexTargets (F : ParseResult) : Option ℕ → Env → List RawExpr → List AssignTarget → Prop
  | nil {fn env} : LexTargets F fn env [] []
  | cons {fn env e e' t es ts} (h : LexExpr F fn env e e') (ht : TargetOf e' t)
      (hs : LexTargets F fn env es ts) : LexTargets F fn env (e :: es) (t :: ts)

/-- An expression that may be absent. -/
inductive LexOption (F : ParseResult) : Option ℕ → Env → Option RawExpr → Option Expr → Prop
  | none {fn env} : LexOption F fn env Option.none Option.none
  | some {fn env e e'} (h : LexExpr F fn env e e') : LexOption F fn env (Option.some e) (Option.some e')

/-- The arms of an `if`. The locals of one block are out of scope in the others. -/
inductive LexArms (F : ParseResult) : Option ℕ → Env → List RawArm → List IfArm → Prop
  | nil {fn env} : LexArms F fn env [] []
  | cons {fn env env' cond cond' body body' arms arms'} (hc : LexExpr F fn env cond cond')
      (hb : LexStmts F fn env body body' env') (hs : LexArms F fn env arms arms') :
      LexArms F fn env (.mk cond body :: arms) (.mk cond' body' :: arms')

end

/-! ## Slots and occurrences -/

mutual

/-- The slots that a statement declares, its blocks included, in the order of the text. -/
def stmtSlots : Stmt → List ℕ
  | .localStmt slots _ _ => slots
  | .localFunc slot _ => [slot]
  | .ifStmt arms _ elseBody => armsSlots arms ++ stmtsSlots elseBody
  | .whileStmt _ body => stmtsSlots body
  | .doStmt body => stmtsSlots body
  | .forNum slot _ _ _ body => slot :: stmtsSlots body
  | .forGen slots _ body => slots ++ stmtsSlots body
  | .repeatStmt body _ => stmtsSlots body
  | _ => []

/-- The slots that a block declares. -/
def stmtsSlots : List Stmt → List ℕ
  | [] => []
  | s :: ss => stmtSlots s ++ stmtsSlots ss

/-- The slots that the blocks of an `if` declare. -/
def armsSlots : List IfArm → List ℕ
  | [] => []
  | .mk _ body :: arms => stmtsSlots body ++ armsSlots arms

end

/-- The slots that a function declares: its parameters, and those of its statements. -/
def LuaFunc.slots (lf : LuaFunc) : List ℕ := List.range lf.nParams ++ stmtsSlots lf.body

/-- A variable as code generation sees it. -/
abbrev VarOcc := VarKind × ℕ

mutual

/-- The variables that occur in an expression, outside the functions nested in it. -/
def exprVars : Expr → List VarOcc
  | .var _ kind idx _ => [(kind, idx)]
  | .call callee args _ => exprVars callee ++ exprsVars args
  | .binop _ lhs rhs _ => exprVars lhs ++ exprVars rhs
  | .unop _ operand => exprVars operand
  | .index table key => exprVars table ++ exprVars key
  | .table entries => entriesVars entries
  | .methodCall recv _ args _ => exprVars recv ++ exprsVars args
  | _ => []

/-- The variables that occur in a list of expressions. -/
def exprsVars : List Expr → List VarOcc
  | [] => []
  | e :: es => exprVars e ++ exprsVars es

/-- The variables that occur in the entries of a table constructor. -/
def entriesVars : List TableEntry → List VarOcc
  | [] => []
  | .positional v :: es => exprVars v ++ entriesVars es
  | .keyExpr k v :: es => exprVars k ++ exprVars v ++ entriesVars es

end

/-- The variables that occur in an assignment target, the assigned one included. -/
def targetVars : AssignTarget → List VarOcc
  | .var kind idx => [(kind, idx)]
  | .index table key => exprVars table ++ exprVars key

/-- The variables that occur in an expression that may be absent. -/
def optionVars : Option Expr → List VarOcc
  | none => []
  | some e => exprVars e

mutual

/-- The variables that occur in a statement, outside the functions nested in it. -/
def stmtVars : Stmt → List VarOcc
  | .localStmt _ _ values => exprsVars values
  | .assign targets values => targets.flatMap targetVars ++ exprsVars values
  | .exprStmt e => exprVars e
  | .ifStmt arms _ elseBody => armsVars arms ++ stmtsVars elseBody
  | .whileStmt cond body => exprVars cond ++ stmtsVars body
  | .doStmt body => stmtsVars body
  | .returnStmt values => exprsVars values
  | .forNum _ start stop step body =>
    exprVars start ++ exprVars stop ++ optionVars step ++ stmtsVars body
  | .forGen _ exprs body => exprsVars exprs ++ stmtsVars body
  | .repeatStmt body cond => stmtsVars body ++ exprVars cond
  | .globalDecl _ values => exprsVars values
  | _ => []

/-- The variables that occur in a block. -/
def stmtsVars : List Stmt → List VarOcc
  | [] => []
  | s :: ss => stmtVars s ++ stmtsVars ss

/-- The variables that occur in the arms of an `if`. -/
def armsVars : List IfArm → List VarOcc
  | [] => []
  | .mk cond body :: arms => exprVars cond ++ stmtsVars body ++ armsVars arms

end

/-! ## Counting declarations -/

mutual

/-- The number of locals that a statement declares, its blocks included. -/
def stmtDecls : RawStmt → ℕ
  | .localStmt names _ => names.length
  | .localFunc _ _ => 1
  | .ifStmt arms _ elseBody => armsDecls arms + stmtsDecls elseBody
  | .whileStmt _ body => stmtsDecls body
  | .doStmt body => stmtsDecls body
  | .forNum _ _ _ _ body => stmtsDecls body + 1
  | .forGen names _ body => names.length + stmtsDecls body
  | .repeatStmt body _ => stmtsDecls body
  | _ => 0

/-- The number of locals that a block declares. -/
def stmtsDecls : List RawStmt → ℕ
  | [] => 0
  | s :: ss => stmtDecls s + stmtsDecls ss

/-- The number of locals that the blocks of an `if` declare. -/
def armsDecls : List RawArm → ℕ
  | [] => 0
  | .mk _ body :: arms => stmtsDecls body + armsDecls arms

end

/-- The number of locals that a function declares: its parameters, the name of its vararg table,
and those of its statements. -/
def funcDecls (withSelf : Bool) : RawFunc → ℕ
  | .mk params vararg body =>
    (paramNames withSelf params).length +
      (varargSlotOf (paramNames withSelf params) vararg).toList.length + stmtsDecls body

mutual

/-- The numbers of locals that the functions in an expression declare. -/
def exprFuncs : RawExpr → List ℕ
  | .paren inner => exprFuncs inner
  | .function func => funcDecls Bool.false func :: funcFuncs func
  | .table entries => entriesFuncs entries
  | .call callee args => exprFuncs callee ++ exprsFuncs args
  | .index table key => exprFuncs table ++ exprFuncs key
  | .methodCall recv _ args => exprFuncs recv ++ exprsFuncs args
  | .unop _ operand => exprFuncs operand
  | .binop _ lhs rhs => exprFuncs lhs ++ exprFuncs rhs
  | _ => []

/-- The numbers of locals that the functions in a list of expressions declare. -/
def exprsFuncs : List RawExpr → List ℕ
  | [] => []
  | e :: es => exprFuncs e ++ exprsFuncs es

/-- The numbers of locals that the functions in a table constructor declare. -/
def entriesFuncs : List RawEntry → List ℕ
  | [] => []
  | .positional v :: es => exprFuncs v ++ entriesFuncs es
  | .keyExpr k v :: es => exprFuncs k ++ exprFuncs v ++ entriesFuncs es

/-- The numbers of locals that the functions nested in a function declare. -/
def funcFuncs : RawFunc → List ℕ
  | .mk _ _ body => stmtsFuncs body

/-- The numbers of locals that the functions in a statement declare. -/
def stmtFuncs : RawStmt → List ℕ
  | .localStmt _ values => exprsFuncs values
  | .localFunc _ func => funcDecls false func :: funcFuncs func
  | .globalFunc _ func => funcDecls false func :: funcFuncs func
  | .globalDecl _ values => exprsFuncs values
  | .functionStmt _ _ method func => funcDecls method.isSome func :: funcFuncs func
  | .assign targets values => exprsFuncs targets ++ exprsFuncs values
  | .exprStmt e => exprFuncs e
  | .ifStmt arms _ elseBody => armsFuncs arms ++ stmtsFuncs elseBody
  | .whileStmt cond body => exprFuncs cond ++ stmtsFuncs body
  | .doStmt body => stmtsFuncs body
  | .returnStmt values => exprsFuncs values
  | .forNum _ start stop step body =>
    exprFuncs start ++ exprFuncs stop ++ optionFuncs step ++ stmtsFuncs body
  | .forGen _ exprs body => exprsFuncs exprs ++ stmtsFuncs body
  | .repeatStmt body cond => stmtsFuncs body ++ exprFuncs cond
  | _ => []

/-- The numbers of locals that the functions in a block declare. -/
def stmtsFuncs : List RawStmt → List ℕ
  | [] => []
  | s :: ss => stmtFuncs s ++ stmtsFuncs ss

/-- The numbers of locals that the functions in an optional expression declare. -/
def optionFuncs : Option RawExpr → List ℕ
  | none => []
  | some e => exprFuncs e

/-- The numbers of locals that the functions in the arms of an `if` declare. -/
def armsFuncs : List RawArm → List ℕ
  | [] => []
  | .mk cond body :: arms => exprFuncs cond ++ stmtsFuncs body ++ armsFuncs arms

end

/-- Every function of a program, the main chunk included, declares at most as many locals as the
escape table has entries. -/
def FitsEscapeTable (chunk : List RawStmt) : Prop :=
  ∀ n ∈ stmtsDecls chunk :: stmtsFuncs chunk, n ≤ maxLocalsPerFn

/-! ## The property -/

/-- Some function nested in function `fn` uses the local `slot` of `fn`. -/
def References (F : ParseResult) (fn : Option ℕ) (slot : ℕ) : Prop :=
  ∃ k lf i, F.funcs[k]? = some lf ∧ (.varUpval, i) ∈ stmtsVars lf.body ∧
    Denotes F (some k) .varUpval i fn slot

/-- A program whose names are resolved by lexical scoping: every occurrence stands for the innermost
declaration in scope, no two declarations of a function share a slot, and the escape table of a
function marks the slots that nested functions use. -/
structure LexicallyScoped (chunk : List RawStmt) (F : ParseResult) : Prop where
  /-- The main chunk, and with it every function, is resolved by the scoping rule. -/
  lexical : ∃ env, LexStmts F none [] chunk F.mainBody env
  /-- The slots of the main chunk, each declared once. -/
  mainSlots : stmtsSlots F.mainBody = List.range F.mainNLocals
  /-- The slots of every function, each declared once. -/
  funcSlots : ∀ lf ∈ F.funcs, lf.slots = List.range lf.nLocals
  /-- The escape table of the main chunk. -/
  mainCaptured : ∀ s < F.mainNLocals, (F.mainCaptured[s]? = some true ↔ References F none s)
  /-- The escape table of every function. -/
  captured : ∀ k lf, F.funcs[k]? = some lf → ∀ s < lf.nLocals,
    (lf.captured[s]? = some true ↔ References F (some k) s)

end Lua2wasm
