import Lua2wasm.Codegen.Stmt
import Lua2wasm.Lib.Rounds

/-!
# Typing expressions and slots

What `codegen/analysis.c` and `codegen/expr.c` find out about the numbers in a function body: the direct-call target of
a call, whether an expression is always an integer or always a float, and which local slots only ever hold the one or
the other. All of this is at `opt >= 1` (`opt_int`); at `-O0` none of it runs.

A function is named by its index, and `none` stands for the main chunk, where the source has `-1`. The analyses of a
body read the context `CG`, which has the part of the source's `CG` that they read. Its two slot tables are empty while
the source has no table there.
-/

namespace Lua2wasm.Analysis

/-! ## Walks -/

mutual

/-- `walk_stmts`: the statements of a block, each before those nested in it. Function literals are not entered. -/
def walkStmts : List Stmt → List Stmt
  | [] => []
  | s :: rest => s :: (nestedStmts s ++ walkStmts rest)

/-- `for_each_nested_block`. -/
def nestedStmts : Stmt → List Stmt
  | .ifStmt arms hasElse elseBody => walkArms arms ++ (if hasElse then walkStmts elseBody else [])
  | .whileStmt _ body => walkStmts body
  | .doStmt body => walkStmts body
  | .repeatStmt body _ => walkStmts body
  | .forNum _ _ _ _ body => walkStmts body
  | .forGen _ _ body => walkStmts body
  | _ => []

/-- The bodies of the arms of an `if`. -/
def walkArms : List IfArm → List Stmt
  | [] => []
  | .mk _ body :: arms => walkStmts body ++ walkArms arms

end

/-- `for_each_own_expr`: the expressions that a statement evaluates itself. -/
def ownExprs : Stmt → List Expr
  | .localStmt _ _ values => values
  | .assign targets values =>
    targets.flatMap (fun t => match t with
      | .index table key => [table, key]
      | .var _ _ => []) ++ values
  | .exprStmt e => [e]
  | .ifStmt arms _ _ => arms.map fun | .mk cond _ => cond
  | .whileStmt cond _ => [cond]
  | .repeatStmt _ cond => [cond]
  | .returnStmt values => values
  | .forNum _ start stop step _ => [start, stop] ++ step.toList
  | .forGen _ exprs _ => exprs
  | .globalDecl _ values => values
  | _ => []

mutual

/-- The calls in an expression, callee and arguments, in the order in which `infer_sites_visit` comes to them: those of
the sub-expressions first. -/
def callsIn : Expr → List (Expr × List Expr)
  | .call callee args _ => callsIn callee ++ callsInList args ++ [(callee, args)]
  | .methodCall recv _ args _ => callsIn recv ++ callsInList args
  | .binop _ lhs rhs _ => callsIn lhs ++ callsIn rhs
  | .unop _ operand => callsIn operand
  | .index table key => callsIn table ++ callsIn key
  | .table entries => callsInEntries entries
  | _ => []

/-- The calls in a list of expressions. -/
def callsInList : List Expr → List (Expr × List Expr)
  | [] => []
  | e :: es => callsIn e ++ callsInList es

/-- The calls in the entries of a table constructor. -/
def callsInEntries : List TableEntry → List (Expr × List Expr)
  | [] => []
  | .positional v :: es => callsIn v ++ callsInEntries es
  | .keyExpr k v :: es => callsIn k ++ callsIn v ++ callsInEntries es

end

/-- The calls of a body, as `walk_block_exprs` comes to them. -/
def callsOf (body : Block) : List (Expr × List Expr) :=
  (walkStmts body).flatMap fun s => (ownExprs s).flatMap callsIn

/-! ## The context -/

/-- What is known of a number: nothing that is one type (`any`), an integer, a float, or no evidence yet. -/
inductive NumTy
  | any
  | int
  | float
  | unset
  deriving DecidableEq, Repr

/-- The inferred signature of a function. -/
structure FuncSig where
  /-- The types of the parameters. -/
  paramTy : List NumTy
  /-- The type of the single value that it returns. -/
  retTy : NumTy
  deriving DecidableEq, Repr

/-- The captured locals that have an integer box, as `ibox_main` and `ibox_fn`. -/
structure Boxes where
  /-- Those of the main chunk. -/
  main : List Bool
  /-- Those of each function. -/
  fn : List (List Bool)
  deriving DecidableEq, Repr

/-- `ibox_row`. -/
def Boxes.row (boxes : Boxes) : Option ℕ → List Bool
  | none => boxes.main
  | some f => boxes.fn.getD f []

/-- Which function each slot and each upvalue stands for, if it always stands for the same one. -/
structure Bindings where
  /-- `main_slot_func`. -/
  mainSlotFunc : List (Option ℕ)
  /-- `bind_slot`, for each function. -/
  bindSlot : List (List (Option ℕ))
  /-- `bind_upval`, for each function. -/
  bindUpval : List (List (Option ℕ))

/-- `bind_slot_map`. -/
def Bindings.slotMap (binds : Bindings) : Option ℕ → List (Option ℕ)
  | none => binds.mainSlotFunc
  | some f => binds.bindSlot.getD f []

/-- `cur_upval_func`. -/
def Bindings.upvalMap (binds : Bindings) : Option ℕ → List (Option ℕ)
  | none => []
  | some f => binds.bindUpval.getD f []

/-- The context of the analysis of a body. -/
structure CG where
  /-- The functions of the program. -/
  funcs : List LuaFunc
  /-- What the slots and upvalues stand for. -/
  binds : Bindings
  /-- The integer boxes. -/
  boxes : Boxes
  /-- The signatures of the functions. -/
  sigs : List FuncSig
  /-- The function whose body it is. -/
  curFuncIdx : Option ℕ
  /-- The slots that hold only integers. -/
  curIsInt : List Bool := []
  /-- The slots that hold only floats. -/
  curIsFloat : List Bool := []

/-- `resolve_upval_origin`: the function and the slot that upvalue `u` of function `k` comes from. A function stands in
one that was begun before it, so the way outwards goes down in the table. -/
def resolveUpvalOrigin (funcs : List LuaFunc) (k u : ℕ) : Option (Option ℕ × ℕ) :=
  match (funcs[k]?).bind (·.upvalues[u]?), (funcs[k]?).bind (·.parentIdx) with
  | some ⟨.fromLocal, idx⟩, parent => some (parent, idx)
  | some ⟨.fromUpval, idx⟩, some j => if _h : j < k then resolveUpvalOrigin funcs j idx else none
  | _, _ => none
termination_by k

/-- `slot_is_int`. -/
def slotIsInt (c : CG) (slot : ℕ) : Bool := c.curIsInt.getD slot false

/-- `slot_is_float`. -/
def slotIsFloat (c : CG) (slot : ℕ) : Bool := c.curIsFloat.getD slot false

/-- `slot_is_ibox`. -/
def slotIsIbox (c : CG) (slot : ℕ) : Bool := (c.boxes.row c.curFuncIdx).getD slot false

/-- `upval_is_ibox`. -/
def upvalIsIbox (c : CG) (u : ℕ) : Bool :=
  match c.curFuncIdx.bind fun k => resolveUpvalOrigin c.funcs k u with
  | some (g, slot) => (c.boxes.row g).getD slot false
  | none => false

/-! ## Direct calls -/

/-- The function that the callee of a call stands for: a local that is bound to one, or an upvalue that is bound to the
function itself. -/
def calleeFunc (c : CG) : Expr → Option ℕ
  | .var _ .varLocal idx _ => (c.binds.slotMap c.curFuncIdx).getD idx none
  | .var _ .varUpval idx _ =>
    -- self-recursion only
    ((c.binds.upvalMap c.curFuncIdx).getD idx none).filter fun k => some k = c.curFuncIdx
  | _ => none

/-- `direct_call_target`: the function that a call can enter directly, with as many arguments as parameters and none of
them a multi-value. -/
def directCallTarget (c : CG) (callee : Expr) (args : List Expr) : Option ℕ :=
  (calleeFunc c callee).filter fun k =>
    match c.funcs[k]? with
    | some fn => !fn.isVararg && args.length == fn.nParams && !args.any Expr.isMultivalTail
    | none => false

/-- `target_sig`, of the target of a call. -/
def targetSig (c : CG) (callee : Expr) (args : List Expr) : Option FuncSig :=
  (directCallTarget c callee args).bind fun k => c.sigs[k]?

/-! ## Typing expressions -/

/-- The operators that make an integer of two integers. -/
def intClosed : BinOp → Bool
  | .add | .sub | .mul | .fdiv | .mod | .band | .bor | .bxor => true
  | _ => false

mutual

/-- `expr_is_int`. -/
def exprIsInt (c : CG) : Expr → Bool
  | .int _ => true
  | .var _ kind idx _ =>
    match kind with
    | .varUpval => upvalIsIbox c idx
    | .varLocal => slotIsInt c idx || slotIsIbox c idx
    | _ => false
  | .binop op lhs rhs _ => intClosed op && (exprIsInt c lhs && exprIsInt c rhs)
  | .unop op operand => (op == .neg || op == .bnot) && exprIsInt c operand
  | .call callee args _ =>
    match targetSig c callee args with
    | some sg => sg.retTy == .int && directArgsTypedOk c sg.paramTy args
    | none => false
  | _ => false

/-- `expr_is_float`. -/
def exprIsFloat (c : CG) : Expr → Bool
  | .float _ => true
  | .var _ kind idx _ => kind == .varLocal && slotIsFloat c idx
  | .binop op lhs rhs _ =>
    let ln := exprIsInt c lhs || exprIsFloat c lhs
    let rn := exprIsInt c rhs || exprIsFloat c rhs
    match op with
    | .div => ln && rn
    | .add | .sub | .mul => ln && rn && (exprIsFloat c lhs || exprIsFloat c rhs)
    | _ => false
  | .unop op operand => op == .neg && exprIsFloat c operand
  | .call callee args _ =>
    match targetSig c callee args with
    | some sg => sg.retTy == .float && directArgsTypedOk c sg.paramTy args
    | none => false
  | _ => false

/-- `direct_args_typed_ok`: each argument fits the type of its parameter, where an integer fits a float. -/
def directArgsTypedOk (c : CG) (paramTy : List NumTy) : List Expr → Bool
  | [] => true
  | a :: args =>
    (match paramTy.head? with
      | some .int => exprIsInt c a
      | some .float => exprIsInt c a || exprIsFloat c a
      | _ => true) && directArgsTypedOk c paramTy.tail args

end

/-- `expr_num_ty`. -/
def exprNumTy (c : CG) (e : Expr) : NumTy :=
  if exprIsInt c e then .int else if exprIsFloat c e then .float else .any

/-! ## Typing slots -/

/-- The type that an analysis of the slots is about. -/
inductive SlotTy
  | int
  | float
  deriving DecidableEq, Repr

/-- `expr_has_ty`. -/
def exprHasTy (c : CG) (e : Expr) : SlotTy → Bool
  | .int => exprIsInt c e
  | .float => exprIsFloat c e

/-- The context with the slots that are still believed to have the type of an analysis. -/
def CG.withSlots (c : CG) (out : List Bool) : SlotTy → CG
  | .int => { c with curIsInt := out }
  | .float => { c with curIsFloat := out }

/-- What a statement stores in a local slot, as far as the analyses of the slots tell it apart. -/
inductive Store
  /-- The value of a single expression. -/
  | value (e : Expr)
  /-- The control variable of a numeric `for`. -/
  | control (start : Expr) (step : Option Expr)
  /-- A store that is never typed: of several values, of a `<close>` variable, of the variables of a generic `for`, or
  of a local function. -/
  | untyped

/-- The slots that a statement stores to, with what it stores. -/
def slotStores : Stmt → List (ℕ × Store)
  | .localStmt localIdxs attribs values =>
    localIdxs.zipIdx.map fun (slot, j) =>
      if attribs[j]? ≠ some .close ∧ values.length = localIdxs.length then
        (slot, (values[j]?).elim .untyped .value)
      else (slot, .untyped)
  | .assign targets values =>
    targets.filterMap fun t => match t with
      | .var .varLocal idx => some (idx, match targets, values with
        | [_], [v] => .value v
        | _, _ => .untyped)
      | _ => none
  | .forNum localIdx start _ step _ => [(localIdx, .control start step)]
  | .forGen localIdxs _ _ => localIdxs.map (·, .untyped)
  | .localFunc localIdx _ => [(localIdx, .untyped)]
  | _ => []

/-- `int_for_loop`. -/
def intForLoop (c : CG) (start : Expr) (step : Option Expr) : Bool :=
  exprIsInt c start && step.all (exprIsInt c)

/-- Whether a slot keeps its type at a store. -/
def keepsTy (c : CG) (ty : SlotTy) : Store → Bool
  | .value e => exprHasTy c e ty
  | .control start step => ty == .int && intForLoop c start step
  | .untyped => false

/-- A run of an analysis: the slots still believed to have the type, and whether one was dropped. -/
abbrev SlotPass := List Bool × Bool

/-- `slot_kill`. -/
def slotKill (p : SlotPass) (slot : ℕ) : SlotPass :=
  if p.1.getD slot false then (p.1.set slot false, true) else p

/-- The kill rule at a store. It reads the slots as the stores before have left them. -/
def killStore (c : CG) (ty : SlotTy) (p : SlotPass) (store : ℕ × Store) : SlotPass :=
  if keepsTy (c.withSlots p.1 ty) ty store.2 then p else slotKill p store.1

/-- The stores of a body to its slots, in order. -/
def storesOf (body : Block) : List (ℕ × Store) := (walkStmts body).flatMap slotStores

/-- `typed_kill_stmt` on every statement of a body. -/
def killPass (c : CG) (ty : SlotTy) (body : Block) (out : List Bool) : SlotPass :=
  (storesOf body).foldl (killStore c ty) (out, false)

/-- The passes of an analysis from the slots `out`, until one drops no slot. Every other pass drops one, so there are
at most one more than there are slots (`killLoop_spec`). -/
def killLoop (c : CG) (ty : SlotTy) (body : Block) (out : List Bool) : List Bool :=
  (Rounds.untilQuiet (killPass c ty body) (out.count true + 1) out).getD out

/-- `compute_int_slots`: `paramSeed` types the parameters, where no evidence counts as an integer. -/
def computeIntSlots (c : CG) (body : Block) (nLocals nParams : ℕ) (captured : List Bool) (paramSeed : List NumTy) :
    List Bool :=
  killLoop c .int body <| (List.range nLocals).map fun i =>
    !captured.getD i false && (decide (nParams ≤ i) || paramSeed[i]? == some .int || paramSeed[i]? == some .unset)

/-- `compute_float_slots`, with the integer slots in the context. -/
def computeFloatSlots (c : CG) (body : Block) (nLocals nParams : ℕ) (captured : List Bool) (paramSeed : List NumTy) :
    List Bool :=
  killLoop c .float body <| (List.range nLocals).map fun i =>
    !captured.getD i false && !c.curIsInt.getD i false && (decide (nParams ≤ i) || paramSeed[i]? == some .float)

end Lua2wasm.Analysis
