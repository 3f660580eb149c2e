import Lua2wasm.Lowering.Expr

/-!
# Emission of statements

The statements of a body, as `codegen/stmt.c` emits them, again as far as it matters for the temporaries. The functions
of outlined loops (`codegen/outline.c`) declare the same temporaries as the body, and their code is emitted from the
same context; an outlined loop is emitted in a way of its own (`OlMode`), and one that is continued in a function of its
own is emitted twice.
-/

namespace Lua2wasm.Lowering

open Analysis

/-- Whether code of an outlined loop is emitted (`ol_active`), and whether this is a loop's resumed copy
(`ol_resumed`). -/
inductive OlMode
  | inline
  | outlined
  | resumed
  deriving DecidableEq, Repr

variable (c : EmitCG)

/-- `emit_truthy`. -/
def emitTruthy (e : Expr) : EmitM Unit :=
  match e with
  | .binop op lhs rhs paren =>
    if isCmpOp op = true ∧ exprInvolvesMaybe c (.binop op lhs rhs paren) = true then emitMaybeCmpBlock c lhs rhs
    else match cmpNumericKind c op lhs rhs with
      | some kind => emitCmpI32 c kind lhs rhs
      | none => emitExpr c (.binop op lhs rhs paren)
  | e => emitExpr c e

/-! ## Stores -/

/-- `store_value_lowers`. -/
def storeValueLowers (v : Expr) : Bool :=
  exprIsFloat c v || match v with
    | .binop op lhs rhs paren => exprInvolvesMaybe c (.binop op lhs rhs paren)
    | .unop op operand => exprInvolvesMaybe c (.unop op operand)
    | .var _ kind idx _ => kind == .varLocal && slotIsMaybe c idx
    | .call callee [arg] _ => !arg.isMultivalTail && (calleeMathKind c callee).isSome
    | _ => false

/-- `emit_store_value_cell`. -/
def emitStoreValueCell (v : Expr) : EmitM Unit :=
  if exprIsFloat c v then emitFloatExpr c v else emitMaybeLower c v

/-- `emit_typed_slot_store`: the emission, for a slot with a type. -/
def emitTypedSlotStore (slot : ℕ) (e : Expr) : Option (EmitM Unit) :=
  if slotIsInt c slot then some (emitIntExpr c e)
  else if slotIsFloat c slot then some (emitFloatExpr c e)
  else if slotIsMaybe c slot then some (emitMaybeLower c e)
  else none

/-- `target_int_key`. -/
def targetIntKey (key : Expr) : ℕ :=
  if isKstr key then 0 else if isMaybeKey c key then 2 else if exprIsInt c key then 1 else 0

/-- `emit_target_open`. -/
def emitTargetOpen : AssignTarget → EmitM Unit
  | .var kind idx =>
    match kind with
    | .varLocal => if slotIsIbox c.toCG idx ∨ slotIsMaybe c idx = true then cgError else pure ()
    | .varUpval => if upvalIsIbox c.toCG idx then cgError else pure ()
    | _ => pure ()
  | .index table key =>
    if isKstr key then emitExpr c table
    else if targetIntKey c key = 1 then do emitExpr c table; emitIntExpr c key
    else if targetIntKey c key = 2 then emitExpr c table
    else do emitExpr c table; emitExpr c key

/-- `emit_unboxed_index_store`: the emission, where the shape of the store qualifies. -/
def emitUnboxedIndexStore (table key v : Expr) : Option (EmitM Unit) :=
  if !c.optInt || c.curIsMaybe.isNone then none
  else
    let kstr := isKstr key
    let kint := !kstr && exprIsInt c key
    let kmaybe := !kstr && !kint && isMaybeKey c key
    let klow := !kstr && !kint && !kmaybe && match key with
      | .binop op lhs rhs paren => maybeArithOp op && exprInvolvesMaybe c (.binop op lhs rhs paren)
      | _ => false
    let lowers := storeValueLowers c v
    if !(kstr || kint || kmaybe || klow) || (!lowers && !klow) then none
    else some do
      let k ← mtAlloc 3
      emitExpr c table
      (if kint then emitIntExpr c key else if klow then emitMaybeLower c key else pure ())
      (if lowers then emitStoreValueCell c v else emitExpr c v)
      setDepth k

/-- The cells of the targets of a multi-assignment: a table and a key cell for each index target. -/
def emitTargetCells : List AssignTarget → EmitM Unit
  | [] => pure ()
  | .var _ _ :: targets => emitTargetCells targets
  | .index table key :: targets => do
    let _ ← mtAlloc 1
    emitExpr c table
    (if isKstr key then pure () else do
      let _ ← mtAlloc 1
      if exprIsInt c key then emitIntExpr c key else if isMaybeKey c key then pure () else emitExpr c key)
    emitTargetCells targets

/-- A target is `TGT_INDEX`. -/
def isIndexTarget : AssignTarget → Bool
  | .index _ _ => true
  | .var _ _ => false

/-- The cells of its values, each with its target. -/
def emitValueCells : List (AssignTarget × Expr) → EmitM Unit
  | [] => pure ()
  | (t, v) :: rest => do
    let _ ← mtAlloc 1
    (if isIndexTarget t && storeValueLowers c v then emitStoreValueCell c v else emitExpr c v)
    emitValueCells rest

/-- `emit_target_open` of the variables among the targets, from the last to the first. -/
def emitVarTargets (targets : List AssignTarget) : EmitM Unit :=
  targets.reverse.forM fun t => match t with
    | .var kind idx => emitTargetOpen c (.var kind idx)
    | .index _ _ => pure ()

/-- A target is a maybe-typed slot. -/
def isMaybeTarget : AssignTarget → Bool
  | .var kind idx => kind == .varLocal && slotIsMaybe c idx
  | .index _ _ => false

/-- `emit_assign_multi_cells`: the emission, where it applies. -/
def emitAssignMultiCells (targets : List AssignTarget) (values : List Expr) : Option (EmitM Unit) :=
  if !c.optInt || decide (targets.length < 2) || decide (values.length ≠ targets.length) ||
      targets.any (isMaybeTarget c) then none
  else some do
    let k0 ← getDepth
    emitTargetCells c targets
    emitValueCells c (targets.zip values)
    emitVarTargets c targets
    setDepth k0

/-- `assign_sets_local`. -/
def assignSetsLocal (targets : List AssignTarget) (slot : ℕ) : Bool :=
  targets.any fun t => match t with
    | .var kind idx => kind == .varLocal && idx == slot
    | .index _ _ => false

/-- An expression that is a local which no assignment of the statement changes, nor a closure. -/
def isStaticLocal (targets : List AssignTarget) : Expr → Bool
  | .var _ kind idx _ => kind == .varLocal && !slotIsBoxed c idx && !assignSetsLocal targets idx
  | _ => false

/-- An index target whose table and key need no evaluation ahead of the values. -/
def isStaticTarget (targets : List AssignTarget) : AssignTarget → Bool
  | .var _ _ => true
  | .index table key =>
    isStaticLocal c targets table && (isStaticLocal c targets key || match key with
      | .int _ | .float _ | .string _ => true
      | _ => false)

/-- Tables and keys of the index targets, evaluated ahead. -/
def emitTargetArrays (targets : List AssignTarget) : EmitM Unit :=
  targets.forM fun t => match t with
    | .var _ _ => pure ()
    | .index table key => do emitExpr c table; emitExpr c key

/-- `emit_ibox_store`: the emission, where the target is a variable with an integer box. -/
def emitIboxStore (t : AssignTarget) (v : Expr) : Option (EmitM Unit) :=
  match t with
  | .var .varLocal idx => if slotIsIbox c.toCG idx then some (emitIntExpr c v) else none
  | .var .varUpval idx => if upvalIsIbox c.toCG idx then some (emitIntExpr c v) else none
  | _ => none

/-- The store of a single value to a single target. -/
def emitSingleAssign (t : AssignTarget) (v : Expr) : EmitM Unit :=
  let typed := match t with
    | .var .varLocal idx => emitTypedSlotStore c idx v
    | _ => none
  let unboxed := match t with
    | .index table key => emitUnboxedIndexStore c table key v
    | _ => none
  (((emitIboxStore c t v).or typed).or unboxed).getD do
    emitTargetOpen c t
    emitExpr c v

/-- `emit_assign`. -/
def emitAssign (targets : List AssignTarget) (values : List Expr) : EmitM Unit :=
  match targets, values with
  | [t], [v] => emitSingleAssign c t v
  | targets, values => (emitAssignMultiCells c targets values).getD do
    let hasIndex := !targets.all (isStaticTarget c targets)
    (if hasIndex then emitTargetArrays c targets else pure ())
    emitArgsArray c values
    targets.reverse.forM fun t => match t with
      | .var kind idx => emitTargetOpen c (.var kind idx)
      | .index table key => if hasIndex then pure () else emitTargetOpen c (.index table key)

/-- The leading values of a declaration, each with the name that it goes to, if there is one. -/
def emitLeadValues : List (Option ℕ × Expr) → EmitM Unit
  | [] => pure ()
  | (none, v) :: rest => do emitExpr c v; emitLeadValues rest
  | (some slot, v) :: rest => do
    (if slotIsIbox c.toCG slot then emitIntExpr c v else (emitTypedSlotStore c slot v).getD (emitExpr c v))
    emitLeadValues rest

/-- `emit_local_stmt`. -/
def emitLocalStmt (localIdxs : List ℕ) (attribs : List Attrib) (values : List Expr) : EmitM Unit := do
  let nLead := leadValues localIdxs values
  emitLeadValues c ((values.take nLead).zipIdx.map fun (v, i) => (localIdxs[i]?, v))
  (values.drop nLead).forM (emitMultivalArray c)
  modify fun s => { s with closeCount := s.closeCount + (closeSlots localIdxs attribs).length }

/-- `emit_call_stmt`. -/
def emitCallStmt (e : Expr) : EmitM Unit :=
  match e with
  | .call callee args paren => emitCall c (.call callee args paren)
  | e => if fastCall c e then emitFastCall c e else emitCallArray c e

/-- `emit_global_decl`. -/
def emitGlobalDecl (values : List Expr) : EmitM Unit := emitArgsArray c values

/-! ## Returns -/

/-- `entry_single_result`. -/
def entrySingleResult : Bool := c.entry == .direct1 || c.entry == .fast

/-- Whether a call is emitted as a tail call. -/
def isTailCall : Expr → Bool
  | .call _ _ paren => !paren
  | .methodCall _ _ _ paren => !paren
  | _ => false

/-- `emit_return_values`. -/
def emitReturnValues (values : List Expr) : EmitM Unit :=
  if entrySingleResult c then
    match values with
    | [v] => if c.curRetTy = .int then emitIntExpr c v else if c.curRetTy = .float then emitNumAsF64 c v else emitExpr c v
    | values => emitExprs c values
  else emitArgsArray c values

/-- `emit_return`. Outside the main chunk and with nothing to close, a call may be in tail position: its callee and its
arguments are emitted as those of a call, in the entry that it fits. -/
def emitReturn (mode : OlMode) (values : List Expr) : EmitM Unit := do
  if c.inMain then emitExprs c values
  else if mode ≠ .inline ∨ 0 < (← get).closeCount then emitReturnValues c values
  else match values with
    | [v] =>
      if c.entry = .fast ∧ isTailCall v = true ∧ fastCall c v = true then emitFastCall c v
      else if entrySingleResult c = false ∧ isTailCall v = true then
        match v with
        | .call callee args _ => do emitExpr c callee; emitArgsArray c args
        | .methodCall recv _ args _ => do emitExpr c recv; emitArgsArray c args
        | _ => pure ()
      else emitReturnValues c [v]
    | values => emitReturnValues c values

/-! ## Blocks and loops -/

/-- `MAX_BREAK_DEPTH`. -/
def maxBreakDepth : ℕ := 64

/-- `push_break_label`, the loop, and `break_depth--`. -/
def withBreakLabel (m : EmitM Unit) : EmitM Unit := do
  if maxBreakDepth ≤ (← get).breakDepth then cgError
  else
    modify fun s => { s with breakDepth := s.breakDepth + 1 }
    m
    modify fun s => { s with breakDepth := s.breakDepth - 1 }

/-- The close of what was registered since there were `base` variables to be closed. -/
def setCloseCount (base : ℕ) : EmitM Unit := modify fun s => { s with closeCount := base }

/-- `emit_break`. -/
def emitBreak : EmitM Unit := do
  if (← get).breakDepth = 0 then cgError

/-- A step that needs evaluation at run time: its sign is not known. -/
def stepEvaluated : Option Expr → Option Expr
  | some (.int v) => if v = 0 then some (.int v) else none
  | step => step

/-- The setup of `emit_for_num_int` or of `emit_for_num_boxed`. -/
def emitForSetup (slot : ℕ) (start stop : Expr) (step : Option Expr) : EmitM Unit :=
  if slotIsInt c slot then do
    emitIntExpr c start
    (if exprIsInt c stop then emitIntExpr c stop else emitExpr c stop)
    (stepEvaluated step).forM (emitIntExpr c)
  else do
    emitExpr c start
    emitExpr c stop
    step.forM (emitExpr c)

/-- `stmt_is_loop`. -/
def stmtIsLoop : Stmt → Bool
  | .whileStmt _ _ | .repeatStmt _ _ | .forNum _ _ _ _ _ | .forGen _ _ _ => true
  | _ => false

/-- `emit_outlined_loop` outlines the loop. -/
def outlines (mode : OlMode) (breakDepth : ℕ) (s : Stmt) : Bool :=
  stmtIsLoop s && c.outline && mode == .inline && breakDepth == 0 && c.outlinable s

/-- `MAX_BLOCK_LABELS`. -/
def maxBlockLabels : ℕ := 64

/-- The labels of a block. -/
def labelCount (b : List Stmt) : ℕ := b.countP fun s => match s with
  | .label _ => true
  | _ => false

/-- `emit_block_stmts`, around the emission of the statements. -/
def blockStmts (b : List Stmt) (stmts : EmitM Unit) : EmitM Unit :=
  if maxBlockLabels ≤ labelCount b then cgError else stmts

/-- `emit_block`, around the emission of the statements. -/
def inBlock (b : List Stmt) (stmts : EmitM Unit) : EmitM Unit := do
  let base := (← get).closeCount
  blockStmts b stmts
  if countBlockClose b = 0 then pure () else setCloseCount base

/-- The head of `emit_stmt`: a loop that can be outlined is emitted in the function of its own. -/
def stmtHead (mode : OlMode) (s : Stmt) (emit : OlMode → EmitM Unit) : EmitM Unit := whenOk do
  if outlines c mode (← get).breakDepth s then whenOk (emit .outlined) else emit mode

mutual

/-- `emit_stmt`, past its head. -/
def emitStmt (mode : OlMode) : Stmt → EmitM Unit
  | .localStmt localIdxs attribs values => emitLocalStmt c localIdxs attribs values
  | .assign targets values => emitAssign c targets values
  | .exprStmt e => emitCallStmt c e
  | .ifStmt arms hasElse elseBody => do
    emitArms mode arms
    if hasElse then inBlock elseBody (emitStmts mode elseBody) else pure ()
  | .whileStmt cond body => withBreakLabel do
    emitTruthy c cond
    inBlock body (emitStmts mode body)
  | .doStmt body => inBlock body (emitStmts mode body)
  | .returnStmt values => emitReturn c mode values
  | .localFunc _ func => emitFunctionExpr c func
  | .forNum slot start stop step body => withBreakLabel do
    emitForSetup c slot start stop step
    -- directly in an outlined loop, an integer loop may be emitted once more, in a function that continues it
    (if mode = .outlined ∧ slotIsInt c slot = true ∧ c.nestedCandidate (.forNum slot start stop step body) = true then
      whenOk <| withBreakLabel do
        emitForSetup c slot start stop step
        inBlock body (emitStmts .resumed body)
      else pure ())
    inBlock body (emitStmts mode body)
  | .forGen _ exprs body => withBreakLabel do
    emitArgsArray c exprs
    let base := (← get).closeCount
    setCloseCount (if forGenHasClosing exprs then base + 1 else base)
    inBlock body (emitStmts mode body)
    if forGenHasClosing exprs then setCloseCount base else pure ()
  | .repeatStmt body cond => withBreakLabel do
    let base := (← get).closeCount
    blockStmts body (emitStmts mode body)
    emitTruthy c cond
    setCloseCount base
  | .breakStmt => emitBreak
  | .globalDecl _ values => emitGlobalDecl c values
  | .gotoStmt _ => pure ()
  | .label _ => pure ()

/-- The statements of a block. -/
def emitStmts (mode : OlMode) : List Stmt → EmitM Unit
  | [] => pure ()
  | s :: rest => do
    stmtHead c mode s fun m => emitStmt m s
    emitStmts mode rest

/-- The arms of `emit_if`. -/
def emitArms (mode : OlMode) : List IfArm → EmitM Unit
  | [] => pure ()
  | .mk cond body :: arms => do
    emitTruthy c cond
    inBlock body (emitStmts mode body)
    emitArms mode arms

end

/-- `body_emit`. -/
def bodyEmit (b : Block) : EmitM Unit := whenOk do
  setCloseCount 0
  inBlock b (emitStmts c .inline b)

/-- The emission of a body from the state that `body_begin` sets up, where `ok` says whether an error was raised
before. -/
def emitBody (ok : Bool) (b : Block) : EmitState :=
  ((bodyEmit c b).run ⟨0, mtMax c b, ok, 0, 0, []⟩).2

end Lua2wasm.Lowering
