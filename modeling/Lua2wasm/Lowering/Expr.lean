import Lua2wasm.Lowering.Need

/-!
# Emission, and the temporaries it takes

How `codegen/expr.c`, `codegen/maybe.c` and `codegen/stmt.c` go through a body when they emit it, as far as it matters
for the lowering temporaries: in which of its ways each expression is emitted, and where temporaries are taken
(`mt_alloc`) and given back. The text that is emitted, and the counters behind its names, are left out; a function of
the source that takes no temporary and emits no expression has no counterpart here.

The expressions are emitted by mutual recursion, and the ways call each other on one and the same expression. The second
number of each measure orders them there.
-/

namespace Lua2wasm.Lowering

open Analysis

/-- What emission changes of the source's `CG`. -/
structure EmitState where
  /-- `mt_depth`: the temporaries in use. -/
  mtDepth : ℕ
  /-- `mt_max`: the temporaries that are declared. -/
  mtMax : ℕ
  /-- Whether no error has been raised. -/
  ok : Bool
  /-- The to-be-closed variables in scope. -/
  closeCount : ℕ
  /-- The loops around. -/
  breakDepth : ℕ
  /-- The temporaries in use after each allocation so far. -/
  allocs : List ℕ
  deriving DecidableEq, Repr

/-- An emission. -/
abbrev EmitM := StateM EmitState

/-- `cg_error`. -/
def cgError : EmitM Unit := modify fun s => { s with ok := false }

/-- The test of `c->ok` at the head of a function. -/
def whenOk (m : EmitM Unit) : EmitM Unit := do
  if (← get).ok then m

/-- The temporaries in use. -/
def getDepth : EmitM ℕ := do return (← get).mtDepth

/-- The assignment that gives temporaries back. -/
def setDepth (k : ℕ) : EmitM Unit := modify fun s => { s with mtDepth := k }

/-- `mt_alloc`. -/
def mtAlloc (n : ℕ) : EmitM ℕ := do
  let k ← getDepth
  modify fun s => { s with mtDepth := k + n, allocs := s.allocs ++ [k + n] }
  if (← get).mtMax < k + n then cgError
  return k

variable (c : EmitCG)

/-- `emit_box_ref`, of a captured variable. -/
def emitBoxRef (u : UpvalueRef) : EmitM Unit :=
  if u.src = .fromLocal ∧ slotIsBoxed c u.idx = false then cgError else pure ()

/-- `emit_function_expr`. -/
def emitFunctionExpr (func : ℕ) : EmitM Unit :=
  (((c.funcs[func]?).map (·.upvalues)).getD []).forM (emitBoxRef c)

/-! ## Expressions -/

mutual

/-- `emit_expr`. -/
def emitExpr (e : Expr) : EmitM Unit := whenOk <|
  if exprIsInt c e then emitIntExpr e
  else if exprIsFloat c e then emitFloatExpr e
  else match e with
    | .call callee args paren => emitCall (.call callee args paren)
    | .binop op lhs rhs paren => emitBinop (.binop op lhs rhs paren)
    | .unop op operand => emitUnop (.unop op operand)
    | .function func => emitFunctionExpr c func
    | .index table key => emitIndexExpr (.index table key)
    | .table entries => emitTableEntries (ctorShapeFields c entries) entries
    | .methodCall recv method args paren =>
      if fastCall c (.methodCall recv method args paren) then emitFastCall (.methodCall recv method args paren)
      else emitCallArray (.methodCall recv method args paren)
    | _ => pure ()
termination_by (sizeOf e, 6)
decreasing_by all_goals simp +arith [Prod.lex_def]

/-- `emit_int_expr`. -/
def emitIntExpr (e : Expr) : EmitM Unit := whenOk <|
  match e with
  | .int _ | .var _ _ _ _ => pure ()
  | .unop _ operand => emitIntExpr operand
  | .binop _ lhs rhs _ => do emitIntExpr lhs; emitIntExpr rhs
  | .call callee args _ => do
    emitExpr callee
    emitTypedArgs (((targetSig c.toCG callee args).map (·.paramTy)).getD []) args
  | _ => cgError
termination_by (sizeOf e, 0)
decreasing_by all_goals simp +arith [Prod.lex_def]

/-- `emit_float_expr`. -/
def emitFloatExpr (e : Expr) : EmitM Unit := whenOk <|
  match e with
  | .float _ | .var _ _ _ _ => pure ()
  | .unop _ operand => emitNumAsF64 operand
  | .binop _ lhs rhs _ => do emitNumAsF64 lhs; emitNumAsF64 rhs
  | .call callee args _ => do
    emitExpr callee
    emitTypedArgs (((targetSig c.toCG callee args).map (·.paramTy)).getD []) args
  | _ => cgError
termination_by (sizeOf e, 0)
decreasing_by all_goals simp +arith [Prod.lex_def]

/-- `emit_num_as_f64`. -/
def emitNumAsF64 (e : Expr) : EmitM Unit :=
  if exprIsFloat c e then emitFloatExpr e else emitIntExpr e
termination_by (sizeOf e, 1)
decreasing_by all_goals simp +arith [Prod.lex_def]

/-- `emit_typed_args`. A parameter without a type counts as `NT_ANY`. -/
def emitTypedArgs (tys : List NumTy) (args : List Expr) : EmitM Unit :=
  match args with
  | [] => pure ()
  | a :: rest => do
    (match tys.head? with
      | some .int => emitIntExpr a
      | some .float => emitNumAsF64 a
      | _ => emitExpr a)
    emitTypedArgs tys.tail rest
termination_by (sizeOf args, 0)
decreasing_by all_goals simp +arith [Prod.lex_def]

/-- Expressions emitted one after the other. -/
def emitExprs (es : List Expr) : EmitM Unit :=
  match es with
  | [] => pure ()
  | e :: rest => do emitExpr e; emitExprs rest
termination_by (sizeOf es, 0)
decreasing_by all_goals simp +arith [Prod.lex_def]

/-- `emit_args_array`: the last expression with all its values, if it can have many. -/
def emitArgsArray (args : List Expr) : EmitM Unit :=
  match args with
  | [] => pure ()
  | [a] => if a.isMultivalTail then emitMultivalArray a else emitExpr a
  | a :: rest => do emitExpr a; emitArgsArray rest
termination_by (sizeOf args, 0)
decreasing_by all_goals simp +arith [Prod.lex_def]

/-- `emit_multival_array`. The named vararg table is a variable. -/
def emitMultivalArray (e : Expr) : EmitM Unit :=
  match e with
  | .vararg _ _ _ => pure ()
  | e => emitCallArray e
termination_by (sizeOf e, 4)
decreasing_by all_goals simp +arith [Prod.lex_def]

/-- `emit_call_array`. The receiver of a method call is parked before anything else. -/
def emitCallArray (e : Expr) : EmitM Unit :=
  match e with
  | .call callee args paren => do
    emitExpr callee
    match directSig c (.call callee args paren) with
      | some sg => emitTypedArgs sg.paramTy args
      | none => emitArgsArray args
  | .methodCall recv _ args _ => do emitExpr recv; emitArgsArray args
  | _ => pure ()
termination_by (sizeOf e, 3)
decreasing_by all_goals simp +arith [Prod.lex_def]

/-- `emit_fast_call`. -/
def emitFastCall (e : Expr) : EmitM Unit :=
  match e with
  | .call callee args _ => do emitExpr callee; emitExprs args
  | .methodCall recv _ args _ => do emitExpr recv; emitExprs args
  | _ => pure ()
termination_by (sizeOf e, 3)
decreasing_by all_goals simp +arith [Prod.lex_def]

/-- `emit_call`. -/
def emitCall (e : Expr) : EmitM Unit :=
  match e with
  | .call callee args paren =>
    match directSig c (.call callee args paren) with
    | some sg => do emitExpr callee; emitTypedArgs sg.paramTy args
    | none =>
      if fastCall c (.call callee args paren) then emitFastCall (.call callee args paren)
      else emitCallArray (.call callee args paren)
  | _ => pure ()
termination_by (sizeOf e, 5)
decreasing_by all_goals simp +arith [Prod.lex_def]

/-- `emit_table_ctor`: the entries, with `nshape` fields at a position of their own. A list constructor emits its
values in the same order. -/
def emitTableEntries (nshape : ℕ) (entries : List TableEntry) : EmitM Unit :=
  match entries with
  | [] => pure ()
  | [.positional v] => if v.isMultivalTail then emitMultivalArray v else emitExpr v
  | .positional v :: rest => do emitExpr v; emitTableEntries nshape rest
  | .keyExpr k v :: rest => do
    (if 0 < nshape ∨ isKstr k = true then if exprIsFloat c v then emitFloatExpr v else emitExpr v
      else do emitExpr k; emitExpr v)
    emitTableEntries nshape rest
termination_by (sizeOf entries, 0)
decreasing_by all_goals simp +arith [Prod.lex_def]

/-- `emit_index_expr`. -/
def emitIndexExpr (e : Expr) : EmitM Unit :=
  match e with
  | .index table key =>
    if isKstr key then emitExpr table
    else if isMaybeKey c key then emitExpr table
    else if exprIsInt c key then do emitExpr table; emitIntExpr key
    else do emitExpr table; emitExpr key
  | _ => pure ()
termination_by (sizeOf e, 5)
decreasing_by all_goals simp +arith [Prod.lex_def]

/-- `emit_unop`. -/
def emitUnop (e : Expr) : EmitM Unit :=
  match e with
  | .unop op operand =>
    if op = .neg ∧ exprInvolvesMaybe c (.unop op operand) = true then emitMaybeBoxed (.unop op operand)
    else emitExpr operand
  | _ => pure ()
termination_by (sizeOf e, 5)
decreasing_by all_goals simp +arith [Prod.lex_def]

/-- `emit_binop`. A concatenation is flattened along its right spine. -/
def emitBinop (e : Expr) : EmitM Unit :=
  match e with
  | .binop op lhs rhs paren =>
    if op = .and ∨ op = .or then do emitExpr lhs; emitExpr rhs
    else if exprInvolvesMaybe c (.binop op lhs rhs paren) then
      if isCmpOp op then emitMaybeCmpBlock lhs rhs else emitMaybeBoxed (.binop op lhs rhs paren)
    else match cmpNumericKind c op lhs rhs with
      | some kind => emitCmpI32 kind lhs rhs
      | none =>
        if op = .concat then do emitExpr lhs; emitConcatParts 1 rhs
        else do emitExpr lhs; emitExpr rhs
  | _ => pure ()
termination_by (sizeOf e, 5)
decreasing_by all_goals simp +arith [Prod.lex_def]

/-- `emit_concat_parts`: the parts of a chain from the one that the right spine has come to, at most 64 in all. -/
def emitConcatParts (k : ℕ) (e : Expr) : EmitM Unit :=
  match e with
  | .binop op lhs rhs paren =>
    if op = .concat ∧ paren = false ∧ k < 63 then do emitExpr lhs; emitConcatParts (k + 1) rhs
    else emitExpr (.binop op lhs rhs paren)
  | e => emitExpr e
termination_by (sizeOf e, 7)
decreasing_by all_goals simp +arith [Prod.lex_def]

/-- `emit_cmp_i32`. -/
def emitCmpI32 (kind : CmpKind) (lhs rhs : Expr) : EmitM Unit :=
  match kind with
  | .int => do emitIntExpr lhs; emitIntExpr rhs
  | .float => do emitNumAsF64 lhs; emitNumAsF64 rhs
  | .intFloat =>
    if exprIsExactF64IntLiteral lhs then do emitNumAsF64 lhs; emitNumAsF64 rhs
    else do emitIntExpr lhs; emitFloatExpr rhs
  | .floatInt =>
    if exprIsExactF64IntLiteral rhs then do emitNumAsF64 lhs; emitNumAsF64 rhs
    else do emitFloatExpr lhs; emitIntExpr rhs
termination_by (sizeOf lhs + sizeOf rhs + 1, 0)
decreasing_by all_goals simp +arith [Prod.lex_def]

-- the maybe-typed lowering (`codegen/maybe.c`)

/-- `emit_maybe_operands`: a temporary for each operand that is not immediate, both taken before the operands are
lowered into them. The result is the depth to go back to. -/
def emitMaybeOperands (lhs rhs : Expr) : EmitM ℕ := do
  let k ← getDepth
  let il := operandImmediate c lhs (some rhs)
  let ir := operandImmediate c rhs none
  let next := k + (!il).toNat + (!ir).toNat
  let _ ← mtAlloc (next - k)
  (if il then pure () else emitMaybeLower lhs)
  (if ir then pure () else emitMaybeLower rhs)
  return k
termination_by (sizeOf lhs + sizeOf rhs + 1, 0)
decreasing_by all_goals simp +arith [Prod.lex_def]

/-- `emit_maybe_cmp_block`. -/
def emitMaybeCmpBlock (lhs rhs : Expr) : EmitM Unit := do
  let k ← emitMaybeOperands lhs rhs
  setDepth k
termination_by (sizeOf lhs + sizeOf rhs + 1, 1)
decreasing_by all_goals simp +arith [Prod.lex_def]

/-- The lowering of an arithmetic operator or a unary minus, by `emit_maybe_lower`, where it is no typed number. -/
def emitMaybeTree (e : Expr) : EmitM Unit :=
  match e with
  | .binop _ lhs rhs _ => do
    let k ← emitMaybeOperands lhs rhs
    setDepth k
  | .unop _ operand => do
    let k ← getDepth
    (if operandImmediate c operand none then pure () else do
      let _ ← mtAlloc 1
      emitMaybeLower operand)
    setDepth k
  | _ => pure ()
termination_by (sizeOf e, 1)
decreasing_by all_goals simp +arith [Prod.lex_def]

/-- `emit_maybe_boxed`, of an arithmetic operator or a unary minus (`emitMaybeBoxed_eq`). -/
def emitMaybeBoxed (e : Expr) : EmitM Unit := do
  let k ← mtAlloc 1
  whenOk <|
    if exprIsInt c e then emitIntExpr e
    else if exprIsFloat c e then emitFloatExpr e
    else emitMaybeTree e
  setDepth k
termination_by (sizeOf e, 2)
decreasing_by all_goals simp +arith [Prod.lex_def]

/-- `emit_maybe_math_call`. The builtin has a global, so the callee is always emitted. -/
def emitMaybeMathCall (callee arg : Expr) : EmitM Unit := do
  let k ← getDepth
  let _ ← mtAlloc 1
  emitExpr callee
  (if operandImmediate c arg none then pure () else do
    let _ ← mtAlloc 1
    emitMaybeLower arg)
  setDepth k
termination_by (sizeOf callee + sizeOf arg + 1, 0)
decreasing_by all_goals simp +arith [Prod.lex_def]

/-- `emit_maybe_lower`. -/
def emitMaybeLower (e : Expr) : EmitM Unit := whenOk <|
  if exprIsInt c e then emitIntExpr e
  else if exprIsFloat c e then emitFloatExpr e
  else match e with
    | .var name kind idx ro =>
      if kind = .varLocal ∧ slotIsMaybe c idx = true then pure () else emitExpr (.var name kind idx ro)
    | .binop op lhs rhs paren =>
      if maybeArithOp op then emitMaybeTree (.binop op lhs rhs paren) else emitExpr (.binop op lhs rhs paren)
    | .call callee [arg] paren =>
      if arg.isMultivalTail = false ∧ (calleeMathKind c callee).isSome = true then emitMaybeMathCall callee arg
      else emitExpr (.call callee [arg] paren)
    | .index table key =>
      if !isKstr key && exprIsInt c key then do emitExpr table; emitIntExpr key
      else if isMaybeKey c key || isKstr key then emitExpr table
      else emitExpr (.index table key)
    | .unop op operand =>
      if op = .len then emitExpr operand
      else if op = .neg then emitMaybeTree (.unop op operand)
      else emitExpr (.unop op operand)
    | e => emitExpr e
termination_by (sizeOf e, 8)
decreasing_by all_goals simp +arith [Prod.lex_def]

end

/-- An arithmetic operator or a unary minus: what `emit_maybe_boxed` is called with. -/
def isMaybeTree : Expr → Bool
  | .binop op _ _ _ => maybeArithOp op
  | .unop op _ => op == .neg
  | _ => false

/-- `emit_maybe_boxed` lowers the expression into a cell of its own. -/
theorem emitMaybeBoxed_eq {e : Expr} (h : isMaybeTree e = true) : emitMaybeBoxed c e = (do
    let k ← mtAlloc 1
    emitMaybeLower c e
    setDepth k) := by
  rw [emitMaybeBoxed]
  cases e with
  | binop op lhs rhs paren =>
    have hop : maybeArithOp op = true := h
    unfold emitMaybeLower
    simp only [hop, if_true]
  | unop op operand =>
    have hop : op = .neg := eq_of_beq h
    subst hop
    unfold emitMaybeLower
    simp
  | _ => cases h

end Lua2wasm.Lowering
