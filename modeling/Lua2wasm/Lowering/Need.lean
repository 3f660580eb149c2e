import Lua2wasm.Analysis.Signatures
import Lua2wasm.Codegen.Kstr

/-!
# The temporaries that a body needs

The last part of `codegen/analysis.c`'s account of a body: which expressions are lowered onto maybe-typed cells
(`expr_involves_maybe`), which operands need no temporary there (`operand_immediate`), and how many temporaries the
lowering of a body takes at most (`block_temp_need`). With them stands what else decides how an expression is emitted:
the inline math builtins of `codegen/maybe.c`, and from `codegen/expr.c` the direct and the fast calls, the typed
comparisons and the constructors on a cached shape.
-/

namespace Lua2wasm.Lowering

open Analysis

/-- `FnEntry`: the wasm entry of a function that is emitted. -/
inductive FnEntry
  | generic
  | fast
  | direct
  | direct1
  deriving DecidableEq, Repr

/-- What emission reads of the source's `CG`, besides what the analyses of the slots read. -/
structure EmitCG extends CG where
  /-- Whether the specializer is on (`opt >= 1`). -/
  optInt : Bool
  /-- The maybe-typed slots, or `none` where the source has no table. -/
  curIsMaybe : Option (List Bool)
  /-- The slots that are captured, one flag for each local of the body. -/
  curCaptured : List Bool
  /-- The main chunk. -/
  mainBody : Block
  /-- The names of the globals table. -/
  globals : List String
  /-- The entry whose body is emitted. -/
  entry : FnEntry
  /-- Whether the body is the main chunk. -/
  inMain : Bool
  /-- The result type of a `direct1` entry. -/
  curRetTy : NumTy
  /-- The body is known to run once and has a loop to outline. -/
  outline : Bool
  /-- Whether an outermost loop of such a body can be outlined: no goto leaves it, and its state is not too wide. -/
  outlinable : Stmt → Bool
  /-- `ol_nested_candidate`, of an integer `for` in an outlined loop. -/
  nestedCandidate : Stmt → Bool

variable (c : EmitCG)

/-! ## Slots and operands -/

/-- `slot_is_int`. -/
def slotIsInt (slot : ℕ) : Bool := c.optInt && Analysis.slotIsInt c.toCG slot

/-- `slot_is_float`. -/
def slotIsFloat (slot : ℕ) : Bool := c.optInt && Analysis.slotIsFloat c.toCG slot

/-- `slot_is_maybe`. -/
def slotIsMaybe (slot : ℕ) : Bool := c.optInt && (c.curIsMaybe.getD []).getD slot false

/-- `slot_is_boxed`. -/
def slotIsBoxed (slot : ℕ) : Bool := c.curCaptured.getD slot true

/-- `expr_is_int`. -/
def exprIsInt (e : Expr) : Bool := c.optInt && Analysis.exprIsInt c.toCG e

/-- `expr_is_float`. -/
def exprIsFloat (e : Expr) : Bool := c.optInt && Analysis.exprIsFloat c.toCG e

/-- `maybe_arith_op`. -/
def maybeArithOp : BinOp → Bool
  | .add | .sub | .mul | .div | .fdiv | .mod => true
  | _ => false

/-- `is_cmp_op`. -/
def isCmpOp : BinOp → Bool
  | .lt | .le | .gt | .ge | .eq | .neq => true
  | _ => false

/-- `expr_has_opaque`. -/
def exprHasOpaque : Expr → Bool
  | .var _ kind idx _ =>
    if kind = .varLocal then slotIsMaybe c idx || (!slotIsInt c idx && !slotIsFloat c idx) else true
  | .index _ _ | .call _ _ _ | .methodCall _ _ _ _ => true
  | .binop op lhs rhs _ => (maybeArithOp op || isCmpOp op) && (exprHasOpaque lhs || exprHasOpaque rhs)
  | .unop op operand => op == .len || (op == .neg && exprHasOpaque operand)
  | _ => false

/-- `expr_numeric_evidence`. -/
def exprNumericEvidence : Expr → Bool
  | .int _ | .float _ => true
  | .var _ kind idx _ => kind == .varLocal && (slotIsMaybe c idx || slotIsInt c idx || slotIsFloat c idx)
  | .binop op lhs rhs _ =>
    if maybeArithOp op then true
    else if !isCmpOp op then false
    else exprNumericEvidence lhs || exprNumericEvidence rhs
  | .unop op _ => op == .neg || op == .len
  | .call callee args paren => exprIsInt c (.call callee args paren) || exprIsFloat c (.call callee args paren)
  | _ => false

/-- `expr_involves_maybe`. -/
def exprInvolvesMaybe (e : Expr) : Bool :=
  if !c.optInt || c.curIsMaybe.isNone then false
  else match e with
    | .binop op lhs rhs paren =>
      exprHasOpaque c (.binop op lhs rhs paren) &&
        (!isCmpOp op || exprNumericEvidence c lhs || exprNumericEvidence c rhs)
    | e => exprHasOpaque c e

/-- `expr_side_effect_free`. -/
def exprSideEffectFree : Expr → Bool
  | .int _ | .float _ | .nil | .true | .false | .string _ => true
  | .var _ kind _ _ => kind == .varLocal
  | .binop op lhs rhs _ => (maybeArithOp op || isCmpOp op) && exprSideEffectFree lhs && exprSideEffectFree rhs
  | .unop op operand => op == .neg && exprSideEffectFree operand
  | _ => false

/-- `operand_immediate`: the operand needs no temporary, where `otherAfter` is evaluated after it. -/
def operandImmediate (e : Expr) (otherAfter : Option Expr) : Bool :=
  match e with
  | .int _ | .float _ => true
  | .var _ kind idx _ =>
    kind == .varLocal && otherAfter.all exprSideEffectFree &&
      (slotIsInt c idx || slotIsFloat c idx || slotIsMaybe c idx)
  | _ => false

/-! ## The bound -/

mutual

/-- `expr_temp_need`. -/
def exprTempNeed : Expr → ℕ
  | .binop _ lhs rhs _ =>
    let tl := !operandImmediate c lhs (some rhs)
    let tr := !operandImmediate c rhs none
    tl.toNat + tr.toNat + max (if tl then exprTempNeed lhs else 0) (if tr then exprTempNeed rhs else 0)
  | .unop _ operand =>
    let t := !operandImmediate c operand none
    t.toNat + if t then exprTempNeed operand else 0
  | .call callee args _ => argsTempNeed 2 args (1 + exprTempNeed callee)
  | .methodCall recv _ args _ => argsTempNeed 1 args (1 + exprTempNeed recv)
  | .index table key => max (1 + exprTempNeed table) (1 + exprTempNeed key)
  | .table entries => entriesTempNeed entries 0
  | _ => 0

/-- The loop over the arguments of a call, from `m`. Each counts with `k` cells below it. -/
def argsTempNeed (k : ℕ) : List Expr → ℕ → ℕ
  | [], m => m
  | a :: args, m => argsTempNeed k args (max m (k + exprTempNeed a))

/-- The loop over the entries of a constructor, from `m`. -/
def entriesTempNeed : List TableEntry → ℕ → ℕ
  | [], m => m
  | .positional v :: entries, m => entriesTempNeed entries (max m (1 + exprTempNeed v))
  | .keyExpr k v :: entries, m => entriesTempNeed entries (max (max m (1 + exprTempNeed k)) (1 + exprTempNeed v))

end

/-- The live cells and the deepest sub-expression of the targets of a multi-assignment, from `live` and `sub`. -/
def targetsTempNeed : List AssignTarget → ℕ × ℕ → ℕ × ℕ
  | [], p => p
  | .var _ _ :: targets, p => targetsTempNeed targets p
  | .index table key :: targets, (live, sub) =>
    targetsTempNeed targets (live + 2, max (max sub (1 + exprTempNeed c table)) (1 + exprTempNeed c key))

/-- `multi_assign_stmt_need`. -/
def multiAssignStmtNeed : Stmt → ℕ
  | .assign targets values =>
    if targets.length < 2 ∨ values.length ≠ targets.length then 0
    else
      let (live, sub) := targetsTempNeed c targets (values.length, 0)
      live + argsTempNeed c 1 values sub
  | _ => 0

/-- The greatest of the needs of a list, as the visitors of `TempNeed` keep it. -/
def maxNeed {α : Type} (need : α → ℕ) (xs : List α) (m : ℕ) : ℕ := xs.foldl (fun m x => max m (need x)) m

/-- `block_temp_need`. -/
def blockTempNeed (b : Block) : ℕ :=
  let m := maxNeed (fun e => 1 + exprTempNeed c e) ((walkStmts b).flatMap ownExprs) 0
  -- and the table, key and value cells of an unboxed store
  maxNeed (multiAssignStmtNeed c) (walkStmts b) m + 3

/-- The temporaries that `body_begin` declares. -/
def mtMax (b : Block) : ℕ := if c.optInt then blockTempNeed c b else 0

/-! ## Calls -/

/-- `direct_call_target` and `direct_args_typed_ok`: the signature of a function that the call can enter directly, with
arguments that fit it. -/
def directSig : Expr → Option FuncSig
  | .call callee args _ =>
    if c.optInt then (targetSig c.toCG callee args).filter fun sg => directArgsTypedOk c.toCG sg.paramTy args else none
  | _ => none

/-- `FAST_MAX_ARGS`. -/
def fastMaxArgs : ℕ := 4

/-- `fast_call_nargs` is not `-1`. -/
def fastCall : Expr → Bool
  | .call _ args _ => c.optInt && decide (args.length ≤ fastMaxArgs) && !args.getLast?.any Expr.isMultivalTail
  | .methodCall _ _ args _ =>
    c.optInt && decide (args.length + 1 ≤ fastMaxArgs) && !args.getLast?.any Expr.isMultivalTail
  | _ => false

/-! ## Inline math builtins -/

/-- `MathBuiltin`, with `none` for `MB_NONE`. -/
inductive MathBuiltin
  | sqrt
  | abs
  | floor
  | ceil
  deriving DecidableEq, Repr

/-- `MATH_INLINE`. -/
def mathInline : List (String × MathBuiltin) :=
  [("sqrt", .sqrt), ("abs", .abs), ("floor", .floor), ("ceil", .ceil)]

/-- `math_index_kind`. -/
def mathIndexKind : Expr → Option MathBuiltin
  | .index (.var _ .varGlobal idx _) (.string key) =>
    if c.globals[idx]? = some "math" then mathInline.lookup key else none
  | _ => none

/-- `find_local_init_block`: the initializer of the first declaration of a slot, if it is the value of one name. -/
def findLocalInit (b : Block) (slot : ℕ) : Option Expr :=
  let inits := (walkStmts b).flatMap fun s => match s with
    | .localStmt localIdxs _ values =>
      let lastCall := values.getLast?.any Expr.isMultivalTail
      let nLead := if lastCall then values.length - 1 else values.length
      localIdxs.zipIdx.map fun (s, j) => (s, if j < nLead then values[j]? else none)
    | _ => []
  (inits.lookup slot).join

/-- The body of a function, or the main chunk. -/
def bodyOf (f : Option ℕ) : Block :=
  match f with
  | none => c.mainBody
  | some k => ((c.funcs[k]?).map (·.body)).getD []

/-- `callee_math_kind`. -/
def calleeMathKind (callee : Expr) : Option MathBuiltin :=
  (mathIndexKind c callee).or <|
    let declared := match callee with
      | .var _ .varLocal idx _ => some (c.curFuncIdx, idx)
      | .var _ .varUpval idx _ => c.curFuncIdx.bind fun k => resolveUpvalOrigin c.funcs k idx
      | _ => none
    declared.bind fun (f, slot) => (findLocalInit (bodyOf c f) slot).bind (mathIndexKind c)

/-! ## Comparisons, keys and constructors -/

/-- `CmpKind`, with `none` for `CMP_NONE`. -/
inductive CmpKind
  | int
  | float
  | intFloat
  | floatInt
  deriving DecidableEq, Repr

/-- `cmp_numeric_kind`. -/
def cmpNumericKind (op : BinOp) (lhs rhs : Expr) : Option CmpKind :=
  if !c.optInt || !isCmpOp op then none
  else if exprIsInt c lhs && exprIsInt c rhs then some .int
  else if exprIsFloat c lhs && exprIsFloat c rhs then some .float
  else if exprIsInt c lhs && exprIsFloat c rhs then some .intFloat
  else if exprIsFloat c lhs && exprIsInt c rhs then some .floatInt
  else none

/-- `expr_is_exact_f64_int_literal`. -/
def exprIsExactF64IntLiteral : Expr → Bool
  | .int v => decide (-2 ^ 53 ≤ v.toInt ∧ v.toInt ≤ 2 ^ 53)
  | _ => false

/-- A constant string that is hoisted into a global. -/
def isKstr : Expr → Bool
  | .string s => decide (s.length ≤ Codegen.kstrMax)
  | _ => false

/-- A key that is a maybe-typed local. -/
def isMaybeKey : Expr → Bool
  | .var _ kind idx _ => kind == .varLocal && slotIsMaybe c idx
  | _ => false

/-- The keys of a constructor. -/
def entryKeys (entries : List TableEntry) : List Expr :=
  entries.filterMap fun ent => match ent with
    | .keyExpr k _ => some k
    | .positional _ => none

/-- `CTOR_SHAPE_MAX`. -/
def ctorShapeMax : ℕ := 32

/-- `ctor_shape_fields`. -/
def ctorShapeFields (entries : List TableEntry) : ℕ :=
  let keys := entryKeys entries
  let names : List String := keys.filterMap fun k => match k with
    | .string s => some s
    | _ => none
  if c.optInt && keys.all isKstr && decide names.Nodup && decide (keys.length ≤ ctorShapeMax) then keys.length else 0

end Lua2wasm.Lowering
