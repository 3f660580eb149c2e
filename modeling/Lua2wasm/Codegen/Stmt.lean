import Lua2wasm.Ast
import Lua2wasm.Lib.Fallible
import Lua2wasm.Lib.Structured

/-!
# Statement emission

The control structure that `codegen/stmt.c` emits for a function body: the loops, the dispatch
tables that labels and gotos become, and the places where to-be-closed values are registered and
closed. What a statement does to values stays one instruction (`Act`), so that each development over
the emitted code can read it in its own way; the branches and the closes around it are emitted as
in the source.

Two things are added for the statements of the theorems. An instruction carries the declarations
in scope where it stands (`Placed`), and a goto's instruction carries the label it resolved to. The
emitted code does not depend on them.

Outlining is left out. `emit_outlined_loop` at the head of `emit_stmt` moves a loop into a function of its own; here
it stays in its body, `emit_return` has no branch for `ol_active`, and a loop has no `ol_loop_header`, which is empty
outside of such a function.
-/

namespace Lua2wasm

open Structured

/-- What a declaration brings into scope: a local, the registration of a local with `<close>`, or the
closing value of a generic `for` (named by the loop's variables). -/
inductive Binder
  | slot (s : ℕ)
  | close (s : ℕ)
  | closing (vars : List ℕ)
  deriving DecidableEq, Repr

/-- The declarations in scope, innermost first. -/
abbrev LexScope := List Binder

/-- Whether a binder stands for an entry of the to-be-closed stack. -/
def Binder.isClose : Binder → Bool
  | .slot _ => false
  | .close _ => true
  | .closing _ => true

/-- The to-be-closed entries among the declarations in scope, innermost first. -/
def closers (scope : LexScope) : List Binder := scope.filter Binder.isClose

/-- The labels of the emitted code. -/
inductive WatLabel
  | brk (n : ℕ)
  | cont (n : ℕ)
  | ifEnd (n : ℕ)
  | fncloseDone (n : ℕ)
  | fncloseCatch (n : ℕ)
  | exit (bid : ℕ)
  | dispatch (bid : ℕ)
  | seg (bid k : ℕ)
  deriving DecidableEq, Repr

/-- A label of a block, as the pre-pass stamps it: its dispatch block, its segment there, and the
number of to-be-closed values in scope at it. -/
structure LabelInfo where
  /-- The name. -/
  name : String
  /-- `block_dispatch_id`. -/
  blockDispatchId : ℕ
  /-- `segment_idx`. -/
  segmentIdx : ℕ
  /-- `close_base`. -/
  closeBase : ℕ
  /-- The declarations in scope at the label. -/
  scope : LexScope
  /-- The declarations in scope where its block begins. -/
  outer : LexScope
  /-- Whether nothing but labels follows it before its block is left. -/
  endsBlock : Bool
  deriving DecidableEq, Repr

/-- What the emitted instructions do. -/
inductive Act
  /-- `emit_local_stmt` without the registrations. -/
  | localStores (localIdxs : List ℕ) (values : List Expr)
  /-- `$tbc_push`. -/
  | tbcPush (b : Binder)
  /-- `$close_upto`, without an error object. -/
  | closeUpto (target : ℕ)
  /-- `emit_assign`. -/
  | assign (targets : List AssignTarget) (values : List Expr)
  /-- `emit_call_stmt`. -/
  | callStmt (expr : Expr)
  /-- `emit_local_func`. -/
  | localFunc (localIdx func : ℕ)
  /-- `emit_global_decl`. -/
  | globalDecl (globalIdxs : List ℕ) (values : List Expr)
  /-- The values of a `return`, left on the stack. -/
  | returnValues (values : List Expr)
  /-- `emit_truthy`, with `i32.eqz` after it if `negate`. -/
  | test (cond : Expr) (negate : Bool)
  /-- The set-up of a numeric `for`. -/
  | forNumInit (localIdx : ℕ) (start stop : Expr) (step : Option Expr)
  /-- The test whether the loop runs at all. -/
  | forNumSkip
  /-- The exit test at the head of an iteration. -/
  | forNumTest
  /-- The control variable of an iteration. -/
  | forNumBind (localIdx : ℕ)
  /-- The next value, with the test whether it wrapped around. -/
  | forNumStep
  /-- The next value becomes the current one. -/
  | forNumAdvance (localIdx : ℕ)
  /-- The explist of a generic `for`. -/
  | forGenInit (exprs : List Expr)
  /-- The loop variables get placeholders, and the way of stepping is chosen. -/
  | forGenPre (localIdxs : List ℕ)
  /-- The iterator's call, with the test for the end. -/
  | forGenNext (localIdxs : List ℕ)
  /-- The loop variables of an iteration. -/
  | forGenBind (localIdxs : List ℕ)
  /-- `local.set $next_BID`. -/
  | setNext (bid k : ℕ)
  /-- The `local.set $next_BID` of a goto to `target`. -/
  | jump (target : LabelInfo)
  /-- The handler of the function-level catch takes the error, and restores depth and cost. -/
  | caught
  /-- `$close_upto` down to 0 with the error that was caught. -/
  | closeError

/-- The declarations that an instruction brings into scope, innermost first. -/
def Act.binds : Act → LexScope
  | .localStores localIdxs _ => (localIdxs.map .slot).reverse
  | .tbcPush b => [b]
  | .localFunc localIdx _ => [.slot localIdx]
  | .forNumBind localIdx => [.slot localIdx]
  | .forGenBind localIdxs => (localIdxs.map .slot).reverse
  | _ => []

/-- An instruction with the declarations in scope where it stands. -/
structure Placed where
  /-- The declarations in scope. -/
  scope : LexScope
  /-- What the instruction does. -/
  act : Act

/-- Emitted code. The index registers are the `$next_BID`. -/
abbrev WatCode := Code WatLabel Placed ℕ

/-! ## Counting to-be-closed values -/

/-- `is_multival_tail`. -/
def Expr.isMultivalTail : Expr → Bool
  | .call _ _ paren => !paren
  | .methodCall _ _ _ paren => !paren
  | .vararg _ pack paren => !paren && !pack
  | _ => Bool.false

/-- `for_gen_has_closing`: whether the explist can yield a fourth value. -/
def forGenHasClosing (exprs : List Expr) : Bool :=
  exprs.length ≥ 4 || (exprs.getLast?.map Expr.isMultivalTail).getD false

/-- The slots of a declaration that have `<close>`. -/
def closeSlots (localIdxs : List ℕ) (attribs : List Attrib) : List ℕ :=
  ((localIdxs.zip attribs).filter fun p => p.2 = .close).map Prod.fst

/-- The `<close>` declarations that a statement makes in its own block. -/
def Stmt.ownClose : Stmt → ℕ
  | .localStmt localIdxs attribs _ => (closeSlots localIdxs attribs).length
  | _ => 0

/-- `count_block_close`. -/
def countBlockClose (b : List Stmt) : ℕ := (b.map Stmt.ownClose).sum

mutual

/-- `count_fn_close` of one statement: its own declarations, its closing value, and what is in its
blocks. -/
def Stmt.countClose : Stmt → ℕ
  | .localStmt localIdxs attribs _ => (closeSlots localIdxs attribs).length
  | .ifStmt arms _ elseBody => armsCountClose arms + countFnClose elseBody
  | .whileStmt _ body => countFnClose body
  | .doStmt body => countFnClose body
  | .forNum _ _ _ _ body => countFnClose body
  | .forGen _ exprs body => (forGenHasClosing exprs).toNat + countFnClose body
  | .repeatStmt body _ => countFnClose body
  | _ => 0

/-- `count_fn_close`. -/
def countFnClose : List Stmt → ℕ
  | [] => 0
  | s :: rest => s.countClose + countFnClose rest

/-- The arms of an `if`. -/
def armsCountClose : List IfArm → ℕ
  | [] => 0
  | .mk _ body :: rest => countFnClose body + armsCountClose rest

end

/-! ## Emission -/

/-- `MAX_BLOCK_LABELS`. -/
def maxBlockLabels : ℕ := 64

/-- `MAX_BREAK_DEPTH`. -/
def maxBreakDepth : ℕ := 64

/-- A loop that `break` can leave: its label, and the to-be-closed count at its entry. -/
structure BreakTarget where
  /-- `break_labels[d]`. -/
  label : ℕ
  /-- `break_close_count[d]`. -/
  closeCount : ℕ
  /-- The declarations in scope at the loop's entry. -/
  scope : LexScope

/-- What the emission of a statement reads: the enclosing loops, innermost first; the labels of the
enclosing blocks, innermost first; and the count that `la_close_bases` keeps. -/
structure EmitEnv where
  /-- `cur_is_int`, of the control variables of numeric loops. -/
  isInt : ℕ → Bool
  /-- The break stack. -/
  breaks : List BreakTarget := []
  /-- The scope chain of the label pre-pass. -/
  labels : List (List LabelInfo) := []
  /-- `running` in `la_close_bases`. -/
  running : ℕ := 0
  /-- The declarations in scope. -/
  scope : LexScope := []

/-- The counters that emission changes. -/
structure Cg where
  /-- `next_label`. -/
  nextLabel : ℕ := 0
  /-- `next_label_id`. -/
  nextLabelId : ℕ := 0
  /-- `close_count`. -/
  closeCount : ℕ := 0

/-- Emission fails with a message or goes on with new counters. -/
abbrev EmitM := StateT Cg (Except String)

/-- What a statement declares for those after it in its block. -/
def Stmt.binds : Stmt → LexScope
  | .localStmt localIdxs attribs _ =>
    ((closeSlots localIdxs attribs).map .close).reverse ++ (localIdxs.map .slot).reverse
  | .localFunc localIdx _ => [.slot localIdx]
  | _ => []

/-- The environment of the statements after `s`. -/
def EmitEnv.after (env : EmitEnv) (s : Stmt) : EmitEnv :=
  { env with running := env.running + s.ownClose, scope := s.binds ++ env.scope }

/-- The environment after a whole list of statements. -/
def EmitEnv.afterAll (env : EmitEnv) : List Stmt → EmitEnv
  | [] => env
  | s :: rest => (env.after s).afterAll rest

/-- Whether a statement is a label. -/
def Stmt.isLabel : Stmt → Bool
  | .label _ => true
  | _ => false

/-- The labels of a block, as `la_close_bases` and the first pass of `la_block` stamp them. The ids
are given in the order of the labels, and the block's dispatch id is the first of them. `final` says
that the block's end leaves it (the condition of a `repeat` still stands in its body). -/
def blockLabels (bid : ℕ) (outer : LexScope) (final : Bool) :
    EmitEnv → ℕ → List Stmt → List LabelInfo
  | _, _, [] => []
  | env, k, .label name :: rest =>
    ⟨name, bid, k, env.running, env.scope, outer, final && rest.all Stmt.isLabel⟩ ::
      blockLabels bid outer final env (k + 1) rest
  | env, k, s :: rest => blockLabels bid outer final (env.after s) k rest

/-- `la_lookup`: the innermost block that has a label of the name, and the first one there. -/
def laLookup (name : String) : List (List LabelInfo) → Option LabelInfo
  | [] => none
  | labels :: chain => (labels.find? fun l => l.name = name).or (laLookup name chain)

/-- A fresh label number. -/
def freshLabel : EmitM ℕ := fun c => .ok (c.nextLabel, { c with nextLabel := c.nextLabel + 1 })

/-- The first pass of `la_block`: the labels of a block get their ids. -/
def laBlock (env : EmitEnv) (final : Bool) (b : List Stmt) : EmitM (List LabelInfo) := fun c =>
  let labels := blockLabels c.nextLabelId env.scope final env 1 b
  if labels.length ≥ maxBlockLabels then .error "too many labels in one block (limit 64)"
  else if ¬ (labels.map (·.name)).Nodup then .error "label already defined in this block"
  else .ok (labels, { c with nextLabelId := c.nextLabelId + labels.length })

/-- `push_break_label`. -/
def pushBreakLabel (env : EmitEnv) (label : ℕ) : EmitM EmitEnv := fun c =>
  if env.breaks.length ≥ maxBreakDepth then .error "loop nesting too deep"
  else .ok ({ env with breaks := ⟨label, c.closeCount, env.scope⟩ :: env.breaks }, c)

/-- An instruction at a place. -/
def EmitEnv.op (env : EmitEnv) (a : Act) : WatCode := .op ⟨env.scope, a⟩

/-- `close_count`. -/
def getCloseCount : EmitM ℕ := fun c => .ok (c.closeCount, c)

/-- `close_count = n`. -/
def setCloseCount (n : ℕ) : EmitM Unit := fun c => .ok ((), { c with closeCount := n })

/-- An `emit_close_upto` that the source emits only if there is something to close. -/
def EmitEnv.closeDown (env : EmitEnv) (closeCount target : ℕ) : List WatCode :=
  if closeCount > target then [env.op (.closeUpto target)] else []

/-- The registrations of `emit_local_stmt`, in order. -/
def tbcPushes (env : EmitEnv) : List ℕ → List WatCode
  | [] => []
  | slot :: slots =>
    env.op (.tbcPush (.close slot)) ::
      tbcPushes { env with scope := .close slot :: env.scope } slots

/-- `emit_local_stmt`. -/
def emitLocalStmt (env : EmitEnv) (localIdxs : List ℕ) (attribs : List Attrib)
    (values : List Expr) : EmitM (List WatCode) := fun c =>
  let slots := closeSlots localIdxs attribs
  .ok (env.op (.localStores localIdxs values) ::
      tbcPushes { env with scope := (localIdxs.map .slot).reverse ++ env.scope } slots,
    { c with closeCount := c.closeCount + slots.length })

/-- `emit_return`: the values, the closes, and the return. -/
def emitReturn (env : EmitEnv) (values : List Expr) : EmitM (List WatCode) := do
  let closeCount ← getCloseCount
  pure (env.op (.returnValues values) :: env.closeDown closeCount 0 ++ [.ret])

/-- `emit_break`. -/
def emitBreak (env : EmitEnv) : EmitM (List WatCode) :=
  match env.breaks with
  | [] => throw "break outside loop"
  | target :: _ => do
    let closeCount ← getCloseCount
    pure (env.closeDown closeCount target.closeCount ++ [.br (.brk target.label)])

/-- `emit_goto`, with the resolution of `la_block`. -/
def emitGoto (env : EmitEnv) (name : String) : EmitM (List WatCode) :=
  match laLookup name env.labels with
  | none => throw s!"no visible label '{name}' for goto"
  | some lab => do
    let closeCount ← getCloseCount
    pure (env.closeDown closeCount lab.closeBase ++
      [env.op (.jump lab), .br (.dispatch lab.blockDispatchId)])

/-- The segments of a dispatched block, from segment `k` on: `inner` is the code inside the block
of segment `k`. -/
def segmentCode (env : EmitEnv) (bid : ℕ) : ℕ → List WatCode → List (List WatCode) → List WatCode
  | _, inner, [] => inner
  | k, inner, [body] => .block (.seg bid k) inner :: body ++ [.br (.exit bid)]
  | k, inner, body :: rest =>
    segmentCode env bid (k + 1)
      (.block (.seg bid k) inner :: body ++
        [env.op (.setNext bid (k + 1)), .br (.dispatch bid)]) rest

/-- The dispatch of `emit_block_stmts` over the segments of a block. -/
def dispatchCode (env : EmitEnv) (bid : ℕ) (segs : List (List WatCode)) : List WatCode :=
  [env.op (.setNext bid 0),
    .block (.exit bid) [.loop (.dispatch bid)
      (segmentCode env bid 0
        [.brTable bid ((List.range segs.length).map (.seg bid)) (.exit bid)] segs)]]

/-- `emit_block_stmts`, where `segs` emits the statements of the block segment by segment. -/
def emitBlockStmts (env : EmitEnv) (final : Bool) (b : List Stmt)
    (segs : EmitEnv → EmitM (List (List WatCode))) : EmitM (List WatCode) := do
  let labels ← laBlock env final b
  let code ← segs { env with labels := labels :: env.labels }
  match labels with
  | [] => pure code.flatten
  | label :: _ => pure (dispatchCode env label.blockDispatchId code)

/-- `emit_block`. -/
def emitBlock (env : EmitEnv) (b : List Stmt) (segs : EmitEnv → EmitM (List (List WatCode))) :
    EmitM (List WatCode) :=
  if countBlockClose b = 0 then emitBlockStmts env true b segs
  else do
    let base ← getCloseCount
    let code ← emitBlockStmts env true b segs
    let closeCount ← getCloseCount
    setCloseCount base
    pure (code ++ (env.afterAll b).closeDown closeCount base)

/-- `emit_while`. -/
def emitWhile (env : EmitEnv) (cond : Expr) (body : EmitEnv → EmitM (List WatCode)) :
    EmitM (List WatCode) := do
  let label ← freshLabel
  let env ← pushBreakLabel env label
  let code ← body env
  pure [.block (.brk label) [.loop (.cont label)
    (env.op (.test cond true) :: .brIf (.brk label) :: code ++ [.br (.cont label)])]]

/-- `emit_repeat`. -/
def emitRepeat (env : EmitEnv) (b : List Stmt) (cond : Expr)
    (segs : EmitEnv → EmitM (List (List WatCode))) : EmitM (List WatCode) := do
  let label ← freshLabel
  let env ← pushBreakLabel env label
  let rbase ← getCloseCount
  let code ← emitBlockStmts env false b segs
  let closeCount ← getCloseCount
  setCloseCount rbase
  let inner := env.afterAll b
  pure [.block (.brk label) [.loop (.cont label)
    (code ++ inner.op (.test cond true) :: inner.closeDown closeCount rbase ++
      [.brIf (.cont label)])]]

/-- `emit_for_num_int`. The control variable's slot is the counter itself, so no code stands for
`forNumBind`; a limit that is statically an integer has no `forNumSkip`. -/
def emitForNumInt (env : EmitEnv) (label localIdx : ℕ) (start stop : Expr) (step : Option Expr)
    (body : EmitEnv → EmitM (List WatCode)) : EmitM (List WatCode) := do
  let inner := { env with scope := .slot localIdx :: env.scope }
  let code ← body inner
  pure [env.op (.forNumInit localIdx start stop step),
    .block (.brk label) [env.op .forNumSkip, .brIf (.brk label), .loop (.cont label)
      (env.op .forNumTest :: .brIf (.brk label) :: env.op (.forNumBind localIdx) :: code ++
        [env.op .forNumStep, .brIf (.brk label), env.op (.forNumAdvance localIdx),
          .br (.cont label)])]]

/-- `emit_for_num_boxed`. -/
def emitForNumBoxed (env : EmitEnv) (label localIdx : ℕ) (start stop : Expr) (step : Option Expr)
    (body : EmitEnv → EmitM (List WatCode)) : EmitM (List WatCode) := do
  let inner := { env with scope := .slot localIdx :: env.scope }
  let code ← body inner
  pure [env.op (.forNumInit localIdx start stop step),
    .block (.brk label) [env.op .forNumSkip, .brIf (.brk label), .loop (.cont label)
      (env.op (.forNumBind localIdx) :: code ++
        [env.op .forNumStep, .brIf (.brk label), env.op (.forNumAdvance localIdx),
          env.op .forNumTest, .brIf (.brk label), .br (.cont label)])]]

/-- `emit_for_num`. -/
def emitForNum (env : EmitEnv) (localIdx : ℕ) (start stop : Expr) (step : Option Expr)
    (body : EmitEnv → EmitM (List WatCode)) : EmitM (List WatCode) := do
  let label ← freshLabel
  let env ← pushBreakLabel env label
  if env.isInt localIdx then emitForNumInt env label localIdx start stop step body
  else emitForNumBoxed env label localIdx start stop step body

/-- The registration of a generic `for`'s closing value. -/
def pushClosing (env : EmitEnv) (localIdxs : List ℕ) (exprs : List Expr) :
    EmitM (List WatCode × EmitEnv) := fun c =>
  if forGenHasClosing exprs then
    .ok (([env.op (.tbcPush (.closing localIdxs))],
        { env with running := env.running + 1, scope := .closing localIdxs :: env.scope }),
      { c with closeCount := c.closeCount + 1 })
  else .ok (([], env), c)

/-- The close of a generic `for`'s closing value, after the loop. -/
def closeClosing (env : EmitEnv) (exprs : List Expr) (preCloseBase : ℕ) :
    EmitM (List WatCode) := fun c =>
  if forGenHasClosing exprs then
    .ok ([env.op (.closeUpto preCloseBase)], { c with closeCount := preCloseBase })
  else .ok ([], c)

/-- `emit_for_gen`. -/
def emitForGen (env : EmitEnv) (localIdxs : List ℕ) (exprs : List Expr)
    (body : EmitEnv → EmitM (List WatCode)) : EmitM (List WatCode) := do
  let label ← freshLabel
  let env ← pushBreakLabel env label
  let preCloseBase ← getCloseCount
  let (push, loopEnv) ← pushClosing env localIdxs exprs
  let inner := { loopEnv with scope := (localIdxs.map .slot).reverse ++ loopEnv.scope }
  let code ← body inner
  let close ← closeClosing loopEnv exprs preCloseBase
  pure (env.op (.forGenInit exprs) :: push ++ loopEnv.op (.forGenPre localIdxs) ::
    .block (.brk label) [.loop (.cont label)
      (loopEnv.op (.forGenNext localIdxs) :: .brIf (.brk label) ::
        loopEnv.op (.forGenBind localIdxs) :: code ++ [.br (.cont label)])] :: close)

mutual

/-- `emit_stmt`. -/
def emitStmt : Stmt → EmitEnv → EmitM (List WatCode)
  | .localStmt localIdxs attribs values, env => emitLocalStmt env localIdxs attribs values
  | .assign targets values, env => pure [env.op (.assign targets values)]
  | .exprStmt expr, env => pure [env.op (.callStmt expr)]
  | .doStmt body, env => emitBlock env body (emitSegs body)
  | .returnStmt values, env => emitReturn env values
  | .whileStmt cond body, env => emitWhile env cond fun env => emitBlock env body (emitSegs body)
  | .repeatStmt body cond, env => emitRepeat env body cond (emitSegs body)
  | .breakStmt, env => emitBreak env
  | .gotoStmt name, env => emitGoto env name
  | .label _, _ => pure []
  | .forNum localIdx start stop step body, env =>
    emitForNum env localIdx start stop step fun env => emitBlock env body (emitSegs body)
  | .forGen localIdxs exprs body, env =>
    emitForGen env localIdxs exprs fun env => emitBlock env body (emitSegs body)
  | .globalDecl globalIdxs values, env =>
    pure (if values = [] then [] else [env.op (.globalDecl globalIdxs values)])
  | .ifStmt arms hasElse elseBody, env => do
    let label ← freshLabel
    let code ← emitArms arms label env
    let elseCode ← if hasElse then emitBlock env elseBody (emitSegs elseBody) else pure []
    pure [.block (.ifEnd label) (code ++ elseCode)]
  | .localFunc localIdx func, env => pure [env.op (.localFunc localIdx func)]

/-- The statements of a block, by segments: each label ends one and begins the next. -/
def emitSegs : List Stmt → EmitEnv → EmitM (List (List WatCode))
  | [], _ => pure [[]]
  | s :: rest, env => do
    let code ← emitStmt s env
    let segs ← emitSegs rest (env.after s)
    pure (if s.isLabel then [] :: segs
      else match segs with
        | [] => [code]
        | seg :: segs => (code ++ seg) :: segs)

/-- The arms of an `if`. -/
def emitArms : List IfArm → ℕ → EmitEnv → EmitM (List WatCode)
  | [], _, _ => pure []
  | .mk cond body :: rest, label, env => do
    let code ← emitBlock env body (emitSegs body)
    let arms ← emitArms rest label env
    pure (env.op (.test cond false) :: .ite (code ++ [.br (.ifEnd label)]) [] :: arms)

end

/-- `emit_close_body`. -/
def emitCloseBody (isInt : ℕ → Bool) (body : List Stmt) : EmitM (List WatCode) := do
  let env : EmitEnv := { isInt := isInt }
  setCloseCount 0
  if countFnClose body = 0 then emitBlock env body (emitSegs body)
  else do
    let l ← freshLabel
    let code ← emitBlock env body (emitSegs body)
    pure [.block (.fncloseDone l)
      [.block (.fncloseCatch l) [.tryTable (.fncloseCatch l) code, .br (.fncloseDone l)],
        env.op .caught, env.op .closeError, .unreachable]]

end Lua2wasm
