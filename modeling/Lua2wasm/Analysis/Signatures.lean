import Lua2wasm.Analysis.Slots

/-!
# Signatures and integer boxes

The whole-program analyses of `codegen/analysis.c` and the loop of `codegen_module` that alternates them: the signatures
of the functions (`infer_signatures`) and the captured locals that have an integer box (`ibox_settle`). Each is a loop
over rounds that go over all bodies of the program and report whether they changed something.

The loops have a number of rounds as an argument and no result when it does not suffice.
-/

namespace Lua2wasm.Analysis

/-! ## Function bindings -/

/-- What a body binds and assigns, as `BindAccum`. -/
structure BindAccum where
  /-- The function that each slot is bound to. -/
  slotFunc : List (Option ℕ)
  /-- The slots that are assigned. -/
  reassLocal : List Bool
  /-- The upvalues that are assigned. -/
  reassUpval : List Bool

/-- The functions that a statement binds to slots, in order. -/
def boundFuncs : Stmt → List (ℕ × ℕ)
  | .localFunc localIdx func => [(localIdx, func)]
  | .localStmt localIdxs _ values =>
    if values.length = localIdxs.length then
      (localIdxs.zip values).filterMap fun (slot, v) => match v with
        | .function func => some (slot, func)
        | _ => none
    else []
  | _ => []

/-- An assignment target is noted. -/
def noteTarget (a : BindAccum) : AssignTarget → BindAccum
  | .var .varLocal idx => { a with reassLocal := a.reassLocal.set idx true }
  | .var .varUpval idx => { a with reassUpval := a.reassUpval.set idx true }
  | _ => a

/-- `bind_visit`. -/
def bindVisit (a : BindAccum) (s : Stmt) : BindAccum :=
  match s with
  | .assign targets _ => targets.foldl noteTarget a
  | s => { a with slotFunc := (boundFuncs s).foldl (fun m (slot, func) => m.set slot (some func)) a.slotFunc }

/-- The first pass over a body: its slots keep their function unless they are assigned in the body. -/
def bindBody (body : Block) (nLocals nUpvalues : ℕ) : BindAccum :=
  let a := (walkStmts body).foldl bindVisit
    ⟨List.replicate nLocals none, List.replicate nLocals false, List.replicate nUpvalues false⟩
  { a with slotFunc := (a.slotFunc.zip a.reassLocal).map fun (func, reassigned) => if reassigned then none else func }

/-- A slot loses its function. -/
def Bindings.clear (binds : Bindings) (g : Option ℕ) (slot : ℕ) : Bindings :=
  match g with
  | none => { binds with mainSlotFunc := binds.mainSlotFunc.set slot none }
  | some f => { binds with bindSlot := binds.bindSlot.modify f (·.set slot none) }

/-- `compute_func_bindings`: the bindings of each body, less the slots that are assigned through an upvalue, and then
what the upvalues stand for. -/
def computeFuncBindings (pr : ParseResult) : Bindings :=
  let accums := pr.funcs.map fun fn => bindBody fn.body fn.nLocals fn.upvalues.length
  let first : Bindings :=
    ⟨(bindBody pr.mainBody pr.mainNLocals 0).slotFunc, accums.map (·.slotFunc), []⟩
  let assigned := accums.zipIdx.flatMap fun (a, f) =>
    ((List.range a.reassUpval.length).filter fun u => a.reassUpval.getD u false).map (f, ·)
  let binds := assigned.foldl (fun binds (f, u) =>
    match resolveUpvalOrigin pr.funcs f u with
    | some (g, slot) => binds.clear g slot
    | none => binds) first
  { binds with bindUpval := pr.funcs.zipIdx.map fun (fn, f) =>
      (List.range fn.upvalues.length).map fun u =>
        (resolveUpvalOrigin pr.funcs f u).bind fun (g, slot) => (binds.slotMap g).getD slot none }

/-! ## Returns -/

/-- `num_meet`. -/
def numMeet (a b : NumTy) : NumTy :=
  if a = .unset then b else if b = .unset then a else if a = b then a else .any

mutual

/-- `stmt_always_returns`. -/
def stmtAlwaysReturns : Stmt → Bool
  | .returnStmt _ => true
  | .doStmt body => blockAlwaysReturns body
  | .ifStmt arms hasElse elseBody => hasElse && armsAlwaysReturn arms && blockAlwaysReturns elseBody
  | _ => false

/-- `block_always_returns`: only the last statement counts. -/
def blockAlwaysReturns : List Stmt → Bool
  | [] => false
  | [s] => stmtAlwaysReturns s
  | _ :: rest => blockAlwaysReturns rest

/-- The arms of an `if`. -/
def armsAlwaysReturn : List IfArm → Bool
  | [] => true
  | .mk _ body :: arms => blockAlwaysReturns body && armsAlwaysReturn arms

end

/-- The type of what a return statement returns (`ret_scan_visit`). -/
def returnTy (c : CG) : Stmt → Option NumTy
  | .returnStmt [e] => some (exprNumTy c e)
  | .returnStmt _ => some .any
  | _ => none

/-- `compute_ret_ty`. -/
def computeRetTy (c : CG) (body : Block) : NumTy :=
  if blockAlwaysReturns body then
    let acc := ((walkStmts body).filterMap (returnTy c)).foldl numMeet .unset
    if acc = .unset then .any else acc
  else .any

/-! ## Signature inference -/

/-- The signatures, with the functions that some direct call goes to. -/
structure Signatures where
  /-- The signature of each function. -/
  sigs : List FuncSig
  /-- `has_site`, for each function. -/
  hasSite : List Bool
  deriving DecidableEq, Repr

/-- Signatures in the course of a round, and whether the round has changed one. -/
abbrev InferPass := Signatures × Bool

/-- An argument of a direct call to `k` is met into the type of its parameter `i`. -/
def inferArg (c : CG) (k i : ℕ) (p : InferPass) (a : Expr) : InferPass :=
  match p.1.sigs[k]? with
  | none => p
  | some sg =>
    match sg.paramTy[i]? with
    | none => p
    | some ty =>
      if ty = .any then p
      else
        let nw := numMeet ty (exprNumTy { c with sigs := p.1.sigs } a)
        if nw = ty then p
        else ({ p.1 with sigs := p.1.sigs.set k { sg with paramTy := sg.paramTy.set i nw } }, true)

/-- `infer_sites_visit` at a call. -/
def inferSite (c : CG) (p : InferPass) (call : Expr × List Expr) : InferPass :=
  match directCallTarget c call.1 call.2 with
  | none => p
  | some k => call.2.zipIdx.foldl (fun p (a, i) => inferArg c k i p a)
      ({ p.1 with hasSite := p.1.hasSite.set k true }, p.2)

/-- The bodies that the analyses go over: those of the functions and that of the main chunk. -/
structure Body where
  /-- The function, or `none` for the main chunk. -/
  func : Option ℕ
  block : Block
  nLocals : ℕ
  nParams : ℕ
  captured : List Bool

/-- The body of a function. -/
def funcBody (fn : LuaFunc) (f : ℕ) : Body := ⟨some f, fn.body, fn.nLocals, fn.nParams, fn.captured⟩

/-- The body of the main chunk. -/
def mainChunk (pr : ParseResult) : Body := ⟨none, pr.mainBody, pr.mainNLocals, 0, pr.mainCaptured⟩

/-- The context of a body, with its slots typed from `paramSeed`. -/
def bodyContext (pr : ParseResult) (boxes : Boxes) (sigs : List FuncSig) (b : Body) (paramSeed : List NumTy) : CG :=
  let c : CG := { funcs := pr.funcs, binds := computeFuncBindings pr, boxes, sigs, curFuncIdx := b.func }
  let c := { c with curIsInt := computeIntSlots c b.block b.nLocals b.nParams b.captured paramSeed }
  { c with curIsFloat := computeFloatSlots c b.block b.nLocals b.nParams b.captured paramSeed }

/-- The signature's types of the parameters of a body; the main chunk has none. -/
def seedOf (sigs : List FuncSig) (b : Body) : List NumTy :=
  ((b.func.bind fun f => sigs[f]?).map (·.paramTy)).getD []

/-- The return type of a function is computed again. -/
def inferReturn (c : CG) (f : ℕ) (body : Block) (p : InferPass) : InferPass :=
  match p.1.sigs[f]? with
  | none => p
  | some sg =>
    let r := computeRetTy { c with sigs := p.1.sigs } body
    if r = sg.retTy then p
    else ({ p.1 with sigs := p.1.sigs.set f { sg with retTy := r } }, true)

/-- `infer_step_body`. -/
def inferStepBody (pr : ParseResult) (boxes : Boxes) (p : InferPass) (b : Body) : InferPass :=
  let c := bodyContext pr boxes p.1.sigs b (seedOf p.1.sigs b)
  let p := (callsOf b.block).foldl (inferSite c) p
  match b.func with
  | none => p
  | some f => inferReturn c f b.block p

/-- The bodies of the program in the order of a round of inference. -/
def inferOrder (pr : ParseResult) : List Body := (pr.funcs.zipIdx.map fun (fn, f) => funcBody fn f) ++ [mainChunk pr]

/-- A round of `infer_signatures`. -/
def inferRound (pr : ParseResult) (boxes : Boxes) (s : Signatures) : InferPass :=
  (inferOrder pr).foldl (inferStepBody pr boxes) (s, false)

/-- Whether some assignment of a body stores to a slot (`mark_reassigned_visit`). -/
def reassigned (body : Block) (slot : ℕ) : Bool :=
  (walkStmts body).any fun
    | .assign targets _ => targets.any fun
      | .var .varLocal idx => idx == slot
      | _ => false
    | _ => false

/-- The signatures in which inference begins. -/
def initSignatures (pr : ParseResult) : Signatures where
  sigs := pr.funcs.map fun fn =>
    { paramTy := (List.range fn.nParams).map fun p =>
        if reassigned fn.body p || fn.captured.getD p false then .any else .unset
      retTy := .int }
  hasSite := pr.funcs.map fun _ => false

/-- The end of `infer_signatures`: nothing is known of a function that no direct call goes to, nor of a parameter
without evidence. -/
def finalize (s : Signatures) : Signatures :=
  { s with sigs := (s.sigs.zip s.hasSite).map fun (sg, site) =>
      if site then { sg with paramTy := sg.paramTy.map fun ty => if ty = .unset then .any else ty }
      else { paramTy := sg.paramTy.map fun _ => .any, retTy := .any } }

/-- `infer_signatures`. -/
def inferSignatures (pr : ParseResult) (boxes : Boxes) (rounds : ℕ) : Option Signatures :=
  (Rounds.untilQuiet (inferRound pr boxes) rounds (initSignatures pr)).map finalize

/-! ## Integer boxes -/

/-- Boxes in the course of a round, and whether the round has dropped one. -/
abbrev IboxPass := Boxes × Bool

/-- `ibox_drop`. -/
def iboxDrop (p : IboxPass) (g : Option ℕ) (slot : ℕ) : IboxPass :=
  if (p.1.row g).getD slot false then
    match g with
    | none => ({ p.1 with main := p.1.main.set slot false }, true)
    | some f => ({ p.1 with fn := p.1.fn.modify f (·.set slot false) }, true)
  else p

/-- `ibox_drop_var`. -/
def iboxDropVar (c : CG) (p : IboxPass) : AssignTarget → IboxPass
  | .var .varLocal idx => iboxDrop p c.curFuncIdx idx
  | .var .varUpval idx =>
    match c.curFuncIdx.bind fun k => resolveUpvalOrigin c.funcs k idx with
    | some (g, slot) => iboxDrop p g slot
    | none => p
  | _ => p

/-- The number of values of a declaration that go to one name each. -/
def leadValues (localIdxs : List ℕ) (values : List Expr) : ℕ :=
  if values.length < localIdxs.length ∧ values.getLast?.any Expr.isMultivalTail then values.length - 1 else values.length

/-- `ibox_check_stmt`. The boxes are read as the statements before have left them. -/
def iboxCheckStmt (c : CG) (p : IboxPass) : Stmt → IboxPass
  | .localStmt localIdxs attribs values =>
    localIdxs.zipIdx.foldl (fun p (slot, i) =>
      let c := { c with boxes := p.1 }
      if !slotIsIbox c slot then p
      else if leadValues localIdxs values ≤ i ∨ attribs[i]? = some .close ∨ !(values[i]?).any (exprIsInt c) then
        iboxDrop p c.curFuncIdx slot
      else p) p
  | .assign targets values =>
    match targets, values with
    | [t], [v] => if exprIsInt { c with boxes := p.1 } v then p else iboxDropVar c p t
    | _, _ => targets.foldl (iboxDropVar c) p
  | .localFunc localIdx _ => iboxDrop p c.curFuncIdx localIdx
  | .forNum localIdx _ _ _ _ => iboxDrop p c.curFuncIdx localIdx
  | .forGen localIdxs _ _ => localIdxs.foldl (iboxDrop · c.curFuncIdx ·) p
  | _ => p

/-- `ibox_check_body`. -/
def iboxCheckBody (pr : ParseResult) (sigs : List FuncSig) (b : Body) (paramSeed : List NumTy) (p : IboxPass) :
    IboxPass :=
  (walkStmts b.block).foldl (iboxCheckStmt (bodyContext pr p.1 sigs b paramSeed)) p

/-- A function is checked with boxed parameters and, when it has direct calls, with those of its signature. -/
def iboxCheckFunc (pr : ParseResult) (s : Signatures) (p : IboxPass) (b : Body) : IboxPass :=
  let p := iboxCheckBody pr s.sigs b [] p
  if b.func.any fun f => s.hasSite.getD f false then iboxCheckBody pr s.sigs b (seedOf s.sigs b) p else p

/-- The bodies of the program in the order of a round of settling. -/
def settleOrder (pr : ParseResult) : List Body := mainChunk pr :: pr.funcs.zipIdx.map fun (fn, f) => funcBody fn f

/-- A round of `ibox_settle`. -/
def iboxRound (pr : ParseResult) (s : Signatures) (boxes : Boxes) : IboxPass :=
  (settleOrder pr).foldl (iboxCheckFunc pr s) (boxes, false)

/-- `ibox_init`: every captured local that is no parameter, with whether there is one. -/
def iboxInit (pr : ParseResult) : Boxes × Bool :=
  let main := (List.range pr.mainNLocals).map fun i => pr.mainCaptured.getD i false
  let fn := pr.funcs.map fun fn =>
    (List.range fn.nLocals).map fun i => decide (fn.nParams ≤ i) && fn.captured.getD i false
  if main.any id || fn.any (·.any id) then (⟨main, fn⟩, true) else (⟨[], []⟩, false)

/-- `ibox_settle`, with whether a box was dropped. -/
def iboxSettle (pr : ParseResult) (s : Signatures) : ℕ → Boxes → Option (Boxes × Bool)
  | 0, _ => none
  | n + 1, boxes =>
    if (iboxRound pr s boxes).2 then (iboxSettle pr s n (iboxRound pr s boxes).1).map fun r => (r.1, true)
    else some ((iboxRound pr s boxes).1, false)

/-- The loop of `codegen_module`: settling and inference, until settling drops no box. Each loop in it has `rounds`
rounds. -/
def alternate (pr : ParseResult) (rounds : ℕ) : ℕ → Boxes → Signatures → Option (Boxes × Signatures)
  | 0, _, _ => none
  | n + 1, boxes, s => do
    let (boxes, dropped) ← iboxSettle pr s rounds boxes
    if dropped then alternate pr rounds n boxes (← inferSignatures pr boxes rounds)
    else some (boxes, s)

/-- The analyses of `codegen_module`, with at most `rounds` rounds of each loop. -/
def inferAndSettle (pr : ParseResult) (rounds : ℕ) : Option (Boxes × Signatures) := do
  let (boxes, ibox) := iboxInit pr
  let s ← inferSignatures pr boxes rounds
  if ibox then alternate pr rounds rounds boxes s else some (boxes, s)

end Lua2wasm.Analysis
