import Lua2wasm.Codegen.Stmt

/-!
# Calls, errors and the stack budget

The calls of a program as a machine on the globals of `runtime/prelude/calls.wat` and `errors.wat`. What
functions compute is left open: an action says what the code that runs does next, and which closure a
call finds. The stack of the machine is the wasm stack, as far as the globals depend on it: an item is
the rest of a runtime function that waits for a call that it made (`Item`).

The runtime functions are `$push_call_frame`, `$pop_call_frame` and `$replace_top_call_frame`,
`$lua_call_any`, `$raised`, `$protected_call`, `$close_upto`, and the body that `emit_close_body` wraps
around a function with to-be-closed variables.
-/

namespace Lua2wasm.Calls

/-- `$stack_budget`. -/
def stackBudget : Int32 := 819200

/-- `$stack_headroom`, for message handlers and the closes of an unwind. -/
def headroom : Int32 := 65536

/-- `$msgh_max_nest`. -/
def msghMaxNest : ℕ := 20

/-- The globals. A message handler is a closure, known by its `$weight` here. -/
structure Globals where
  /-- `$call_depth`. -/
  callDepth : ℕ
  /-- `$stack_cost`. -/
  stackCost : Int32
  /-- `$call_weights`. -/
  callWeights : ℕ → Int32
  /-- `$msgh`. -/
  msgh : Option Int32
  /-- `$msgh_nest`. -/
  msghNest : ℕ

/-- What `$protected_call` saves. -/
structure Saved where
  /-- `$saved_depth`. -/
  depth : ℕ
  /-- `$cost_saved`. -/
  cost : Int32
  /-- `$msgh_saved`. -/
  msgh : Option Int32
  /-- `$nest_saved`. -/
  nest : ℕ
  deriving DecidableEq, Repr

/-- The local variables of `$close_upto`. -/
structure Closing where
  /-- `$depth`. -/
  depth : ℕ
  /-- `$cost_saved`. -/
  cost : Int32
  /-- `$errobj` is an error. -/
  errobj : Bool
  /-- `$pending` is an error. -/
  pending : Bool
  deriving DecidableEq, Repr

/-- What waits for a call to end. -/
inductive Item
  /-- `$lua_call_any` or `$lua_call1`, which pops the call frame. -/
  | framed
  /-- A call without a frame: a metamethod (`$call_mm1`), or a function called directly. -/
  | bare
  /-- `$protected_call`. -/
  | guarded (saved : Saved)
  /-- `$raised`, whose message handler runs. -/
  | handled (outer : Bool)
  /-- `$close_upto`, whose `__close` runs. -/
  | closing (c : Closing)
  /-- A function with to-be-closed variables, with `$close_depth` and `$close_cost`. -/
  | closeBody (closeDepth : ℕ) (closeCost : Int32)
  deriving DecidableEq, Repr

/-- What the machine does. -/
inductive Mode
  /-- The code of a function runs. -/
  | run
  /-- `$lua_call_any` looks for a closure. -/
  | call
  /-- `$raised` has been called. -/
  | raise
  /-- An error is thrown. -/
  | throw
  /-- The loop of `$close_upto`. -/
  | close (c : Closing)
  deriving DecidableEq, Repr

/-- A state of the machine. -/
structure Config where
  /-- The globals. -/
  g : Globals
  /-- What waits, the last call first. -/
  stack : List Item
  /-- What the machine does. -/
  mode : Mode

/-- What happens next. -/
inductive Act
  /-- The code calls a value. -/
  | call
  /-- The code calls a function without a frame. -/
  | bareCall
  /-- The code calls a closure in tail position. -/
  | tailCall (weight : Int32)
  /-- The code returns. -/
  | ret
  /-- The code raises an error. -/
  | error
  /-- The code calls `pcall`. -/
  | pcall
  /-- The code calls `xpcall`, with a closure as the handler. -/
  | xpcall (handler : Int32)
  /-- A function with to-be-closed variables begins. -/
  | enterBody
  /-- A scope closes its variables. -/
  | closeScope
  /-- The value that is called leads to a closure. -/
  | closure (weight : Int32)
  /-- The value that is called leads to no closure. -/
  | notCallable
  /-- There is one more value to close. -/
  | closeNext
  /-- There is no more value to close. -/
  | closeDone
  /-- `$raised` or the exception goes on. -/
  | proceed
  deriving DecidableEq, Repr

/-- `$push_call_frame`, and then the code of the closure. An overflow of the budget raises, with the cost
of the frame added. -/
def Config.enter (c : Config) (weight : Int32) : Config :=
  let cost := c.g.stackCost + weight
  if stackBudget < cost then
    { c with g := { c.g with stackCost := cost }, mode := .raise }
  else
    { g := { c.g with
        stackCost := cost
        callWeights := Function.update c.g.callWeights c.g.callDepth weight
        callDepth := c.g.callDepth + 1 }
      stack := .framed :: c.stack
      mode := .run }

/-- `$pop_call_frame`. -/
def Globals.popCallFrame (g : Globals) : Globals :=
  if 0 < g.callDepth then
    { g with
      callDepth := g.callDepth - 1
      stackCost := g.stackCost - g.callWeights (g.callDepth - 1) }
  else g

/-- The globals after `$replace_top_call_frame`. -/
def Globals.replaceTop (g : Globals) (weight : Int32) : Globals :=
  if 0 < g.callDepth then
    { g with
      stackCost := g.stackCost - g.callWeights (g.callDepth - 1) + weight
      callWeights := Function.update g.callWeights (g.callDepth - 1) weight }
  else g

/-- A tail call leaves the `try_table` of its function. -/
def leaveBody : List Item → List Item
  | .closeBody _ _ :: stack => stack
  | stack => stack

/-- A tail call: `$replace_top_call_frame`, which raises when there is a frame and the budget is
passed, and then the code of the closure. -/
def Config.tailCall (c : Config) (weight : Int32) : Config :=
  let g := c.g.replaceTop weight
  if 0 < g.callDepth ∧ stackBudget < g.stackCost then { c with g, mode := .raise }
  else { g, stack := leaveBody c.stack, mode := .run }

/-- `$protected_call`, up to its call. -/
def Config.guard (c : Config) (msgh : Option Int32) : Config :=
  { g := { c.g with msgh }
    stack := .guarded ⟨c.g.callDepth, c.g.stackCost, c.g.msgh, c.g.msghNest⟩ :: c.stack
    mode := .call }

/-- `$raised`, once its handler is done. -/
def Globals.handlerDone (g : Globals) (outer : Bool) : Globals :=
  { g with
    msghNest := g.msghNest - 1
    stackCost := if outer then g.stackCost + headroom else g.stackCost }

/-- A framed call returns to what waits for it. -/
def Config.resume (g : Globals) : List Item → Config
  | .guarded saved :: stack => ⟨{ g with msgh := saved.msgh }, stack, .run⟩
  | .handled outer :: stack => ⟨g.handlerDone outer, stack, .throw⟩
  | .closing c :: stack => ⟨g, stack, .close c⟩
  | stack => ⟨g, stack, .run⟩

/-- A function returns. -/
def Config.ret (c : Config) : Option Config :=
  match c.stack with
  | .framed :: stack => some (Config.resume c.g.popCallFrame stack)
  | .bare :: stack => some { c with stack }
  | .closeBody _ _ :: stack => some { c with stack }
  | _ => none

/-- `$raised`: with a message handler, and calls of it that are not nested too deep, the handler runs
first. -/
def Config.raised (c : Config) : Config :=
  match c.g.msgh with
  | none => { c with mode := .throw }
  | some handler =>
    if msghMaxNest ≤ c.g.msghNest then { c with mode := .throw }
    else
      let outer : Bool := c.g.msghNest = 0
      Config.enter
        { g := { c.g with
            msghNest := c.g.msghNest + 1
            stackCost := if outer then c.g.stackCost - headroom else c.g.stackCost }
          stack := .handled outer :: c.stack
          mode := .call } handler

/-- `$close_upto`, up to its loop. -/
def closeStart (g : Globals) (errobj : Bool) : Closing where
  depth := g.callDepth
  cost := if errobj then g.stackCost - headroom else g.stackCost
  errobj := errobj
  pending := errobj

/-- An error passes what waits, or is caught by it. Nothing catches it outside the program. -/
def Config.unwind (c : Config) : Option Config :=
  match c.stack with
  | .framed :: stack => some { c with stack }
  | .bare :: stack => some { c with stack }
  | .guarded saved :: stack => some
      { g := { c.g with
          callDepth := saved.depth
          stackCost := saved.cost
          msgh := saved.msgh
          msghNest := saved.nest }
        stack
        mode := .run }
  | .handled outer :: stack => some { g := c.g.handlerDone outer, stack, mode := .throw }
  | .closing cl :: stack => some { c with stack, mode := .close { cl with pending := true } }
  | .closeBody closeDepth closeCost :: stack =>
    let g := { c.g with callDepth := closeDepth, stackCost := closeCost }
    some { g, stack, mode := .close (closeStart g true) }
  | [] => none

/-- The globals that `$close_upto` sets before a call and at its end. -/
def Globals.pin (g : Globals) (cl : Closing) : Globals :=
  { g with callDepth := cl.depth, stackCost := cl.cost }

/-- A step of the machine. -/
def Config.step (c : Config) : Act → Option Config
  | .call => if c.mode = .run then some { c with mode := .call } else none
  | .bareCall => if c.mode = .run then some { c with stack := .bare :: c.stack } else none
  | .tailCall weight => if c.mode = .run then some (c.tailCall weight) else none
  | .ret => if c.mode = .run then c.ret else none
  | .error => if c.mode = .run then some { c with mode := .raise } else none
  | .pcall => if c.mode = .run then some (c.guard none) else none
  | .xpcall handler => if c.mode = .run then some (c.guard (some handler)) else none
  | .enterBody =>
    if c.mode = .run then
      some { c with stack := .closeBody c.g.callDepth c.g.stackCost :: c.stack }
    else none
  | .closeScope => if c.mode = .run then some { c with mode := .close (closeStart c.g false) } else none
  | .closure weight => if c.mode = .call then some (c.enter weight) else none
  | .notCallable => if c.mode = .call then some { c with mode := .raise } else none
  | .closeNext =>
    match c.mode with
    | .close cl => some ⟨c.g.pin cl, .closing cl :: c.stack, .call⟩
    | _ => none
  | .closeDone =>
    match c.mode with
    | .close cl => some { c with g := c.g.pin cl, mode := if cl.pending then .throw else .run }
    | _ => none
  | .proceed =>
    match c.mode with
    | .raise => some c.raised
    | .throw => c.unwind
    | _ => none

/-- The start of a program. -/
def Config.init : Config where
  g := { callDepth := 0, stackCost := 0, callWeights := fun _ => 0, msgh := none, msghNest := 0 }
  stack := []
  mode := .run

/-- Some step leads from one state to the other. -/
def Step (c c' : Config) : Prop := ∃ a, c.step a = some c'

/-- A state that a run of a program reaches. -/
def Reachable (c : Config) : Prop := Relation.ReflTransGen Step Config.init c

/-- Some actions, one after the other. -/
def Config.run (c : Config) : List Act → Option Config
  | [] => some c
  | a :: acts => (c.step a).bind fun c' => c'.run acts

/-- The sum of the weights of the first frames. -/
def weightSum (weights : ℕ → Int32) : ℕ → Int32
  | 0 => 0
  | n + 1 => weightSum weights n + weights n

end Lua2wasm.Calls
