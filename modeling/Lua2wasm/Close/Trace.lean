import Lua2wasm.Codegen.Stmt

/-!
# To-be-closed values at run time

The emitted code of a function body, read as operations on its `$Tbc` stack (`runtime/prelude/
control.wat`). What expressions do is left open: every instruction of a statement may raise, every
test may go either way, and every `__close` may raise, as a list of choices says. So a statement about
all lists of choices is a statement about all runs.

A run leaves a trace: the statements that executed, with the declarations in scope at each, and
what was registered and closed. `openAfter` reads off a trace which registered values are open, and
has no result if the trace breaks the rules for to-be-closed values.
-/

namespace Lua2wasm

open Structured

/-- What a run does that to-be-closed values are concerned with. -/
inductive Event
  /-- A statement (or a condition, or a step of a loop) executes. -/
  | stmt (scope : LexScope)
  /-- A value is registered. -/
  | opened (b : Binder)
  /-- The `__close` of a value is called. -/
  | closed (b : Binder)
  /-- A goto jumps to a label. -/
  | jump (scope : LexScope) (target : LabelInfo)
  deriving DecidableEq, Repr

/-- What the program leaves open at one instruction. -/
structure Choice where
  /-- Whether it raises. -/
  raises : Bool
  /-- What a test says; whether the value that is registered is other than `nil` and `false`. -/
  flag : Bool
  deriving DecidableEq, Repr

/-- The state of an activation, as far as closing is concerned. -/
structure TbcState where
  /-- `$items` up to `$len`, the last entry first. Values are known by what declares them and
  whether they are truthy: `nil` and `false` are stored, and never closed. -/
  items : List (Binder × Bool)
  /-- The length of the `$items` array. -/
  size : ℕ
  /-- The `$next_BID`. -/
  next : ℕ → ℕ
  /-- The result of the last test. -/
  flag : Bool
  /-- The choices to come. -/
  choices : List Choice
  /-- What happened, the latest first. -/
  trace : List Event

/-- The state in which a body begins. -/
def TbcState.init (size : ℕ) (choices : List Choice) : TbcState :=
  { items := [], size, next := fun _ => 0, flag := false, choices, trace := [] }

/-- The loop of `$close_upto`: it pops before it calls `__close`, goes on when one raises, and
raises at the end if there is an error (`pending`). -/
def closeLoop (target : ℕ) :
    List (Binder × Bool) → Bool → List Choice → List Event →
      Signal × List (Binder × Bool) × List Choice × List Event
  | [], pending, choices, trace => (if pending then .err else .ok, [], choices, trace)
  | (b, truthy) :: items, pending, choices, trace =>
    if items.length + 1 ≤ target then
      (if pending then .err else .ok, (b, truthy) :: items, choices, trace)
    else if truthy then
      match choices with
      | [] => (.stop, items, [], .closed b :: trace)
      | c :: choices => closeLoop target items (pending || c.raises) choices (.closed b :: trace)
    else closeLoop target items pending choices trace

/-- `$close_upto`. -/
def closeUpto (target : ℕ) (pending : Bool) (s : TbcState) : Signal × TbcState :=
  let r := closeLoop target s.items pending s.choices s.trace
  (r.1, { s with items := r.2.1, choices := r.2.2.1, trace := r.2.2.2 })

/-- `$tbc_push`: a value that cannot be closed raises before it is stored, and a store past the end
of the array traps. -/
def tbcPush (b : Binder) (s : TbcState) : Signal × TbcState :=
  match s.choices with
  | [] => (.stop, s)
  | c :: choices =>
    if c.raises then (.err, { s with choices })
    else if s.items.length < s.size then
      (.ok, { s with
        items := (b, c.flag) :: s.items
        choices
        trace := if c.flag then .opened b :: s.trace else s.trace })
    else (.trap, { s with choices })

/-- An instruction of a statement: it happens, and raises or sets the flag. -/
def execStmt (scope : LexScope) (s : TbcState) : Signal × TbcState :=
  match s.choices with
  | [] => (.stop, s)
  | c :: choices =>
    (if c.raises then .err else .ok,
      { s with flag := c.flag, choices, trace := .stmt scope :: s.trace })

/-- The instructions on the state. -/
def tbcMachine : Machine Placed ℕ TbcState where
  op p s :=
    match p.act with
    | .tbcPush b => tbcPush b s
    | .closeUpto target => closeUpto target false s
    | .setNext bid k => (.ok, { s with next := Function.update s.next bid k })
    | .jump lab => (.ok, { s with
        next := Function.update s.next lab.blockDispatchId lab.segmentIdx
        trace := .jump p.scope lab :: s.trace })
    | .caught => (.ok, s)
    | .closeError => closeUpto 0 true s
    | _ => execStmt p.scope s
  flag s := s.flag
  index bid s := s.next bid

/-- The registered values that are open after a trace, the latest first. There is a result only if
every close is of the value registered last among the open ones, and every statement executes
with open values of declarations in scope only. -/
def openAfter : List Event → Option (List Binder)
  | [] => some []
  | .stmt scope :: trace =>
    match openAfter trace with
    | some opened => if opened.isSublist (closers scope) then some opened else none
    | none => none
  | .opened b :: trace => (openAfter trace).map (b :: ·)
  | .closed b :: trace =>
    match openAfter trace with
    | some (b' :: opened) => if b' = b then some opened else none
    | _ => none
  | .jump _ _ :: trace => openAfter trace

/-- A goto from a scope to a label stays out of the scopes of to-be-closed variables: those in scope
at the label are in scope at the goto, or nothing follows the label in its block. -/
def JumpStaysOut (scope : LexScope) (target : LabelInfo) : Prop :=
  target.endsBlock ∨ closers target.scope <:+ closers scope

/-- Every goto of a trace stays out of the scopes of to-be-closed variables. -/
def JumpsStayOut (trace : List Event) : Prop :=
  ∀ scope target, .jump scope target ∈ trace → JumpStaysOut scope target

end Lua2wasm
