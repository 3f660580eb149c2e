import Lua2wasm.Arith.Order
import Lua2wasm.Table.Refs

/-!
# Metamethods of operators

What an operator finds besides its operands: the metatables, what a call of a metamethod leads to, and the parts of the
host (`Env`). The calls of metamethods are kept in the state, so that a theorem can say which there were.

`$get_metamethod` is a raw read in the metatable, which `Env.field` stands for. A call may do anything to the strings
and make objects, and it may raise.
-/

namespace Lua2wasm.Operators

open Raising Refs Strings
open Table (Fault)

/-- The keys of the metamethods of operators, `$g_mkey_add` and the others. -/
inductive Event
  | add | sub | mul | div | idiv | mod | pow | unm
  | band | bor | bxor | shl | shr | bnot
  | eq
  deriving DecidableEq, Repr

/-- A call of a metamethod. -/
structure Call where
  /-- The metamethod. -/
  mm : Ref
  /-- The first argument. -/
  a : Ref
  /-- The second argument. -/
  b : Ref
  deriving DecidableEq, Repr

/-- The instructions for doubles, and `host_math2`. -/
structure Floats where
  /-- `f64.add`. -/
  add : F64 → F64 → F64
  /-- `f64.sub`. -/
  sub : F64 → F64 → F64
  /-- `f64.mul`. -/
  mul : F64 → F64 → F64
  /-- `f64.div`. -/
  div : F64 → F64 → F64
  /-- `f64.neg`. -/
  neg : F64 → F64
  /-- `f64.convert_i64_s`. -/
  ofInt : Int64 → F64
  /-- `host_math2` of kind 1. -/
  pow : F64 → F64 → F64
  /-- `host_math2` of kind 2. -/
  fmod : F64 → F64 → F64

/-- What an operator finds. -/
structure Env where
  /-- The metatable of a table. -/
  metaOf : ℕ → Option ℕ
  /-- The raw value of a metamethod's key in a table. -/
  field : ℕ → Event → Ref
  /-- `$call_mm1`: what a call leads to, with the strings and the objects after it. -/
  outcome : Call → StrHeap → ℕ → Except Fault Ref × StrHeap × ℕ
  /-- `host_parse_num` without a base, on the bytes of a string. -/
  parseNum : List UInt8 → Option Arith.Num
  /-- The doubles. -/
  floats : Floats

/-- The state of an operator. -/
structure OpState where
  /-- The strings. -/
  heap : StrHeap
  /-- The next box. -/
  next : ℕ
  /-- The calls of metamethods, the last one first. -/
  calls : List Call

/-- An operator. -/
abbrev OpM := ExceptT Fault (StateM OpState)

/-- A computation on strings. -/
def onStrings {α : Type} (x : StrM α) : OpM α := fun s =>
  let w : Except Fault α × StrHeap := x.run s.heap
  (w.1, { s with heap := w.2 })

/-- `$make_int`. -/
def makeInt (i : Int64) : OpM Ref := do
  let s ← get
  set { s with next := s.next + 1 }
  pure (Refs.makeInt s.next i)

/-- `$make_float`. -/
def makeFloat (f : F64) : OpM Ref := do
  let s ← get
  set { s with next := s.next + 1 }
  pure (.float s.next f)

/-- `$lua_truthy`. -/
def luaTruthy (v : Ref) : Bool := v ≠ .null ∧ v ≠ .bool false

/-- `$get_metamethod`. -/
def getMetamethod (env : Env) (v : Ref) (key : Event) : Ref :=
  match v with
  | .table id =>
    match env.metaOf id with
    | none => .null
    | some mt => env.field mt key
  | _ => .null

/-- `$call_mm1`, with two arguments. -/
def callMm1 (env : Env) (mm a b : Ref) : OpM Ref := do
  let s ← get
  let (res, heap, next) := env.outcome ⟨mm, a, b⟩ s.heap s.next
  set (⟨heap, next, ⟨mm, a, b⟩ :: s.calls⟩ : OpState)
  match res with
  | .ok v => pure v
  | .error e => throw e

/-- "attempt to perform arithmetic". -/
def performArithmetic : Fault := .raised "attempt to perform arithmetic"

/-- `$arith_mm`. -/
def arithMm (env : Env) (a b : Ref) (key : Event) : OpM Ref := do
  let mm := getMetamethod env a key
  let mm := if mm = .null then getMetamethod env b key else mm
  if mm = .null then throw performArithmetic
  else callMm1 env mm a b

variable {α : Type} {env : Env} {s : OpState} {a b mm v : Ref} {x : StrM α}

/-- A computation on strings leaves the rest of the state alone. -/
theorem onStrings_returns {r : α} {heap : StrHeap} (h : Returns x s.heap r heap) :
    Returns (onStrings x) s r { s with heap } := by
  have hrun : (x.run s.heap : Except Fault α × StrHeap) = (.ok r, heap) := h
  calc (((onStrings x).run s : Except Fault α × OpState))
      = ((x.run s.heap : Except Fault α × StrHeap).1,
          { s with heap := (x.run s.heap : Except Fault α × StrHeap).2 }) := rfl
    _ = (.ok r, { s with heap }) := by rw [hrun]

/-- A call is written down, whatever it leads to. -/
theorem callMm1_calls (env : Env) (mm a b : Ref) (s : OpState) :
    Meets (callMm1 env mm a b) s
      (fun v s' => s'.calls = ⟨mm, a, b⟩ :: s.calls ∧ (env.outcome ⟨mm, a, b⟩ s.heap s.next).1 = .ok v)
      (fun e s' => s'.calls = ⟨mm, a, b⟩ :: s.calls ∧ (env.outcome ⟨mm, a, b⟩ s.heap s.next).1 = .error e) := by
  unfold callMm1
  apply meets_get_bind
  generalize env.outcome ⟨mm, a, b⟩ s.heap s.next = out
  obtain ⟨res, heap, next⟩ := out
  apply meets_set_bind
  cases res with
  | ok v => exact meets_pure ⟨rfl, rfl⟩
  | error e => exact meets_throw ⟨rfl, rfl⟩

/-- An environment where every table has all metamethods, which return false. No string is a number, and the operations
on doubles return the first operand. -/
def falseEnv : Env where
  metaOf _ := some 0
  field _ _ := .other 0
  outcome _ heap next := (.ok (.bool false), heap, next)
  parseNum _ := none
  floats :=
    { add := fun f _ => f
      sub := fun f _ => f
      mul := fun f _ => f
      div := fun f _ => f
      neg := fun f => f
      ofInt := fun _ => Table.fzero
      pow := fun f _ => f
      fmod := fun f _ => f }

end Lua2wasm.Operators
