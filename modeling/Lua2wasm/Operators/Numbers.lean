import Lua2wasm.Arith.Div
import Lua2wasm.Operators.Metamethods

/-!
# Arithmetic and bitwise operators

The operators of `runtime/prelude/arith.wat` on any two values: the fast paths for small integers and for floats, the
coercion of strings, the arithmetic of integers and floats, and the metamethods.
-/

namespace Lua2wasm.Operators

open Raising Refs Strings
open Table (Fault)

/-- A part that may trap or raise, without any state. -/
def ofExcept {α : Type} : Except Fault α → OpM α
  | .ok a => pure a
  | .error e => throw e

/-! ## Operands -/

/-- `$is_numlike`. -/
def isNumlike (v : Ref) : Bool := v.isInt || v.isFloat

/-- `$as_float`, of a number. -/
def asFloat (env : Env) (v : Ref) : F64 := if v.isFloat then v.asFloat else env.floats.ofInt v.asInt

/-- `$host_parse_num` of a string, without a base. -/
def hostParseNum (env : Env) (s : ℕ) : OpM Ref := do
  let r ← onStrings (strBytes s)
  let bytes ← onStrings (arrOf r)
  match env.parseNum bytes with
  | none => pure .null
  | some (.int i) => makeInt i
  | some (.float f) => makeFloat f

/-- `$coerce_num`. -/
def coerceNum (env : Env) (v : Ref) : OpM Ref :=
  if isNumlike v then pure v
  else match v with
    | .str s => hostParseNum env s
    | _ => pure .null

/-! ## Arithmetic -/

/-- The body that `$lua_add`, `$lua_sub` and `$lua_mul` share. -/
def arithInts (env : Env) (onInts : Int64 → Int64 → Int64) (onFloats : F64 → F64 → F64) (key : Event) (a b : Ref) :
    OpM Ref :=
  match a, b with
  | .i31 m _, .i31 n _ => makeInt (onInts m.toInt64 n.toInt64)
  | .float _ f, .float _ g => makeFloat (onFloats f g)
  | a, b => do
    let ca ← coerceNum env a
    let cb ← coerceNum env b
    if isNumlike ca && isNumlike cb then
      if ca.isInt && cb.isInt then makeInt (onInts ca.asInt cb.asInt)
      else makeFloat (onFloats (asFloat env ca) (asFloat env cb))
    else arithMm env a b key

/-- `$lua_add`. -/
def luaAdd (env : Env) (a b : Ref) : OpM Ref := arithInts env (· + ·) env.floats.add .add a b

/-- `$lua_sub`. -/
def luaSub (env : Env) (a b : Ref) : OpM Ref := arithInts env (· - ·) env.floats.sub .sub a b

/-- `$lua_mul`. -/
def luaMul (env : Env) (a b : Ref) : OpM Ref := arithInts env (· * ·) env.floats.mul .mul a b

/-- `$lua_div`. -/
def luaDiv (env : Env) (a b : Ref) : OpM Ref :=
  match a, b with
  | .float _ f, .float _ g => makeFloat (env.floats.div f g)
  | a, b => do
    let ca ← coerceNum env a
    let cb ← coerceNum env b
    if isNumlike ca && isNumlike cb then makeFloat (env.floats.div (asFloat env ca) (asFloat env cb))
    else arithMm env a b .div

/-- `$lua_fdiv`. -/
def luaFdiv (env : Env) (a b : Ref) : OpM Ref := do
  let ca ← coerceNum env a
  let cb ← coerceNum env b
  if ca.isInt && cb.isInt then do
    let q ← ofExcept (Arith.luaFdiv ca.asInt cb.asInt)
    makeInt q
  else if isNumlike ca && isNumlike cb then makeFloat (env.floats.div (asFloat env ca) (asFloat env cb)).floor
  else arithMm env a b .idiv

/-- The float branch of `$lua_mod`. -/
def floatMod (fl : Floats) (a b : F64) : F64 :=
  let m := fl.fmod a b
  if m.ne Table.fzero && m.lt Table.fzero != b.lt Table.fzero then fl.add m b else m

/-- `$lua_mod`. -/
def luaMod (env : Env) (a b : Ref) : OpM Ref := do
  let ca ← coerceNum env a
  let cb ← coerceNum env b
  if ca.isInt && cb.isInt then do
    let r ← ofExcept (Arith.luaMod ca.asInt cb.asInt)
    makeInt r
  else if isNumlike ca && isNumlike cb then makeFloat (floatMod env.floats (asFloat env ca) (asFloat env cb))
  else arithMm env a b .mod

/-- `$lua_pow`. -/
def luaPow (env : Env) (a b : Ref) : OpM Ref := do
  let ca ← coerceNum env a
  let cb ← coerceNum env b
  if isNumlike ca && isNumlike cb then makeFloat (env.floats.pow (asFloat env ca) (asFloat env cb))
  else arithMm env a b .pow

/-- `$lua_neg`. The metamethod gets the operand twice. -/
def luaNeg (env : Env) (a : Ref) : OpM Ref := do
  let ca ← coerceNum env a
  if isNumlike ca then
    if ca.isInt then makeInt (0 - ca.asInt)
    else makeFloat (env.floats.neg (asFloat env ca))
  else
    let mm := getMetamethod env a .unm
    if mm = .null then throw performArithmetic
    else callMm1 env mm a a

/-! ## Bitwise operators -/

/-- `f64.trunc`. -/
def trunc (f : F64) : F64 := if f.negative then f.ceil else f.floor

/-- `$try_to_int`. -/
def tryToInt (v : Ref) : Bool :=
  if v.isInt then true
  else if v.isFloat then
    let f := v.asFloat
    f.eq (trunc f) && (f.eq f && (f.ge Arith.minusTwo63 && f.lt Arith.two63))
  else false

/-- `$as_int_unchecked`. -/
def asIntUnchecked (v : Ref) : Except Fault Int64 := if v.isInt then .ok v.asInt else v.asFloat.truncI64

/-- The body that the binary bitwise operators share. -/
def bitop (env : Env) (op : Int64 → Int64 → Int64) (key : Event) (a b : Ref) : OpM Ref :=
  if tryToInt a && tryToInt b then do
    let i ← ofExcept (asIntUnchecked a)
    let j ← ofExcept (asIntUnchecked b)
    makeInt (op i j)
  else arithMm env a b key

/-- `$lua_band`. -/
def luaBand (env : Env) (a b : Ref) : OpM Ref := bitop env (· &&& ·) .band a b

/-- `$lua_bor`. -/
def luaBor (env : Env) (a b : Ref) : OpM Ref := bitop env (· ||| ·) .bor a b

/-- `$lua_bxor`. -/
def luaBxor (env : Env) (a b : Ref) : OpM Ref := bitop env (· ^^^ ·) .bxor a b

/-- `$do_shl`: `i64.shl` and `i64.shr_u` take the amount modulo 64. -/
def doShl (v n : Int64) : Int64 :=
  if 64 ≤ n then 0
  else if n ≤ -64 then 0
  else if n < 0 then (v.toUInt64 >>> (0 - n).toUInt64).toInt64
  else (v.toUInt64 <<< n.toUInt64).toInt64

/-- `$do_shr`. -/
def doShr (v n : Int64) : Int64 := doShl v (0 - n)

/-- `$lua_shl`. -/
def luaShl (env : Env) (a b : Ref) : OpM Ref := bitop env doShl .shl a b

/-- `$lua_shr`. -/
def luaShr (env : Env) (a b : Ref) : OpM Ref := bitop env doShr .shr a b

/-- `$lua_bnot`. The metamethod gets the operand twice. -/
def luaBnot (env : Env) (a : Ref) : OpM Ref :=
  if tryToInt a then do
    let i ← ofExcept (asIntUnchecked a)
    makeInt (i ^^^ -1)
  else
    let mm := getMetamethod env a .bnot
    if mm = .null then throw performArithmetic
    else callMm1 env mm a a

end Lua2wasm.Operators
