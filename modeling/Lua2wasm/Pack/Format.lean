import Lua2wasm.Table.HashPart

/-!
# The helpers of `string.pack`

`runtime/prelude/string.wat`: the parts of the format language that `string.pack`, `string.unpack` and
`string.packsize` share, and the values that they pack.

An `i32` is a natural number below `2^32`; sums that the source computes in 32 bits are reduced (`u32`),
and `s32` is the signed reading. An `i64` is 64 bits. A read outside an array traps, and so does a cast
of a value of another type (`Fault.stuck`).
-/

namespace Lua2wasm

namespace F64

/-- `m / 2^s` rounded to the nearest integer, with ties to even. -/
def roundShift (m s : ℕ) : ℕ :=
  let q := m / 2^s
  let r := m % 2^s
  if 2^s < 2 * r ∨ (2^s = 2 * r ∧ q % 2 = 1) then q + 1 else q

/-- `f32.demote_f64`, as the 32 bits. -/
def demote (f : F64) : BitVec 32 :=
  let sign := if f.negative then 2^31 else 0
  if f.expField = 2047 then
    if f.fracField = 0 then BitVec.ofNat 32 (sign + 255 * 2^23)
    else BitVec.ofNat 32 (sign + 255 * 2^23 + 2^22 + f.fracField / 2^29 % 2^22)
  else if f.significand = 0 then BitVec.ofNat 32 sign
  else
    -- the value is `significand * 2^(e - 1074)`, and the result a multiple of `2^(t - 149)`
    let e := max f.expField 1 - 1
    let top := Nat.log2 f.significand + e
    if 948 ≤ top then
      let bits := (top - 948) * 2^23 + roundShift f.significand (Nat.log2 f.significand - 23)
      BitVec.ofNat 32 (sign + min bits (255 * 2^23))
    else BitVec.ofNat 32 (sign + roundShift f.significand (925 - e))

/-- `f64.promote_f32` of the 32 bits. -/
def promote (b : BitVec 32) : F64 :=
  let sign := if b.msb then 2^63 else 0
  let e := b.toNat / 2^23 % 256
  let m := b.toNat % 2^23
  if e = 255 then
    if m = 0 then ⟨BitVec.ofNat 64 (sign + 2047 * 2^52)⟩
    else ⟨BitVec.ofNat 64 (sign + 2047 * 2^52 + 2^51 + m % 2^22 * 2^29)⟩
  else if e = 0 then
    if m = 0 then ⟨BitVec.ofNat 64 sign⟩
    else ⟨BitVec.ofNat 64 (sign + (873 + Nat.log2 m) * 2^52 + m * 2^(52 - Nat.log2 m))⟩
  else ⟨BitVec.ofNat 64 (sign + (e + 896) * 2^52 + m * 2^29)⟩

/-- `f64.convert_i64_s`. -/
def ofInt64 (v : Int64) : F64 :=
  let sign := if v < 0 then 2^63 else 0
  let m := v.toInt.natAbs
  if m = 0 then ⟨0⟩
  else
    let t := Nat.log2 m
    let q := if t ≤ 52 then m * 2^(52 - t) else roundShift m (t - 52)
    ⟨BitVec.ofNat 64 (sign + (1022 + t) * 2^52 + q)⟩

example : promote (demote ⟨0x3ff8000000000000#64⟩) = ⟨0x3ff8000000000000#64⟩ := by decide

example : ofInt64 (-3) = ⟨0xc008000000000000#64⟩ := by decide

end F64

namespace Pack

open Table (Fault setAt)

/-- A value that is packed or unpacked. -/
inductive PackVal
  /-- The null reference. -/
  | nil
  /-- An integer. -/
  | int (v : Int64)
  /-- A float. -/
  | float (f : F64)
  /-- A string. -/
  | str (x : List UInt8)
  /-- Any other value, with the name of its type. -/
  | other (type : String)
  deriving DecidableEq, Repr

/-- A number, as `host_parse_num` reads it from a string. -/
inductive Num
  /-- An integer. -/
  | int (v : Int64)
  /-- A float. -/
  | float (f : F64)
  deriving DecidableEq, Repr

/-- The value of a read that traps when there is none. -/
def orTrap {α : Type} : Option α → Except Fault α
  | some a => .ok a
  | none => .error .stuck

theorem ok_bind {α β : Type} (a : α) (f : α → Except Fault β) : ((Except.ok a : Except Fault α) >>= f) = f a := rfl

theorem error_bind {α β : Type} (e : Fault) (f : α → Except Fault β) :
    ((Except.error e : Except Fault α) >>= f) = .error e := rfl

/-- A sequence that succeeds does so in its parts. -/
theorem of_bind_ok {α β : Type} {x : Except Fault α} {f : α → Except Fault β} {b : β} (h : x >>= f = .ok b) :
    ∃ a, x = .ok a ∧ f a = .ok b := by
  cases x with
  | error e => cases h
  | ok a => exact ⟨a, rfl, h⟩

/-- `$throw_lit`. -/
def raise {α : Type} (msg : String) : Except Fault α := .error (.raised msg)

/-- Arithmetic of `i32`. -/
def u32 (x : ℕ) : ℕ := x % 2^32

/-- An `i32` read as a signed number. -/
def s32 (x : ℕ) : ℤ := if x < 2^31 then x else x - 2^32

/-- A byte of the format. -/
def chr (c : Char) : UInt8 := c.toNat.toUInt8

/-! ## Arguments -/

/-- `$basic_type_name`. -/
def PackVal.typeName : PackVal → String
  | .nil => "nil"
  | .int _ => "number"
  | .float _ => "number"
  | .str _ => "string"
  | .other type => type

/-- `$throw_number_expected`. -/
def throwNumberExpected {α : Type} (v : PackVal) : Except Fault α := raise ("number expected, got " ++ v.typeName)

/-- The end of `$as_int_co_slow`. -/
def floatToInt (f : F64) : Except Fault Int64 :=
  match f.toI64 with
  | some v => .ok v
  | none => raise "number has no integer representation"

/-- `$as_int_co`. -/
def asIntCo (parse : List UInt8 → Option Num) : PackVal → Except Fault Int64
  | .int v => .ok v
  | .float f => floatToInt f
  | .str x =>
    match parse x with
    | none => throwNumberExpected (.str x)
    | some (.int v) => .ok v
    | some (.float f) => floatToInt f
  | v => throwNumberExpected v

/-- `$as_float`. -/
def asFloat : PackVal → Except Fault F64
  | .float f => .ok f
  | .int v => .ok (F64.ofInt64 v)
  | _ => .error .stuck

/-- `ref.cast (ref $LuaString)`, and `$str_bytes`. -/
def castStr : PackVal → Except Fault (List UInt8)
  | .str x => .ok x
  | _ => .error .stuck

/-- `$args_at`. -/
def argsAt (args : List PackVal) (i : ℕ) : PackVal := args.getD i .nil

/-! ## Sizes -/

/-- `$pack_is_pow2`. -/
def packIsPow2 (n : ℕ) : Bool := 0 < n && n &&& (n - 1) = 0

/-- The loop of `$pack_n_suffix`: `n`, `ppos` and `any`. -/
def nSuffixFrom (bytes : List UInt8) : ℕ → ℕ → ℕ → Bool → ℕ × ℕ × Bool
  | 0, n, ppos, any => (n, ppos, any)
  | fuel + 1, n, ppos, any =>
    match bytes[ppos]? with
    | none => (n, ppos, any)
    | some c =>
      if c < 48 ∨ 57 < c then (n, ppos, any)
      else nSuffixFrom bytes fuel (u32 (n * 10 + (c.toNat - 48))) (ppos + 1) true

/-- `$pack_n_suffix`. -/
def packNSuffix (bytes : List UInt8) (ppos : ℕ) (dflt : ℤ) : ℤ × ℕ :=
  match nSuffixFrom bytes (bytes.length - ppos) 0 ppos false with
  | (n, ppos, any) => (if any then s32 n else dflt, ppos)

/-- The test of `[N]` of the options `!`, `s`, `i` and `I`. -/
def packLimits (n : ℤ) : Except Fault ℕ :=
  if n < 1 then raise "out of limits"
  else if n > 16 then raise "out of limits"
  else .ok n.toNat

/-- `$pack_opt_size`. -/
def packOptSize (opt : UInt8) (bytes : List UInt8) (ppos : ℕ) : Except Fault (ℕ × ℕ) :=
  if opt = chr 'b' ∨ opt = chr 'B' then .ok (1, ppos)
  else if opt = chr 'h' ∨ opt = chr 'H' then .ok (2, ppos)
  else if opt = chr 'l' ∨ opt = chr 'L' then .ok (8, ppos)
  else if opt = chr 'j' ∨ opt = chr 'J' then .ok (8, ppos)
  else if opt = chr 'T' then .ok (8, ppos)
  else if opt = chr 'f' then .ok (4, ppos)
  else if opt = chr 'd' ∨ opt = chr 'n' then .ok (8, ppos)
  else if opt = chr 'i' ∨ opt = chr 'I' then
    match packNSuffix bytes ppos 4 with
    | (n, newpp) => (packLimits n).map fun n => (n, newpp)
  else if opt = chr 'c' then
    match packNSuffix bytes ppos (-1) with
    | (n, newpp) => if n < 0 then raise "missing size" else .ok (n.toNat, newpp)
  else raise "invalid format"

/-- `$pack_align`. -/
def packAlign (offset sz maxAlign : ℕ) : Except Fault ℕ :=
  let stride := if sz > maxAlign then maxAlign else sz
  if packIsPow2 stride = false then raise "not power of 2"
  else if offset % stride ≠ 0 then .ok (u32 (offset + (stride - offset % stride)))
  else .ok offset

/-! ## Integers -/

/-- The byte `i` of an integer. -/
def packByte (val : BitVec 64) (i : ℕ) : UInt8 :=
  if i < 8 then UInt8.ofBitVec ((val >>> (i * 8)).setWidth 8) else if val.msb then 255 else 0

/-- Where the byte `i` of an integer of `n` bytes is. -/
def packIdx (off n : ℕ) (le : Bool) (i : ℕ) : ℕ := u32 (off + if le then i else n - 1 - i)

/-- The loop of `$pack_write_int`. -/
def packWriteFrom (off n : ℕ) (le : Bool) (val : BitVec 64) : ℕ → ℕ → List UInt8 → Option (List UInt8)
  | 0, _, buf => some buf
  | todo + 1, i, buf =>
    match setAt buf (packIdx off n le i) (packByte val i) with
    | none => none
    | some buf => packWriteFrom off n le val todo (i + 1) buf

/-- `$pack_write_int`. -/
def packWriteInt (buf : List UInt8) (off n : ℕ) (le : Bool) (val : BitVec 64) : Option (List UInt8) :=
  packWriteFrom off n le val n 0 buf

/-- The loop of `$pack_read_int`. -/
def packReadFrom (buf : List UInt8) (off n : ℕ) (le : Bool) : ℕ → ℕ → BitVec 64 → Option (BitVec 64)
  | 0, _, val => some val
  | todo + 1, i, val =>
    match buf[packIdx off n le i]? with
    | none => none
    | some b => packReadFrom buf off n le todo (i + 1) (val ||| (b.toBitVec.setWidth 64 <<< (i * 8)))

/-- `$pack_read_int`. -/
def packReadInt (buf : List UInt8) (off n : ℕ) (le : Bool) : Option (BitVec 64) :=
  packReadFrom buf off n le (min n 8) 0 0

/-- `$pack_fits_unsigned`. -/
def packFitsUnsigned (val : BitVec 64) (n : ℕ) : Bool := 8 ≤ n || val >>> (n * 8) = 0

/-- `$pack_signext`. -/
def packSignext (val : BitVec 64) (n : ℕ) : BitVec 64 :=
  if 8 ≤ n then val else (val <<< ((8 - n) * 8)).sshiftRight ((8 - n) * 8)

/-- `$pack_fits_signed`. -/
def packFitsSigned (val : BitVec 64) (n : ℕ) : Bool :=
  8 ≤ n || val = (val <<< ((8 - n) * 8)).sshiftRight ((8 - n) * 8)

/-- The loop of `$pack_check_fit`. -/
def packCheckFrom (buf : List UInt8) (off sz : ℕ) (le : Bool) (fill : UInt8) : ℕ → ℕ → Except Fault Unit
  | 0, _ => .ok ()
  | todo + 1, i =>
    match buf[packIdx off sz le i]? with
    | none => .error .stuck
    | some b => if b ≠ fill then raise "data does not fit" else packCheckFrom buf off sz le fill todo (i + 1)

/-- The byte that `$pack_check_fit` looks for. -/
def packFill (signed : Bool) (val : BitVec 64) : UInt8 := if signed && val.msb then 255 else 0

/-- `$pack_check_fit`. -/
def packCheckFit (buf : List UInt8) (off sz : ℕ) (le signed : Bool) (val : BitVec 64) : Except Fault Unit :=
  packCheckFrom buf off sz le (packFill signed val) (sz - 8) 8

/-- `$pack_opt_is_signed`. -/
def packOptIsSigned (c : UInt8) : Bool :=
  c = chr 'b' || c = chr 'h' || c = chr 'i' || c = chr 'j' || c = chr 'l'

end Pack

end Lua2wasm
