import Lua2wasm.Utf8.Code
import Lua2wasm.Strings.SubRep
import Lua2wasm.Table.Next

/-!
# The functions of the `utf8` library

`utf8.codepoint`, `utf8.codes`, `utf8.offset` and `utf8.len` of `runtime/prelude/utf8.wat`, from where their
arguments have been coerced. Positions are 64 bits wide until their bounds have been tested; then they are
truncated to the 32 bits that arrays are indexed with. A position that is absent is none. Where the source counts
the codes to go up or down to 0, the count here is its distance from 0.
-/

namespace Lua2wasm.Utf8

open Table (Fault orTrap)
open Strings (wrap optInt)
open Pack (s32)

/-- The bytes of a string. An array has a length that is a positive 32-bit number. -/
abbrev ByteString := { bytes : List UInt8 // bytes.length < 2^31 }

/-- `$utf8_iscont`. -/
def utf8Iscont (b : UInt8) : Bool := b &&& 0xC0 == 0x80

/-- `array.get_u`, and the test of the byte for a continuation byte. -/
def contAt (bytes : List UInt8) (p : ℕ) : Except Fault Bool := do
  let b ← orTrap bytes[p]?
  pure (utf8Iscont b)

/-- The test of a byte for a continuation byte, where it is only made inside the string. -/
def contIfInside (bytes : List UInt8) (p : ℕ) : Except Fault Bool :=
  if p < bytes.length then contAt bytes p else pure false

/-- `$u_posrelat`. -/
def uPosrelat (pos : Int64) (len : ℕ) : Int64 :=
  if 0 ≤ pos then pos
  else if (Int64.ofNat len).toUInt64 < (0 - pos).toUInt64 then 0
  else Int64.ofNat len + pos + 1

/-! ## Code points -/

/-- The first loop of `$builtin_utf8_codepoint`: the number of codes from `p` on that start before `j`. -/
def countFrom (bytes : List UInt8) (lax : Bool) (j p count : ℕ) : Except Fault ℕ :=
  if _h : j < p + 1 then pure count
  else do
    let w ← orTrap (utf8DecodeStep bytes p lax)
    if _hw : w = 0 then throw (.raised "invalid UTF-8 code")
    else countFrom bytes lax j (p + w) (count + 1)
termination_by j - p

/-- The second loop of `$builtin_utf8_codepoint`: the values of the next `todo` codes. -/
def assembleCodes (bytes : List UInt8) (lax : Bool) : ℕ → ℕ → Except Fault (List UInt32)
  | 0, _ => pure []
  | todo + 1, p => do
    let w ← orTrap (utf8DecodeStep bytes p lax)
    let cp ← orTrap (utf8Assemble bytes p w)
    let rest ← assembleCodes bytes lax todo (p + w)
    pure (cp :: rest)

/-- `$builtin_utf8_codepoint`. -/
def utf8Codepoint (bytes : List UInt8) (i j : Option Int64) (lax : Bool) : Except Fault (List UInt32) :=
  let n := bytes.length
  let posi := uPosrelat (optInt i 1) n
  let posj := j.elim posi fun j => uPosrelat j n
  if posi < 1 then throw (.raised "out of bounds")
  else if Int64.ofNat n < posj then throw (.raised "out of bounds")
  else if posj < posi then pure []
  else do
    let count ← countFrom bytes lax (wrap posj) (wrap posi - 1) 0
    assembleCodes bytes lax count (wrap posi - 1)

/-! ## The iterator -/

/-- The loops that go on to a byte that is no continuation byte. -/
def skipForward (bytes : List UInt8) (p : ℕ) : Except Fault ℕ :=
  if _h : bytes.length ≤ p then pure p
  else do
    let c ← contAt bytes p
    if c then skipForward bytes (p + 1) else pure p
termination_by bytes.length - p

/-- `$builtin_utf8_codes_iter`: the position and the value of the next code. -/
def utf8CodesIter (bytes : List UInt8) (ctrl : Int64) : Except Fault (Option (ℕ × UInt32)) := do
  if ctrl < 0 ∨ Int64.ofNat bytes.length ≤ ctrl then pure none
  else do
    let n ← skipForward bytes (wrap ctrl)
    if bytes.length ≤ n then pure none
    else do
      let w ← orTrap (utf8DecodeStep bytes n false)
      if w = 0 then throw (.raised "invalid UTF-8 code")
      else do
        -- a stray continuation byte after the code
        let stray ← contIfInside bytes (n + w)
        if stray then throw (.raised "invalid UTF-8 code")
        else do
          let cp ← orTrap (utf8Assemble bytes n w)
          pure (some (n + 1, cp))

/-- The `for` loop over the iterator: the steps that it takes from `ctrl` on, at most `fuel`. -/
def codesFrom (bytes : List UInt8) : ℕ → Int64 → Except Fault (List (ℕ × UInt32))
  | 0, _ => throw .stuck
  | fuel + 1, ctrl => do
    match ← utf8CodesIter bytes ctrl with
    | none => pure []
    | some (pos, cp) => do
      let rest ← codesFrom bytes fuel (Int64.ofNat pos)
      pure ((pos, cp) :: rest)

/-- `$builtin_utf8_codes`, and the `for` loop over what it returns. The second argument is not read. -/
def utf8Codes (bytes : List UInt8) (_lax : Bool) : Except Fault (List (ℕ × UInt32)) := do
  let first ← contIfInside bytes 0
  if first then throw (.raised "invalid UTF-8 code")
  else codesFrom bytes (bytes.length + 1) 0

/-! ## Offsets -/

/-- The loop of `$utf8_offset_result`: the last byte of the code at `e`. -/
def lastFrom (bytes : List UInt8) (e : ℕ) : Except Fault ℕ :=
  if _h : bytes.length ≤ e + 1 then pure e
  else do
    let c ← contAt bytes (e + 1)
    if c then lastFrom bytes (e + 1) else pure e
termination_by bytes.length - e

/-- The local `$e` of `$utf8_offset_result`. -/
def offsetLast (bytes : List UInt8) (p : ℕ) : Except Fault ℕ :=
  if p < bytes.length then do
    let b ← orTrap bytes[p]?
    if 0x80 ≤ b then
      if utf8Iscont b then throw (.raised "initial position is a continuation byte") else lastFrom bytes p
    else pure p
  else pure p

/-- `$utf8_offset_result`. -/
def utf8OffsetResult (bytes : List UInt8) (p : ℕ) : Except Fault (ℕ × ℕ) := do
  let e ← offsetLast bytes p
  pure (p + 1, e + 1)

/-- The loop of `$builtin_utf8_offset` for the offset 0. -/
def walkBack (bytes : List UInt8) : ℕ → Except Fault ℕ
  | 0 => pure 0
  | p + 1 =>
    if bytes.length ≤ p + 1 then pure (p + 1)
    else do
      let c ← contAt bytes (p + 1)
      if c then walkBack bytes p else pure (p + 1)

/-- The inner loop of `$builtin_utf8_offset` on the way back. -/
def skipBack (bytes : List UInt8) : ℕ → Except Fault ℕ
  | 0 => pure 0
  | p + 1 => do
    let c ← contAt bytes (p + 1)
    if c then skipBack bytes p else pure (p + 1)

/-- The loop of `$builtin_utf8_offset` on the way back: the codes that are left to go, and where it stops. -/
def moveBack (bytes : List UInt8) : ℕ → ℕ → Except Fault (ℕ × ℕ)
  | 0, p => pure (0, p)
  | n + 1, 0 => pure (n + 1, 0)
  | n + 1, p + 1 => do
    let p ← skipBack bytes p
    moveBack bytes n p

/-- The loop of `$builtin_utf8_offset` on the way forward. -/
def moveForward (bytes : List UInt8) : ℕ → ℕ → Except Fault (ℕ × ℕ)
  | 0, p => pure (0, p)
  | n + 1, p =>
    if bytes.length ≤ p then pure (n + 1, p)
    else do
      let p ← skipForward bytes (p + 1)
      moveForward bytes n p

/-- The way back or forward. -/
def moveBy (bytes : List UInt8) (n : Int64) (p : ℕ) : Except Fault (ℕ × ℕ) :=
  if n < 0 then moveBack bytes n.toInt.natAbs p else moveForward bytes (n - 1).toInt.natAbs p

/-- The position where `$builtin_utf8_offset` starts. -/
def offsetStart (len : ℕ) (n : Int64) : Option Int64 → Int64
  | none => if 0 ≤ n then 1 else Int64.ofNat len + 1
  | some i => uPosrelat i len

/-- `$builtin_utf8_offset`: the first and the last byte of the code, or nil. -/
def utf8Offset (bytes : List UInt8) (n : Int64) (i : Option Int64) : Except Fault (Option (ℕ × ℕ)) :=
  let len := bytes.length
  let posi := offsetStart len n i
  if ¬ (1 ≤ posi ∧ posi - 1 ≤ Int64.ofNat len) then throw (.raised "position out of bounds")
  else do
    let p := wrap (posi - 1)
    if n = 0 then do
      let p ← walkBack bytes p
      let r ← utf8OffsetResult bytes p
      pure (some r)
    else do
      let c ← contIfInside bytes p
      if c then throw (.raised "initial position is a continuation byte")
      else do
        let (left, p) ← moveBy bytes n p
        if left ≠ 0 then pure none
        else do
          let r ← utf8OffsetResult bytes p
          pure (some r)

/-! ## Lengths -/

/-- What `utf8.len` returns: a count, or nil and the position of the first invalid byte. -/
inductive LenResult where
  | count (n : ℕ)
  | invalid (pos : ℕ)
deriving DecidableEq, Repr

/-- The loop of `$builtin_utf8_len`. -/
def lenFrom (bytes : List UInt8) (lax : Bool) (last : ℤ) (p count : ℕ) : Except Fault LenResult :=
  if _h : last < p then pure (.count count)
  else do
    let w ← orTrap (utf8DecodeStep bytes p lax)
    if _hw : w = 0 then pure (.invalid (p + 1))
    else lenFrom bytes lax last (p + w) (count + 1)
termination_by (last + 1 - p).toNat

/-- `$builtin_utf8_len`. -/
def utf8Len (bytes : List UInt8) (i j : Option Int64) (lax : Bool) : Except Fault LenResult :=
  let n := bytes.length
  let posi := uPosrelat (optInt i 1) n
  let posj := uPosrelat (optInt j (-1)) n
  if ¬ (1 ≤ posi ∧ posi - 1 ≤ Int64.ofNat n) then throw (.raised "out of bounds")
  else if ¬ posj - 1 < Int64.ofNat n then throw (.raised "out of bounds")
  else lenFrom bytes lax (s32 (wrap (posj - 1))) (wrap (posi - 1)) 0

end Lua2wasm.Utf8
