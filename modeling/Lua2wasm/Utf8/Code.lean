import Mathlib

/-!
# The UTF-8 functions

`runtime/prelude/utf8.wat`: the encoder and the two functions that decode, on which the whole `utf8`
library rests. A result of none is a trap: an access outside an array. Positions and lengths are
natural numbers, as arrays are far shorter than `2^31` bytes.
-/

namespace Lua2wasm.Utf8

/-- `array.set` of a continuation byte with the bits of the code point from `shift` on. -/
def contByte (cp shift : UInt32) : UInt8 := (0x80 ||| ((cp >>> shift) &&& 0x3F)).toUInt8

/-- `array.set` of a lead byte. -/
def leadByte (mark cp shift : UInt32) : UInt8 := (mark ||| (cp >>> shift)).toUInt8

/-- `$utf8_encode`: the bytes that it writes to the array, the number of which it returns. There are
none where it returns -1. -/
def utf8Encode (cp : UInt32) (lax : Bool) : Option (List UInt8) :=
  -- `cp` is negative
  if 0x80000000 ≤ cp then none
  else if !lax && 0x10FFFF < cp then none
  else if cp < 0x80 then some [cp.toUInt8]
  else if cp < 0x800 then some [leadByte 0xC0 cp 6, contByte cp 0]
  else if cp < 0x10000 then some [leadByte 0xE0 cp 12, contByte cp 6, contByte cp 0]
  else if cp < 0x200000 then
    some [leadByte 0xF0 cp 18, contByte cp 12, contByte cp 6, contByte cp 0]
  else if !lax then none
  else if cp < 0x4000000 then
    some [leadByte 0xF8 cp 24, contByte cp 18, contByte cp 12, contByte cp 6, contByte cp 0]
  else if cp ≤ 0x7FFFFFFF then
    some [leadByte 0xFC cp 30, contByte cp 24, contByte cp 18, contByte cp 12, contByte cp 6,
      contByte cp 0]
  else none

/-- The loop of `$utf8_assemble` over the `todo` bytes from `i` on. -/
def assembleFrom (bytes : List UInt8) : ℕ → ℕ → UInt32 → Option UInt32
  | 0, _, cp => some cp
  | todo + 1, i, cp => do
    let b ← bytes[i]?
    assembleFrom bytes todo (i + 1) ((cp <<< 6) ||| (b.toUInt32 &&& 0x3F))

/-- `$utf8_assemble`. -/
def utf8Assemble (bytes : List UInt8) (p width : ℕ) : Option UInt32 := do
  let b ← bytes[p]?
  if width = 1 then some b.toUInt32
  else assembleFrom bytes (width - 1) (p + 1) (b.toUInt32 &&& (0x7F >>> UInt32.ofNat (width - 1)))

/-- The number of continuation bytes that `$utf8_decode_step` expects after the lead byte `b`, which
is not an ASCII character. There is none if `b` is no lead byte. -/
def contCount (b : UInt8) (lax : Bool) : Option ℕ :=
  if b < 0xC0 then none
  else if b < 0xE0 then some 1
  else if b < 0xF0 then some 2
  else if b < 0xF8 then some 3
  else if !lax then none
  else if b < 0xFC then some 4
  else if b < 0xFE then some 5
  else none

/-- The loop of `$utf8_decode_step`: whether the `todo` bytes from `i` on are continuation bytes. -/
def checkFrom (bytes : List UInt8) : ℕ → ℕ → Option Bool
  | 0, _ => some true
  | todo + 1, i => do
    let b ← bytes[i]?
    if b < 0x80 || 0xC0 ≤ b then some false else checkFrom bytes todo (i + 1)

/-- The last test of `$utf8_decode_step`, in strict mode. -/
def strictOk (cp : UInt32) : Bool := !(0x10FFFF < cp) && !(0xD800 ≤ cp && cp ≤ 0xDFFF)

/-- `$utf8_decode_step`: the number of bytes of the code at `p`, or 0. -/
def utf8DecodeStep (bytes : List UInt8) (p : ℕ) (lax : Bool) : Option ℕ :=
  if bytes.length ≤ p then some 0
  else do
    let b ← bytes[p]?
    if b < 0x80 then some 1
    else match contCount b lax with
      | none => some 0
      | some cont =>
        if bytes.length < p + (cont + 1) then some 0
        else if !(← checkFrom bytes cont (p + 1)) then some 0
        else if lax then some (cont + 1)
        else if strictOk (← utf8Assemble bytes p (cont + 1)) then some (cont + 1)
        else some 0

end Lua2wasm.Utf8
