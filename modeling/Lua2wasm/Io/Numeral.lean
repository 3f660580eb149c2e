import Mathlib

/-!
# The numeral at the start of a byte string

`LUA_NUM_RE` of `runtime/host-bindings.mjs`, the regular expression for one numeral at the start of a
byte string. It has three alternatives after the sign, in this order: hexadecimal, decimal with a digit
before the point, decimal without. `luaNumRe` gives the length of the match.
-/

namespace Lua2wasm.Io

/-- A byte string. -/
abbrev Bytes := List UInt8

/-- `[0-9]`. -/
def isDigit (b : UInt8) : Bool := 48 ≤ b ∧ b ≤ 57

/-- `[0-9a-fA-F]`. -/
def isHexDigit (b : UInt8) : Bool := isDigit b ∨ (97 ≤ b ∧ b ≤ 102) ∨ (65 ≤ b ∧ b ≤ 70)

/-- The length of `[+-]?`. -/
def signLen : Bytes → ℕ
  | b :: _ => if b = 43 ∨ b = 45 then 1 else 0
  | [] => 0

/-- The number of bytes at the start that meet `p`. -/
def runLen (p : UInt8 → Bool) (s : Bytes) : ℕ := (s.takeWhile p).length

/-- The length of `([eE][+-]?[0-9]+)?`, where `lower` and `upper` are the letters. -/
def exponentLen (lower upper : UInt8) : Bytes → ℕ
  | b :: s =>
    if b = lower ∨ b = upper then
      let d := runLen isDigit (s.drop (signLen s))
      if d = 0 then 0 else 1 + signLen s + d
    else 0
  | [] => 0

/-- The length of `(\.[0-9a-fA-F]*)?`. -/
def hexFractionLen : Bytes → ℕ
  | b :: s => if b = 46 then 1 + runLen isHexDigit s else 0
  | [] => 0

/-- `0[xX][0-9a-fA-F]+(\.[0-9a-fA-F]*)?([pP][+-]?[0-9]+)?`. -/
def hexLen : Bytes → Option ℕ
  | z :: x :: s =>
    let d := runLen isHexDigit s
    if z = 48 ∧ (x = 120 ∨ x = 88) ∧ d ≠ 0 then
      let n := d + hexFractionLen (s.drop d)
      some (2 + n + exponentLen 112 80 (s.drop n))
    else none
  | _ => none

/-- The length of `\.?`. -/
def pointLen : Bytes → ℕ
  | b :: _ => if b = 46 then 1 else 0
  | [] => 0

/-- `[0-9]+\.?[0-9]*([eE][+-]?[0-9]+)?`. -/
def decimalLen (s : Bytes) : Option ℕ :=
  let d := runLen isDigit s
  if d = 0 then none
  else
    let p := d + pointLen (s.drop d)
    let n := p + runLen isDigit (s.drop p)
    some (n + exponentLen 101 69 (s.drop n))

/-- `\.[0-9]+([eE][+-]?[0-9]+)?`. -/
def pointFirstLen : Bytes → Option ℕ
  | b :: s =>
    let d := runLen isDigit s
    if b = 46 ∧ d ≠ 0 then some (1 + d + exponentLen 101 69 (s.drop d)) else none
  | [] => none

/-- `LUA_NUM_RE`: the length of the numeral at the start, with its sign. -/
def luaNumRe (s : Bytes) : Option ℕ :=
  let t := s.drop (signLen s)
  ((hexLen t).orElse fun _ => (decimalLen t).orElse fun _ => pointFirstLen t).map (signLen s + ·)

/-- White space, as the readers of numerals skip it. -/
def isSpace (b : UInt8) : Bool := b = 32 ∨ b = 9 ∨ b = 10 ∨ b = 13 ∨ b = 11 ∨ b = 12

end Lua2wasm.Io
