import Lua2wasm.Pack.Format

/-!
# Classes and sets

`runtime/prelude/patterns.wat`: the tests of a byte against the items of a pattern. A pattern is a list of
bytes and an index is a natural number; a read outside of it traps (`Fault.stuck`). `i32.and` evaluates both
of its operands, so the test for `^` after `[` reads the pattern also where it ends.
-/

namespace Lua2wasm.Pattern

open Table (Fault setAt)
open Pack (chr orTrap)

/-- The positive predicate of `$match_class` for a lower-case letter, if it is a class. -/
def classHit (byte lo : UInt8) : Option Bool :=
  let digit := 48 ≤ byte && byte ≤ 57
  let upper := 65 ≤ byte && byte ≤ 90
  let lower := 97 ≤ byte && byte ≤ 122
  if lo = chr 'd' then some digit
  else if lo = chr 'a' then some (upper || lower)
  else if lo = chr 'l' then some lower
  else if lo = chr 'u' then some upper
  else if lo = chr 'w' then some ((digit || upper) || lower)
  else if lo = chr 'x' then some ((digit || (97 ≤ byte && byte ≤ 102)) || (65 ≤ byte && byte ≤ 70))
  else if lo = chr 's' then some (byte = 32 || (9 ≤ byte && byte ≤ 13))
  else if lo = chr 'c' then some (byte < 32 || byte = 127)
  else if lo = chr 'g' then some (33 ≤ byte && byte ≤ 126)
  else if lo = chr 'p' then some ((33 ≤ byte && byte ≤ 126) && !((digit || upper) || lower))
  else if lo = chr 'z' then some (byte = 0)
  else none

/-- `$match_class`. -/
def matchClass (byte letter : UInt8) : Bool :=
  match classHit byte (letter ||| 0x20) with
  | none => byte = letter
  | some hit => if 65 ≤ letter && letter ≤ 90 then !hit else hit

/-- The index after `[` and `^`, and whether `^` is there. -/
def setStart (pat : List UInt8) (lpos : ℕ) : Except Fault (Bool × ℕ) := do
  let i := lpos + 1
  let b ← orTrap pat[i]?
  if b = chr '^' then pure (true, i + 1) else pure (false, i)

/-- The loop of `$match_set`: whether an element of the set matches. -/
def matchSetFrom (byte : UInt8) (pat : List UInt8) : ℕ → ℕ → Bool → Except Fault Bool
  | 0, _, _ => .error .stuck
  | fuel + 1, i, first =>
    if pat.length ≤ i then .ok false
    else do
      let b ← orTrap pat[i]?
      if b = chr ']' ∧ first = false then pure false
      else if b = chr '%' then
        if pat.length ≤ i + 1 then pure false
        else do
          let c ← orTrap pat[i + 1]?
          if matchClass byte c then pure true else matchSetFrom byte pat fuel (i + 2) false
      else do
        -- the end of a range that starts here
        let c ← if i + 2 < pat.length then do
            let b' ← orTrap pat[i + 1]?
            if b' = chr '-' then do
              let c ← orTrap pat[i + 2]?
              pure (if c ≠ chr ']' then some c else none)
            else pure none
          else pure none
        match c with
        | some c => if b ≤ byte ∧ byte ≤ c then pure true else matchSetFrom byte pat fuel (i + 3) false
        | none => if byte = b then pure true else matchSetFrom byte pat fuel (i + 1) false

/-- `$match_set`. -/
def matchSet (byte : UInt8) (pat : List UInt8) (lpos : ℕ) : Except Fault Bool := do
  let (neg, i) ← setStart pat lpos
  let hit ← matchSetFrom byte pat (pat.length + 1) i true
  pure (if neg then !hit else hit)

/-- The loop of `$item_end`. -/
def setEndFrom (pat : List UInt8) : ℕ → ℕ → Bool → Except Fault ℕ
  | 0, _, _ => .error .stuck
  | fuel + 1, i, first =>
    if pat.length ≤ i then .ok pat.length
    else do
      let b ← orTrap pat[i]?
      if b = chr ']' ∧ first = false then pure (i + 1)
      else setEndFrom pat fuel (if b = chr '%' then i + 2 else i + 1) false

/-- `$item_end`. -/
def itemEnd (pat : List UInt8) (ppos : ℕ) : Except Fault ℕ := do
  let b ← orTrap pat[ppos]?
  if b = chr '%' then pure (ppos + 2)
  else if b ≠ chr '[' then pure (ppos + 1)
  else do
    let (_, i) ← setStart pat ppos
    setEndFrom pat (pat.length + 1) i true

/-- `$match_one_item`. -/
def matchOneItem (byte : UInt8) (pat : List UInt8) (ppos : ℕ) : Except Fault Bool := do
  let b ← orTrap pat[ppos]?
  if b = chr '.' then pure true
  else if b = chr '%' then do
    let letter ← orTrap pat[ppos + 1]?
    pure (matchClass byte letter)
  else if b = chr '[' then matchSet byte pat ppos
  else pure (byte = b)

end Lua2wasm.Pattern
