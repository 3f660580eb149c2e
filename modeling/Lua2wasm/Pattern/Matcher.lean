import Lua2wasm.Pattern.Class

/-!
# The matcher

`$match_pat` of `runtime/prelude/patterns.wat`, the recursive matcher with backtracking. The captures are in
an array of 64 numbers that all calls share, two for each capture: the start and the length, where the length
-1 is an open capture and -2 a position. A call returns the end of the match and the number of captures, or
nothing.

The branches of `$match_pat` are functions of their own here; each is given the call that goes on (`Next`).
-/

namespace Lua2wasm.Pattern

open Table (Fault setAt)
open Pack (chr)

/-- Computations on the array of the captures. -/
abbrev PatM := StateT (List ℤ) (Except Fault)

/-- The end of a match and its number of captures. -/
abbrev Found := Option (ℕ × ℕ)

/-- The call that goes on: from a position of the subject and a position of the pattern, with a number of
captures. -/
abbrev Next := ℕ → ℕ → ℕ → PatM Found

/-- The value of a read that traps when there is none. -/
def trapM {α : Type} : Option α → PatM α
  | some a => pure a
  | none => throw .stuck

/-- `array.get $CapArr`. -/
def capAt (i : ℕ) : PatM ℤ := do
  let caps ← get
  trapM caps[i]?

/-- `array.set $CapArr`. -/
def setCap (i : ℕ) (v : ℤ) : PatM Unit := do
  let caps ← get
  let caps ← trapM (setAt caps i v)
  set caps

/-- `(`. -/
def matchOpen (next : Next) (pat : List UInt8) (spos ppos ncaps : ℕ) : PatM Found := do
  let b2 ← if ppos + 1 < pat.length then trapM pat[ppos + 1]? else pure 0
  setCap (2 * ncaps) spos
  if b2 = chr ')' then do
    setCap (2 * ncaps + 1) (-2)
    next spos (ppos + 2) (ncaps + 1)
  else do
    setCap (2 * ncaps + 1) (-1)
    next spos (ppos + 1) (ncaps + 1)

/-- The last open capture below an index. -/
def findOpen : ℕ → PatM (Option ℕ)
  | 0 => pure none
  | idx + 1 => do
    let len ← capAt (2 * idx + 1)
    if len = -1 then pure (some idx) else findOpen idx

/-- `)`. -/
def matchClose (next : Next) (spos ppos ncaps : ℕ) : PatM Found := do
  let idx ← findOpen ncaps
  match idx with
  | none => pure none
  | some idx => do
    let start ← capAt (2 * idx)
    setCap (2 * idx + 1) (spos - start)
    let r ← next spos (ppos + 1) ncaps
    match r with
    | some r => pure (some r)
    | none => do
      setCap (2 * idx + 1) (-1)
      pure none

/-- `array.get_u` of the subject at an index that may be negative. -/
def byteAt (sub : List UInt8) (i : ℤ) : PatM UInt8 := if i < 0 then throw .stuck else trapM sub[i.toNat]?

/-- The loop that compares a back-reference. -/
def sameBytes (sub : List UInt8) (spos : ℕ) (start : ℤ) : ℕ → ℕ → PatM Bool
  | 0, _ => pure true
  | todo + 1, k => do
    let b ← byteAt sub (spos + k)
    let c ← byteAt sub (start + k)
    if b ≠ c then pure false else sameBytes sub spos start todo (k + 1)

/-- `%1` to `%9`. -/
def matchBackref (next : Next) (sub : List UInt8) (idx spos ppos ncaps : ℕ) : PatM Found :=
  if ncaps ≤ idx then pure none
  else do
    let start ← capAt (2 * idx)
    let len ← capAt (2 * idx + 1)
    if len < 0 then pure none
    else if spos + len > sub.length then pure none
    else do
      let same ← sameBytes sub spos start len.toNat 0
      if same then next (spos + len.toNat) (ppos + 2) ncaps else pure none

/-- The loop of `%b`: the index of the delimiter that closes. -/
def balanceFrom (sub : List UInt8) (x y : UInt8) : ℕ → ℕ → ℕ → PatM (Option ℕ)
  | 0, _, _ => throw .stuck
  | fuel + 1, k, depth =>
    if sub.length ≤ k then pure none
    else do
      let b ← trapM sub[k]?
      let depth := if b = x then depth + 1 else depth
      if b = y then
        if depth - 1 = 0 then pure (some k) else balanceFrom sub x y fuel (k + 1) (depth - 1)
      else balanceFrom sub x y fuel (k + 1) depth

/-- `%b`. -/
def matchBalance (next : Next) (sub pat : List UInt8) (spos ppos ncaps : ℕ) : PatM Found :=
  if ppos + 4 > pat.length then pure none
  else do
    let x ← trapM pat[ppos + 2]?
    let y ← trapM pat[ppos + 3]?
    if sub.length ≤ spos then pure none
    else do
      let b ← trapM sub[spos]?
      if b ≠ x then pure none
      else do
        let k ← balanceFrom sub x y (sub.length + 1) (spos + 1) 1
        match k with
        | none => pure none
        | some k => next (k + 1) (ppos + 4) ncaps

/-- `%f`. -/
def matchFrontier (next : Next) (sub pat : List UInt8) (spos ppos ncaps : ℕ) : PatM Found :=
  if pat.length ≤ ppos + 2 then pure none
  else do
    let b ← trapM pat[ppos + 2]?
    if b ≠ chr '[' then pure none
    else do
      let stop ← itemEnd pat (ppos + 2)
      let prev ← if 0 < spos then trapM sub[spos - 1]? else pure 0
      let cur ← if spos < sub.length then trapM sub[spos]? else pure 0
      let before ← matchSet prev pat (ppos + 2)
      if before then pure none
      else do
        let here ← matchSet cur pat (ppos + 2)
        if here then next spos stop ncaps else pure none

/-- `?`. -/
def matchOpt (next : Next) (sub pat : List UInt8) (nextPpos spos ppos ncaps : ℕ) : PatM Found := do
  let r ← if spos < sub.length then do
      let b ← trapM sub[spos]?
      let hit ← matchOneItem b pat ppos
      if hit then next (spos + 1) nextPpos ncaps else pure none
    else pure none
  match r with
  | some r => pure (some r)
  | none => next spos nextPpos ncaps

/-- The loop of `-`. -/
def matchLazy (next : Next) (sub pat : List UInt8) (nextPpos spos ppos ncaps : ℕ) : ℕ → ℕ → PatM Found
  | 0, _ => throw .stuck
  | fuel + 1, k => do
    let r ← next (spos + k) nextPpos ncaps
    match r with
    | some r => pure (some r)
    | none =>
      if sub.length ≤ spos + k then pure none
      else do
        let b ← trapM sub[spos + k]?
        let hit ← matchOneItem b pat ppos
        if hit then matchLazy next sub pat nextPpos spos ppos ncaps fuel (k + 1) else pure none

/-- The loop of `*` and `+` that counts. -/
def countItem (sub pat : List UInt8) (spos ppos : ℕ) : ℕ → ℕ → PatM ℕ
  | 0, _ => throw .stuck
  | fuel + 1, k =>
    if sub.length ≤ spos + k then pure k
    else do
      let b ← trapM sub[spos + k]?
      let hit ← matchOneItem b pat ppos
      if hit then countItem sub pat spos ppos fuel (k + 1) else pure k

/-- The loop of `*` and `+` that gives back. -/
def matchBackoff (next : Next) (nextPpos spos ncaps minK : ℕ) : ℕ → PatM Found
  | 0 => next spos nextPpos ncaps
  | k + 1 => do
    let r ← next (spos + (k + 1)) nextPpos ncaps
    match r with
    | some r => pure (some r)
    | none => if k + 1 ≤ minK then pure none else matchBackoff next nextPpos spos ncaps minK k

/-- `*` and `+`. -/
def matchGreedy (next : Next) (sub pat : List UInt8) (nextPpos spos ppos ncaps minK : ℕ) : PatM Found := do
  let k ← countItem sub pat spos ppos (sub.length + 1) 0
  if k < minK then pure none else matchBackoff next nextPpos spos ncaps minK k

/-- An item without a quantifier. -/
def matchOnce (next : Next) (sub pat : List UInt8) (nextPpos spos ppos ncaps : ℕ) : PatM Found :=
  if sub.length ≤ spos then pure none
  else do
    let b ← trapM sub[spos]?
    let hit ← matchOneItem b pat ppos
    if hit then next (spos + 1) nextPpos ncaps else pure none

/-- The quantifier at a position, if there is one. -/
def quantAt (pat : List UInt8) (ppos : ℕ) : PatM (Option UInt8) :=
  if ppos < pat.length then do
    let b ← trapM pat[ppos]?
    pure (if b = chr '*' ∨ b = chr '+' ∨ b = chr '-' ∨ b = chr '?' then some b else none)
  else pure none

/-- An item that matches one byte, with its quantifier. -/
def matchItem (next : Next) (sub pat : List UInt8) (spos ppos ncaps : ℕ) : PatM Found := do
  let stop ← itemEnd pat ppos
  let quant ← quantAt pat stop
  match quant with
  | none => matchOnce next sub pat stop spos ppos ncaps
  | some q =>
    if q = chr '?' then matchOpt next sub pat (stop + 1) spos ppos ncaps
    else if q = chr '-' then matchLazy next sub pat (stop + 1) spos ppos ncaps (sub.length + 1) 0
    else matchGreedy next sub pat (stop + 1) spos ppos ncaps (if q = chr '+' then 1 else 0)

/-- `$match_pat`. -/
def matchPat (sub pat : List UInt8) : ℕ → Next
  | 0, _, _, _ => throw .stuck
  | fuel + 1, spos, ppos, ncaps =>
    let next := matchPat sub pat fuel
    if pat.length ≤ ppos then pure (some (spos, ncaps))
    else do
      let b ← trapM pat[ppos]?
      if b = chr '$' ∧ ppos + 1 = pat.length then
        pure (if spos = sub.length then some (spos, ncaps) else none)
      else if b = chr '(' then matchOpen next pat spos ppos ncaps
      else if b = chr ')' then matchClose next spos ppos ncaps
      else if b = chr '%' ∧ ppos + 1 < pat.length then do
        let b2 ← trapM pat[ppos + 1]?
        if 49 ≤ b2 ∧ b2 ≤ 57 then matchBackref next sub (b2.toNat - 49) spos ppos ncaps
        else if b2 = chr 'b' then matchBalance next sub pat spos ppos ncaps
        else if b2 = chr 'f' then matchFrontier next sub pat spos ppos ncaps
        else matchItem next sub pat spos ppos ncaps
      else matchItem next sub pat spos ppos ncaps

end Lua2wasm.Pattern
