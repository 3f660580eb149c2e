import Lua2wasm.Pattern.Matcher
import Lua2wasm.Pack.Interp
import Lua2wasm.Strings.Digits

/-!
# `string.find`, `string.match`, `string.gmatch` and `string.gsub`

The functions of `runtime/prelude/patterns.wat` that call the matcher, from where their arguments have been
coerced: the subject and the pattern are bytes, and positions and limits integers. Each starts the matcher at
one position after the other, and makes values of the captures.

The table or the function that `string.gsub` may be given is a parameter (`Repl`), which is told how many
matches came before: it may answer in another way each time.
-/

namespace Lua2wasm.Pattern

open Table (Fault)
open Pack (chr orTrap raise u32 s32 takeBytes)
open Strings (decimal)

/-- A result. -/
inductive PatVal
  /-- `nil`. -/
  | nil
  /-- An integer. -/
  | int (v : ℤ)
  /-- A string. -/
  | str (x : List UInt8)
  deriving DecidableEq, Repr

/-- `i32.wrap_i64`, as a signed number. -/
def wrap32 (v : Int64) : ℤ := s32 (u32 v.toUInt64.toNat)

/-- `$pat_anchor_start`. -/
def patAnchorStart (pat : List UInt8) : ℕ := if pat.head? = some (chr '^') then 1 else 0

/-- `$norm_str_init`. -/
def normStrInit (init : ℤ) (n : ℕ) : ℤ :=
  let init := if init < 0 then n + (init + 1) else init
  if init < 1 then 1 else init

/-- A call of `$match_pat` from outside. -/
def startMatch (sub pat : List UInt8) (ppos sp : ℕ) (caps : List ℤ) : Except Fault (Found × List ℤ) :=
  (matchPat sub pat (pat.length + 1) sp ppos 0).run caps

/-- `$str_from_range`. -/
def strFromRange (src : List UInt8) (start len : ℤ) : Except Fault (List UInt8) :=
  if start < 0 ∨ len < 0 then .error .stuck else takeBytes src start.toNat len.toNat

/-- `$cap_to_value`. -/
def capToValue (sub : List UInt8) (caps : List ℤ) (idx : ℕ) : Except Fault PatVal := do
  let start ← orTrap caps[2 * idx]?
  let len ← orTrap caps[2 * idx + 1]?
  if len = -2 then pure (.int (start + 1))
  else do
    let x ← strFromRange sub start len
    pure (.str x)

/-- The values of the captures from `i` on. -/
def capValues (sub : List UInt8) (caps : List ℤ) : ℕ → ℕ → Except Fault (List PatVal)
  | 0, _ => pure []
  | todo + 1, i => do
    let v ← capToValue sub caps i
    let vs ← capValues sub caps todo (i + 1)
    pure (v :: vs)

/-- The values of a match: its captures, or the whole of it. -/
def matchValues (sub : List UInt8) (caps : List ℤ) (sp stop ncaps : ℕ) : Except Fault (List PatVal) :=
  if ncaps = 0 then do
    let x ← strFromRange sub sp (stop - sp)
    pure [.str x]
  else capValues sub caps ncaps 0

/-! ## `find` and `match` -/

/-- The loop that starts the matcher: where the match starts, and its end and captures. -/
def searchFrom (sub pat : List UInt8) (ppos : ℕ) (anchored : Bool) :
    ℕ → ℕ → List ℤ → Except Fault (Option (ℕ × ℕ × ℕ) × List ℤ)
  | 0, _, _ => .error .stuck
  | fuel + 1, sp, caps => do
    let (r, caps) ← startMatch sub pat ppos sp caps
    match r with
    | some (stop, ncaps) => pure (some (sp, stop, ncaps), caps)
    | none =>
      if anchored then pure (none, caps)
      else if sub.length < sp + 1 then pure (none, caps)
      else searchFrom sub pat ppos anchored fuel (sp + 1) caps

/-- The array of the captures at the start. -/
def newCaps : List ℤ := List.replicate 64 0

/-- The search of `string.find` and `string.match` from a position. -/
def search (sub pat : List UInt8) (sp : ℕ) : Except Fault (Option (ℕ × ℕ × ℕ) × List ℤ) :=
  searchFrom sub pat (patAnchorStart pat) (patAnchorStart pat = 1) (sub.length + 1) sp newCaps

/-- The loop of `$plain_find` over the bytes of the needle. -/
def plainEqFrom (hay needle : List UInt8) (sp : ℕ) : ℕ → ℕ → Except Fault Bool
  | 0, _ => pure true
  | todo + 1, k => do
    let a ← orTrap hay[sp + k]?
    let b ← orTrap needle[k]?
    if a ≠ b then pure false else plainEqFrom hay needle sp todo (k + 1)

/-- The loop of `$plain_find`. -/
def plainFindFrom (hay needle : List UInt8) : ℕ → ℕ → Except Fault (Option ℕ)
  | 0, _ => .error .stuck
  | fuel + 1, sp =>
    if sp + needle.length > hay.length then pure none
    else do
      let same ← plainEqFrom hay needle sp needle.length 0
      if same then pure (some (sp + needle.length)) else plainFindFrom hay needle fuel (sp + 1)

/-- `$plain_find`. -/
def plainFind (hay : List UInt8) (start : ℕ) (needle : List UInt8) : Except Fault (Option ℕ) :=
  if needle.length = 0 then pure (some start) else plainFindFrom hay needle (hay.length + 1) start

/-- The position that `string.find` and `string.match` start at, if it is not beyond the subject. -/
def startPos (sub : List UInt8) (init : Option Int64) : Option ℕ :=
  let init := normStrInit (match init with
    | none => 1
    | some v => wrap32 v) sub.length
  if init > sub.length + 1 then none else some (init - 1).toNat

/-- `string.find`. -/
def find (sub pat : List UInt8) (init : Option Int64) (plain : Bool) : Except Fault (List PatVal) :=
  match startPos sub init with
  | none => pure [.nil]
  | some sp =>
    if plain then do
      let r ← plainFind sub sp pat
      match r with
      | none => pure [.nil]
      | some stop => pure [.int ((stop : ℤ) - pat.length + 1), .int stop]
    else do
      let (r, caps) ← search sub pat sp
      match r with
      | none => pure [.nil]
      | some (sp, stop, ncaps) => do
        let vs ← capValues sub caps ncaps 0
        pure (.int (sp + 1) :: .int stop :: vs)

/-- `string.match`. -/
def matchStr (sub pat : List UInt8) (init : Option Int64) : Except Fault (List PatVal) :=
  match startPos sub init with
  | none => pure [.nil]
  | some sp => do
    let (r, caps) ← search sub pat sp
    match r with
    | none => pure [.nil]
    | some (sp, stop, ncaps) => matchValues sub caps sp stop ncaps

/-! ## `gmatch` -/

/-- The upvalues of an iterator that change. -/
structure GmatchState where
  /-- `src`. -/
  src : ℕ
  /-- `lastmatch`. -/
  lastmatch : ℤ
  /-- `caps`. -/
  caps : List ℤ
  deriving DecidableEq, Repr

/-- `string.gmatch`: the iterator at the start. -/
def gmatch (init : Option Int64) : GmatchState where
  src := (max (match init with
    | none => 1
    | some v => wrap32 v) 1 - 1).toNat
  lastmatch := -1
  caps := newCaps

/-- The loop of `$gmatch_next`. -/
def gmatchNextFrom (sub pat : List UInt8) (lastmatch : ℤ) :
    ℕ → ℕ → List ℤ → Except Fault (Option (ℕ × ℕ × ℕ) × List ℤ)
  | 0, _, _ => .error .stuck
  | fuel + 1, sp, caps =>
    if sp > sub.length then pure (none, caps)
    else do
      let (r, caps) ← startMatch sub pat 0 sp caps
      match r with
      | some (stop, ncaps) =>
        if stop ≠ lastmatch then pure (some (sp, stop, ncaps), caps)
        else gmatchNextFrom sub pat lastmatch fuel (sp + 1) caps
      | none => gmatchNextFrom sub pat lastmatch fuel (sp + 1) caps

/-- `$gmatch_next`. -/
def gmatchNext (sub pat : List UInt8) (st : GmatchState) :
    Except Fault (Option (ℕ × ℕ × ℕ) × GmatchState) := do
  let (r, caps) ← gmatchNextFrom sub pat st.lastmatch (sub.length + 2) st.src st.caps
  match r with
  | some (sp, stop, ncaps) => pure (some (sp, stop, ncaps), ⟨stop, stop, caps⟩)
  | none => pure (none, { st with caps })

/-- `$builtin_string_gmatch_iter`: no values at the end. -/
def gmatchIter (sub pat : List UInt8) (st : GmatchState) : Except Fault (List PatVal × GmatchState) := do
  let (r, st) ← gmatchNext sub pat st
  match r with
  | none => pure ([], st)
  | some (sp, stop, ncaps) => do
    let vs ← matchValues sub st.caps sp stop ncaps
    pure (vs, st)

/-- `$builtin_string_gmatch_iter_f`: the first value only. -/
def gmatchIterF (sub pat : List UInt8) (st : GmatchState) : Except Fault (PatVal × GmatchState) := do
  let (r, st) ← gmatchNext sub pat st
  match r with
  | none => pure (.nil, st)
  | some (sp, stop, ncaps) =>
    if ncaps = 0 then do
      let x ← strFromRange sub sp (stop - sp)
      pure (.str x, st)
    else do
      let v ← capToValue sub st.caps 0
      pure (v, st)

/-! ## `gsub` -/

/-- What a table or a function gives for a match. -/
inductive ReplVal
  /-- `nil` or `false`. -/
  | keep
  /-- A string, or a number as its string. -/
  | text (x : List UInt8)
  /-- Another value. -/
  | other
  deriving DecidableEq, Repr

/-- The replacement. -/
inductive Repl
  /-- A string, or a number as its string. -/
  | str (x : List UInt8)
  /-- A table, as `$tab_get` of it: a value, or the message of an error. -/
  | table (get : ℕ → PatVal → Except String ReplVal)
  /-- A function, as the first result of a call, or the message of an error. -/
  | fn (call : ℕ → List PatVal → Except String ReplVal)

/-- The value of a call that raises its error. -/
def orRaise {α : Type} : Except String α → Except Fault α
  | .error msg => raise msg
  | .ok a => .ok a

/-- `$builder_append`. -/
def appendRange (b src : List UInt8) (start len : ℤ) : Except Fault (List UInt8) :=
  if len ≤ 0 then pure b
  else do
    let x ← strFromRange src start len
    Pack.builderAppend b x

/-- `$builder_append_cap`. -/
def appendCap (b sub : List UInt8) (caps : List ℤ) (idx : ℕ) : Except Fault (List UInt8) := do
  let start ← orTrap caps[2 * idx]?
  let len ← orTrap caps[2 * idx + 1]?
  if len = -2 then Pack.builderAppend b (decimal (start + 1)) else appendRange b sub start len

/-- The loop of `$apply_repl_string`. -/
def applyReplFrom (repl sub : List UInt8) (caps : List ℤ) (ncaps sp stop : ℕ) :
    ℕ → ℕ → List UInt8 → Except Fault (List UInt8)
  | 0, _, _ => .error .stuck
  | fuel + 1, i, b =>
    if repl.length ≤ i then pure b
    else do
      let ch ← orTrap repl[i]?
      if ch = chr '%' then
        if repl.length ≤ i + 1 then pure b
        else do
          let d ← orTrap repl[i + 1]?
          if d = chr '%' then do
            let b ← Pack.builderAppend b [chr '%']
            applyReplFrom repl sub caps ncaps sp stop fuel (i + 2) b
          else if 48 ≤ d ∧ d ≤ 57 then do
            let idx := d.toNat - 48
            let b ←
              if idx = 0 then appendRange b sub sp (stop - sp)
              else if idx > ncaps then
                if ncaps = 0 ∧ idx = 1 then appendRange b sub sp (stop - sp)
                else raise "invalid replacement value"
              else appendCap b sub caps (idx - 1)
            applyReplFrom repl sub caps ncaps sp stop fuel (i + 2) b
          else do
            let b ← Pack.builderAppend b [d]
            applyReplFrom repl sub caps ncaps sp stop fuel (i + 2) b
      else do
        let b ← Pack.builderAppend b [ch]
        applyReplFrom repl sub caps ncaps sp stop fuel (i + 1) b

/-- `$append_repl_result`. -/
def appendReplResult (b : List UInt8) (v : ReplVal) (sub : List UInt8) (sp stop : ℕ) : Except Fault (List UInt8) :=
  match v with
  | .keep => appendRange b sub sp (stop - sp)
  | .text x => Pack.builderAppend b x
  | .other => raise "invalid replacement value"

/-- The replacement of a match, of which `count` have been replaced before. -/
def applyRepl (repl : Repl) (sub b : List UInt8) (caps : List ℤ) (count ncaps sp stop : ℕ) :
    Except Fault (List UInt8) :=
  match repl with
  | .str x => applyReplFrom x sub caps ncaps sp stop (x.length + 1) 0 b
  | .table get => do
    let key ←
      if ncaps = 0 then do
        let x ← strFromRange sub sp (stop - sp)
        pure (.str x)
      else capToValue sub caps 0
    let v ← orRaise (get count key)
    appendReplResult b v sub sp stop
  | .fn call => do
    let vs ← matchValues sub caps sp stop ncaps
    let v ← orRaise (call count vs)
    appendReplResult b v sub sp stop

/-- The registers of `string.gsub`. -/
structure GsubState where
  /-- `$sp`. -/
  sp : ℕ
  /-- `$count`. -/
  count : ℕ
  /-- `$last_end`. -/
  lastEnd : ℕ
  /-- `$last_match`. -/
  lastMatch : ℤ
  /-- `$b`. -/
  b : List UInt8
  /-- `$caps`. -/
  caps : List ℤ
  deriving DecidableEq, Repr

/-- The registers of `string.gsub` at the start. -/
def GsubState.start : GsubState where
  sp := 0
  count := 0
  lastEnd := 0
  lastMatch := -1
  b := []
  caps := newCaps

/-- The loop of `string.gsub`. -/
def gsubFrom (sub pat : List UInt8) (repl : Repl) (limit : ℤ) : ℕ → GsubState → Except Fault GsubState
  | 0, _ => .error .stuck
  | fuel + 1, st =>
    if (st.count : ℤ) ≥ limit then pure st
    else if st.sp > sub.length then pure st
    else do
      let (r, caps) ← startMatch sub pat (patAnchorStart pat) st.sp st.caps
      let anchored : Bool := patAnchorStart pat = 1
      let skip := { st with sp := st.sp + 1, caps }
      match r with
      | none => if anchored then pure { st with caps } else gsubFrom sub pat repl limit fuel skip
      | some (stop, ncaps) =>
        if stop = st.sp ∧ (st.sp : ℤ) = st.lastMatch then
          if anchored then pure { st with caps } else gsubFrom sub pat repl limit fuel skip
        else do
          let b ← appendRange st.b sub st.lastEnd (st.sp - st.lastEnd)
          let b ← applyRepl repl sub b caps st.count ncaps st.sp stop
          -- an empty match keeps the byte that is there
          let b ← if stop = st.sp ∧ st.sp < sub.length then do
              let c ← orTrap sub[st.sp]?
              Pack.builderAppend b [c]
            else pure b
          let sp := if stop = st.sp then st.sp + 1 else stop
          let st := ⟨sp, st.count + 1, sp, stop, b, caps⟩
          if anchored then pure st else gsubFrom sub pat repl limit fuel st

/-- The limit of the number of matches. -/
def gsubLimit : Option Int64 → ℤ
  | none => 2147483647
  | some v => wrap32 v

/-- `string.gsub`: the result and the number of matches. -/
def gsub (sub pat : List UInt8) (repl : Repl) (limit : Option Int64) : Except Fault (List PatVal) := do
  let st ← gsubFrom sub pat repl (gsubLimit limit) (sub.length + 2) GsubState.start
  if st.count = 0 then pure [.str sub, .int 0]
  else do
    let b ← appendRange st.b sub st.lastEnd (sub.length - st.lastEnd)
    pure [.str b, .int st.count]

end Lua2wasm.Pattern
