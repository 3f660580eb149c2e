import Lua2wasm.Arith.Div
import Lua2wasm.Arith.Order
import Lua2wasm.Arith.Rounded

/-!
# The numeric `for`

The two lowerings of the loop in `src/codegen/stmt.c`, with `$for_limit`, `$for_prep` and `$for_overflowed` of
`runtime/prelude/control.wat`. The unboxed one counts in 64 bits and tests before the body; the boxed one carries
boxed numbers and tests behind it. The body is a function of the control variable and a state; it may leave the loop.

With integers for start and step both run the body for `start + k * step` as long as that is an integer of 64 bits
that has not passed the limit (`IsCount`), and end. `forLoop_like_lua` adds the errors: they are those of Lua's
`forprep`, except that the type of a table with a `__name` is not called by it.
-/

namespace Lua2wasm.Control

open Table (Fault Val)
open Arith (intValue two63 minusTwo63)
open F64 (Extended)

/-! ## The runtime's part -/

/-- `$host_parse_num` without a base. -/
abbrev ParseNum := List UInt8 → Option Arith.Num

/-- `$coerce_num`. -/
def coerceNum (parse : ParseNum) : Val → Option Arith.Num
  | .int i => some (.int i)
  | .float f => some (.float f)
  | .str _ bytes => parse bytes
  | _ => none

/-- `$basic_type_bytes`. -/
def basicTypeBytes : Val → String
  | .nil => "nil"
  | .bool _ => "boolean"
  | .int _ => "number"
  | .float _ => "number"
  | .str _ _ => "string"
  | .table _ => "table"
  | .other _ => "function"

/-- The text about a value that is refused, with the name of its type. -/
def badFor (what type : String) : String := "bad 'for' " ++ what ++ " (number expected, got " ++ type ++ ")"

/-- `$for_error`. The position in front of the text is left out. -/
def forError (what : String) (v : Val) : Fault := .raised (badFor what (basicTypeBytes v))

/-- The error about a step of zero. -/
def stepIsZero : Fault := .raised "'for' step is zero"

/-- `f64.const 0`. -/
def zero : F64 := ⟨0⟩

/-- `f64.convert_i64_s`. -/
def convertI64 (i : Int64) : F64 := F64.rounded (i.toInt < 0) i.toInt.natAbs

/-- `$as_float`, of a number. -/
def asFloat : Arith.Num → F64
  | .int i => convertI64 i
  | .float f => f

/-- An integer has passed the limit. -/
def passed (step i p : Int64) : Bool := if 0 < step then p < i else i < p

/-- `$for_limit`: the limit, and whether the loop is skipped. -/
def forLimit (parse : ParseNum) (lim : Val) (init step : Int64) : Except Fault (Int64 × Bool) :=
  match coerceNum parse lim with
  | none => .error (forError "limit" lim)
  | some (.int p) => .ok (p, passed step init p)
  | some (.float f) =>
    let f := if step < 0 then f.ceil else f.floor
    if f.ge minusTwo63 && f.lt two63 then do
      let p ← f.truncI64
      return (p, passed step init p)
    else if zero.lt f then
      if step < 0 then .ok (0, true) else .ok (Int64.maxValue, passed step init Int64.maxValue)
    else
      if 0 < step then .ok (0, true) else .ok (Int64.minValue, passed step init Int64.minValue)

/-- A value of the loop as a number, or the error about it. -/
def numberOr (parse : ParseNum) (what : String) (v : Val) : Except Fault Arith.Num :=
  match coerceNum parse v with
  | none => .error (forError what v)
  | some c => .ok c

/-- `$for_prep`: start, limit and step as the loop uses them, and whether it is skipped. -/
def forPrep (parse : ParseNum) (init lim step : Val) : Except Fault (Arith.Num × Arith.Num × Arith.Num × Bool) :=
  match init, step with
  | .int i, .int s => do
    if s = 0 then throw stepIsZero
    let (p, skip) ← forLimit parse lim i s
    return (.int i, .int p, .int s, skip)
  | _, _ => do
    let fl := asFloat (← numberOr parse "limit" lim)
    let fs := asFloat (← numberOr parse "step" step)
    let fi := asFloat (← numberOr parse "initial value" init)
    if fs.eq zero then throw stepIsZero
    return (.float fi, .float fl, .float fs, if zero.lt fs then fl.lt fi else fi.lt fl)

/-- `$for_overflowed`. -/
def forOverflowed : Arith.Num → Arith.Num → Arith.Num → Bool
  | .int i, .int step, .int next => if 0 < step then next < i else i < next
  | _, _, _ => false

/-- `$for_step_positive`. -/
def forStepPositive : Arith.Num → Bool
  | .int s => 0 ≤ s
  | .float f => f.ge zero

/-- `$lua_add`, of numbers. `add` is `f64.add`. -/
def luaAdd (add : F64 → F64 → F64) : Arith.Num → Arith.Num → Arith.Num
  | .int a, .int b => .int (a + b)
  | a, b => .float (add (asFloat a) (asFloat b))

/-! ## The two lowerings -/

section

variable {σ ε : Type*}

/-- The step of an unboxed loop: there is none, it is a constant of the source, or it is computed. -/
inductive IntStep
  | omitted
  | constant (v : Int64)
  | computed (v : Int64)

/-- The step as a number. -/
def IntStep.value : IntStep → Int64
  | .omitted => 1
  | .constant v => v
  | .computed v => v

/-- `sign` of `emit_for_num_int`, with 0 for a step that is tested at run time. -/
def IntStep.sign : IntStep → ℤ
  | .omitted => 1
  | .constant v => if v ≠ 0 then (if 0 < v then 1 else -1) else 0
  | .computed _ => 0

/-- `emit_int_for_exit`. -/
def intForExit (sign : ℤ) (step : Int64) (asc desc : Int64 → Int64 → Bool) (a b : Int64) : Bool :=
  if sign ≠ 0 then (if 0 < sign then asc a b else desc a b) else if 0 < step then asc a b else desc a b

/-- The loop of `emit_for_num_int`. -/
def intLoop (sign : ℤ) (step stop : Int64) (body : Arith.Num → σ → Except (Fault ⊕ ε) σ) :
    ℕ → Int64 → σ → Option (Except (Fault ⊕ ε) σ)
  | 0, _, _ => none
  | fuel + 1, i, s =>
    if intForExit sign step (fun a b => b < a) (fun a b => a < b) i stop then some (.ok s)
    else match body (.int i) s with
    | .error e => some (.error e)
    | .ok s =>
      let next := i + step
      if intForExit sign step (fun a b => a < b) (fun a b => b < a) next i then some (.ok s)
      else intLoop sign step stop body fuel next s

/-- `emit_for_num_int`. The limit is an integer statically or any value. -/
def forNumInt (parse : ParseNum) (body : Arith.Num → σ → Except (Fault ⊕ ε) σ) (start : Int64)
    (stop : Int64 ⊕ Val) (step : IntStep) (s : σ) (fuel : ℕ) : Option (Except (Fault ⊕ ε) σ) :=
  if step.sign = 0 ∧ step.value = 0 then some (.error (.inl stepIsZero))
  else match stop with
  | .inl p => intLoop step.sign step.value p body fuel start s
  | .inr lim =>
    match forLimit parse lim start step.value with
    | .error e => some (.error (.inl e))
    | .ok (p, skip) => if skip then some (.ok s) else intLoop step.sign step.value p body fuel start s

/-- The loop of `emit_for_num_boxed`. -/
def numLoop (add : F64 → F64 → F64) (step stop : Arith.Num) (body : Arith.Num → σ → Except (Fault ⊕ ε) σ) :
    ℕ → Arith.Num → σ → Option (Except (Fault ⊕ ε) σ)
  | 0, _, _ => none
  | fuel + 1, i, s =>
    match body i s with
    | .error e => some (.error e)
    | .ok s =>
      let next := luaAdd add i step
      if forOverflowed i step next then some (.ok s)
      else match (if forStepPositive step then Arith.numLe next stop else Arith.numLe stop next) with
      | .error e => some (.error (.inl e))
      | .ok within => if within then numLoop add step stop body fuel next s else some (.ok s)

/-- `emit_for_num_boxed`. -/
def forNumBoxed (parse : ParseNum) (add : F64 → F64 → F64)
    (body : Arith.Num → σ → Except (Fault ⊕ ε) σ) (start stop step : Val) (s : σ) (fuel : ℕ) :
    Option (Except (Fault ⊕ ε) σ) :=
  match forPrep parse start stop step with
  | .error e => some (.error (.inl e))
  | .ok (i, p, st, skip) => if skip then some (.ok s) else numLoop add st p body fuel i s

/-! ## What Lua says -/

/-- An integer of 64 bits. -/
def InI64 (z : ℤ) : Prop := -2^63 ≤ z ∧ z < 2^63

/-- An integer as a number of the line that the limits are on. -/
def onLine (z : ℤ) : Extended := ((z : ℚ) : WithTop ℚ)

/-- What a number limits. A NaN counts as less than all others. -/
def limitValue (c : Arith.Num) : Extended := c.value.getD ⊥

/-- An exact value has passed the limit. -/
def Passes (step : ℤ) (lim : Extended) (z : ℤ) : Prop := if 0 < step then lim < onLine z else onLine z < lim

/-- The loop runs `n` times: just the first `n` of the values `start + k * step` are integers of 64 bits that have not
passed the limit. -/
def IsCount (start step : ℤ) (lim : Extended) (n : ℕ) : Prop :=
  ∀ k : ℕ, k < n ↔ InI64 (start + k * step) ∧ ¬Passes step lim (start + k * step)

/-- The body for the values from the `k`-th on, `m` of them. -/
def runs (body : Arith.Num → σ → Except (Fault ⊕ ε) σ) (start step : ℤ) (k m : ℕ) (s : σ) : Except (Fault ⊕ ε) σ :=
  (List.range' k m).foldlM (fun s (j : ℕ) => body (.int (Int64.ofInt (start + j * step))) s) s

/-- The value that Lua's `forprep` refuses, with what it is: the first that is no number. A step of zero in an integer
loop is found before that. -/
def refused (parse : ParseNum) (init lim step : Val) : Option (String × Val) :=
  match init, step with
  | .int _, .int s => if s = 0 then none else if coerceNum parse lim = none then some ("limit", lim) else none
  | _, _ =>
    if coerceNum parse lim = none then some ("limit", lim)
    else if coerceNum parse step = none then some ("step", step)
    else if coerceNum parse init = none then some ("initial value", init)
    else none

/-- The step is a number and zero, for an integer loop or a float loop. -/
def zeroStep (parse : ParseNum) (init step : Val) : Bool :=
  match init, step with
  | .int _, .int s => s = 0
  | _, _ => (coerceNum parse step).any fun c => (asFloat c).eq zero

/-- `luaT_objtypename`, where `names` has the `__name` of a table's metatable if it is a string. -/
def luaTypename (names : ℕ → Option String) : Val → String
  | .table obj => (names obj).getD "table"
  | v => basicTypeBytes v

/-- The error that Lua's `forprep` raises, if it does. -/
def luaForError (parse : ParseNum) (names : ℕ → Option String) (init lim step : Val) : Option String :=
  match refused parse init lim step with
  | some (what, v) => some (badFor what (luaTypename names v))
  | none => if zeroStep parse init step then some "'for' step is zero" else none

/-- A loop raises the errors of Lua, and with integers for start and step it runs the body for the exact values of the
control variable and ends. -/
def LikeLua (parse : ParseNum) (names : ℕ → Option String) (body : Arith.Num → σ → Except (Fault ⊕ ε) σ)
    (init lim step : Val) (s : σ) (loop : ℕ → Option (Except (Fault ⊕ ε) σ)) : Prop :=
  match luaForError parse names init lim step with
  | some msg => ∀ fuel, loop fuel = some (.error (.inl (.raised msg)))
  | none => ∀ i st c, init = .int i → step = .int st → coerceNum parse lim = some c →
    ∃ n, IsCount i.toInt st.toInt (limitValue c) n ∧
      ∀ fuel, n < fuel → loop fuel = some (runs body i.toInt st.toInt 0 n s)

/-- The value that is refused is no table that another name has been given to. -/
def NameKept (parse : ParseNum) (names : ℕ → Option String) (init lim step : Val) : Prop :=
  ∀ what obj name, refused parse init lim step = some (what, .table obj) → names obj = some name → name = "table"

/-! ## The limit -/

variable {parse : ParseNum} {names : ℕ → Option String} {body : Arith.Num → σ → Except (Fault ⊕ ε) σ} {s : σ}
  {init step a b p : Int64} {lim : Val} {c : Arith.Num} {f : F64} {L : Extended} {start st z w : ℤ} {n k : ℕ}

theorem onLine_lt : onLine z < onLine w ↔ z < w := by
  unfold onLine
  rw [Arith.cast_lt_iff, Int.cast_lt]

theorem inI64_toInt (i : Int64) : InI64 i.toInt := ⟨i.le_toInt, i.toInt_lt⟩

theorem toInt_ofInt (h : InI64 z) : (Int64.ofInt z).toInt = z := Int64.toInt_ofInt_of_le h.1 h.2

theorem step_pos_iff : 0 < step ↔ 0 < step.toInt := Int64.lt_iff_toInt_lt

theorem passed_iff : passed step a p = true ↔ Passes step.toInt (onLine p.toInt) a.toInt := by
  unfold passed Passes
  rw [onLine_lt, onLine_lt]
  split_ifs with h1 h2 h2
  · rw [decide_eq_true_iff, Int64.lt_iff_toInt_lt]
  · exact absurd (step_pos_iff.mp h1) h2
  · exact absurd (step_pos_iff.mpr h2) h1
  · rw [decide_eq_true_iff, Int64.lt_iff_toInt_lt]

/-- A double that is an integer of 64 bits passes the test of `$for_limit` and is that integer. -/
theorem trunc_inI64 (hf : f.expField ≠ 2047) (hv : f.finiteValue = z) (hz : InI64 z) :
    (f.ge minusTwo63 && f.lt two63) = true ∧ f.truncI64 = .ok (Int64.ofInt z) := by
  have hn := Arith.isNaN_of_finite hf
  have hvalue : f.value = onLine z := by
    rw [F64.value_of_finite hf, hv]
    rfl
  have hlo : minusTwo63.value = onLine (-2^63) := by
    rw [Arith.value_minusTwo63.2]
    norm_num [onLine]
  have hhi : two63.value = onLine (2^63) := by
    rw [Arith.value_two63.2]
    norm_num [onLine]
  refine ⟨?_, F64.truncI64_of_int hf hv hz.1 hz.2⟩
  unfold F64.ge F64.le F64.lt
  rw [hn, Arith.value_minusTwo63.1, Arith.value_two63.1, hvalue, hlo, hhi]
  simp only [Bool.not_false, Bool.true_and, Bool.and_eq_true, decide_eq_true_iff]
  exact ⟨not_lt.mp fun h => absurd (onLine_lt.mp h) (not_lt.mpr hz.1), onLine_lt.mpr hz.2⟩

/-- The double that a limit is rounded to: towards the start. -/
def towards (step : Int64) (f : F64) : F64 := if step < 0 then f.ceil else f.floor

/-- A limit in the range, rounded. -/
theorem towards_spec (hf : f.expField ≠ 2047) (hlo : -2^63 ≤ f.finiteValue) (hhi : f.finiteValue < 2^63)
    (hstep : step ≠ 0) : ∃ p : Int64, (towards step f).truncI64 = .ok p ∧
      ((towards step f).ge minusTwo63 && (towards step f).lt two63) = true ∧
      ∀ z, Passes step.toInt f.value z ↔ Passes step.toInt (onLine p.toInt) z := by
  have hzero := Arith.toInt_ne_zero hstep
  have hvalue := F64.value_of_finite hf
  unfold towards Passes
  rw [hvalue]
  by_cases hneg : step < 0
  · rw [if_pos hneg]
    have hneg' := (Arith.lt_zero_iff step).mp hneg
    obtain ⟨hexp, hceil⟩ := F64.ceil_spec hf
    obtain ⟨p, hp, htoInt⟩ := Arith.ceil_trunc hf hlo hhi
    have hin : InI64 ⌈f.finiteValue⌉ := htoInt ▸ inI64_toInt p
    refine ⟨p, hp, (trunc_inI64 hexp hceil hin).1, ?_⟩
    intro z
    rw [if_neg (by omega), if_neg (by omega), htoInt, onLine_lt, Int.lt_ceil]
    exact Arith.cast_lt_iff
  · rw [if_neg hneg]
    have hpos : 0 < step.toInt := by
      have : ¬step.toInt < 0 := fun h => hneg ((Arith.lt_zero_iff step).mpr h)
      omega
    obtain ⟨hexp, hfloor⟩ := F64.floor_spec hf
    obtain ⟨p, hp, htoInt⟩ := Arith.floor_trunc hf hlo hhi
    have hin : InI64 ⌊f.finiteValue⌋ := htoInt ▸ inI64_toInt p
    refine ⟨p, hp, (trunc_inI64 hexp hfloor hin).1, ?_⟩
    intro z
    rw [if_pos hpos, if_pos hpos, htoInt, onLine_lt, Int.floor_lt]
    exact Arith.cast_lt_iff

/-- A double that is beyond the integers of 64 bits has no fraction. -/
theorem towards_of_far (h : f.isNaN = true ∨ f.ge two63 = true ∨ f.lt minusTwo63 = true) : towards step f = f := by
  have hlarge : 1075 ≤ f.expField := by
    by_contra hsmall
    have hfin : f.expField ≠ 2047 := by omega
    have hn := Arith.isNaN_of_finite hfin
    have hmag := F64.magnitude_lt (not_le.mp hsmall)
    rw [← F64.abs_finiteValue, abs_lt] at hmag
    rw [hn, Arith.ge_two63_iff hn, Arith.lt_minusTwo63_iff hn, F64.value_of_finite hfin, Arith.cast_le_iff,
      Arith.cast_lt_iff] at h
    rcases h with h | h | h
    · exact absurd h (by simp)
    · linarith
    · linarith
  unfold towards F64.ceil F64.floor
  rw [if_pos hlarge, if_pos hlarge, ite_self]

theorem zero_lt_iff (hn : f.isNaN = false) : zero.lt f = true ↔ onLine 0 < f.value := by
  have hz : zero.isNaN = false := by decide
  have hv : zero.value = onLine 0 := by
    rw [F64.value_of_finite (by decide)]
    unfold F64.finiteValue
    rw [F64.isZero_iff_magnitude.mp (by decide), neg_zero, ite_self]
    rfl
  unfold F64.lt
  rw [hz, hn, hv, Bool.not_false, Bool.true_and, Bool.true_and, decide_eq_true_iff]

/-- The outcome of `$for_limit` settles a loop with the limit `L`: it is skipped if the start has passed the limit, and
otherwise the integer limits what `L` does. -/
def Settles (step init : Int64) (L : Extended) (r : Except Fault (Int64 × Bool)) : Prop :=
  ∃ p skip, r = .ok (p, skip) ∧ (skip = true ↔ Passes step.toInt L init.toInt) ∧
    (skip = false → ∀ z, InI64 z → (Passes step.toInt L z ↔ Passes step.toInt (onLine p.toInt) z))

theorem settles_of_iff (h : ∀ z, InI64 z → (Passes step.toInt L z ↔ Passes step.toInt (onLine p.toInt) z)) :
    Settles step init L (.ok (p, passed step init p)) := by
  refine ⟨p, passed step init p, rfl, ?_, fun _ => h⟩
  rw [passed_iff, h _ (inI64_toInt init)]

/-- A limit above all integers. -/
theorem settles_above (hL : ∀ i : Int64, onLine i.toInt < L) (hstep : step ≠ 0) : Settles step init L
    (if step < 0 then .ok (0, true) else .ok (Int64.maxValue, passed step init Int64.maxValue)) := by
  have hzero := Arith.toInt_ne_zero hstep
  have hneg := Arith.lt_zero_iff step
  have hmax : Int64.maxValue.toInt = 2^63 - 1 := by decide
  split_ifs with hs
  · refine ⟨0, true, rfl, ?_, fun h => absurd h (by decide)⟩
    unfold Passes
    rw [if_neg (by rw [hneg] at hs; omega)]
    exact iff_of_true rfl (hL init)
  · apply settles_of_iff
    intro z hz
    have hlt := toInt_ofInt hz ▸ hL (Int64.ofInt z)
    unfold Passes
    rw [if_pos (by rw [hneg] at hs; omega), if_pos (by rw [hneg] at hs; omega), onLine_lt, hmax]
    exact iff_of_false (not_lt.mpr hlt.le) (by have := hz.2; omega)

/-- A limit below all integers, or a NaN. -/
theorem settles_below (hL : ∀ i : Int64, L < onLine i.toInt) : Settles step init L
    (if 0 < step then .ok (0, true) else .ok (Int64.minValue, passed step init Int64.minValue)) := by
  have hmin : Int64.minValue.toInt = -2^63 := by decide
  split_ifs with hs
  · refine ⟨0, true, rfl, ?_, fun h => absurd h (by decide)⟩
    unfold Passes
    rw [if_pos (step_pos_iff.mp hs)]
    exact iff_of_true rfl (hL init)
  · apply settles_of_iff
    intro z hz
    have hlt := toInt_ofInt hz ▸ hL (Int64.ofInt z)
    unfold Passes
    rw [if_neg (by rwa [← step_pos_iff]), if_neg (by rwa [← step_pos_iff]), onLine_lt, hmin]
    exact iff_of_false (not_lt.mpr hlt.le) (by have := hz.1; omega)

/-- `$for_limit` on a float that is no NaN, by where it stands. -/
theorem settles_float (hn : f.isNaN = false) (hstep : step ≠ 0) (hc : coerceNum parse lim = some (.float f)) :
    Settles step init f.value (forLimit parse lim init step) := by
  have heq : forLimit parse lim init step =
      if (towards step f).ge minusTwo63 && (towards step f).lt two63 then do
        let p ← (towards step f).truncI64
        return (p, passed step init p)
      else if zero.lt (towards step f) then
        if step < 0 then .ok (0, true) else .ok (Int64.maxValue, passed step init Int64.maxValue)
      else
        if 0 < step then .ok (0, true) else .ok (Int64.minValue, passed step init Int64.minValue) := by
    unfold forLimit
    rw [hc]
    rfl
  rw [heq]
  rcases Arith.range_cases hn with ⟨hge, -, hv⟩ | ⟨-, hlt, hv⟩ | ⟨-, -, hf, hlo, hhi⟩
  · have hzlt : zero.lt f = true := (zero_lt_iff hn).mpr (hv 0)
    have hlt : f.lt two63 = false := by
      rw [Arith.ge_two63_iff hn] at hge
      unfold F64.lt
      rw [Arith.value_two63.2, decide_eq_false (not_lt.mpr hge), Bool.and_false]
    rw [towards_of_far (Or.inr (Or.inl hge)), hlt, Bool.and_false, hzlt]
    exact settles_above hv hstep
  · have hzlt : zero.lt f = false := by
      rw [Bool.eq_false_iff, Ne, zero_lt_iff hn]
      exact not_lt.mpr (hv 0).le
    have hge : f.ge minusTwo63 = false := by
      rw [Arith.lt_minusTwo63_iff hn] at hlt
      unfold F64.ge F64.le
      rw [Arith.value_minusTwo63.2, decide_eq_false (not_le.mpr hlt), Bool.and_false]
    rw [towards_of_far (Or.inr (Or.inr hlt)), hge, Bool.false_and, hzlt]
    exact settles_below hv
  · obtain ⟨p, htrunc, hin, hp⟩ := towards_spec hf hlo hhi hstep
    rw [hin, if_pos rfl, htrunc]
    exact settles_of_iff fun z _ => hp z

/-- A NaN limits like a number below all others. -/
theorem settles_nan (hn : f.isNaN = true) (hc : coerceNum parse lim = some (.float f)) :
    Settles step init ⊥ (forLimit parse lim init step) := by
  have hge : f.ge minusTwo63 = false := by
    unfold F64.ge F64.le
    rw [hn, Bool.not_true, Bool.and_false, Bool.false_and]
  have hlt : zero.lt f = false := by
    unfold F64.lt
    rw [hn, Bool.not_true, Bool.and_false, Bool.false_and]
  have heq : forLimit parse lim init step =
      if 0 < step then .ok (0, true) else .ok (Int64.minValue, passed step init Int64.minValue) := by
    have hfar : (if step < 0 then f.ceil else f.floor) = f := towards_of_far (Or.inl hn)
    unfold forLimit
    rw [hc]
    dsimp only
    rw [hfar, hge, hlt]
    rfl
  rw [heq]
  exact settles_below fun i => WithBot.bot_lt_coe _

/-- `$for_limit` settles every integer loop whose limit is a number. -/
theorem forLimit_spec (hc : coerceNum parse lim = some c) (hstep : step ≠ 0) :
    Settles step init (limitValue c) (forLimit parse lim init step) := by
  rcases c with p | f
  · have heq : forLimit parse lim init step = .ok (p, passed step init p) := by
      unfold forLimit
      rw [hc]
    rw [heq]
    exact settles_of_iff fun z _ => Iff.rfl
  · unfold limitValue
    cases hn : f.isNaN with
    | true =>
      rw [Arith.value_nan hn]
      exact settles_nan hn hc
    | false =>
      rw [Arith.value_float hn]
      exact settles_float hn hstep hc

/-! ## Counting -/

/-- What has passed the limit stays beyond it. -/
theorem Passes.later (h : Passes st L start) (k : ℕ) : Passes st L (start + k * st) := by
  have hcast : ∀ {z w : ℤ}, z ≤ w → onLine z ≤ onLine w :=
    fun h => not_lt.mp fun h' => absurd (onLine_lt.mp h') (not_lt.mpr h)
  unfold Passes at h ⊢
  split_ifs at h ⊢ with hpos
  · exact h.trans_le (hcast (by nlinarith))
  · exact (hcast (by nlinarith)).trans_lt h

theorem isCount_zero (h : Passes st L start) : IsCount start st L 0 := by
  intro k
  exact iff_of_false (Nat.not_lt_zero k) fun h' => h'.2 (h.later k)

/-- A loop with an integer limit has a count. -/
theorem exists_isCount (hstart : InI64 start) (hst : st ≠ 0)
    (hL : ∀ z, InI64 z → (Passes st L z ↔ Passes st (onLine p.toInt) z)) : ∃ n, IsCount start st L n := by
  have hp := inI64_toInt p
  unfold InI64 at hstart hp
  by_cases hpass : Passes st L start
  · exact ⟨0, isCount_zero hpass⟩
  rw [hL start hstart] at hpass
  -- the number of whole steps between the start and the limit
  rcases lt_or_gt_of_ne hst with hneg | hpos
  · refine ⟨((start - p.toInt) / -st).toNat + 1, ?_⟩
    intro k
    have hdiv := Int.le_ediv_iff_mul_le (a := (k : ℤ)) (b := start - p.toInt) (c := -st) (by omega)
    unfold Passes at hpass
    rw [if_neg (by omega), onLine_lt] at hpass
    have hq : 0 ≤ (start - p.toInt) / -st := Int.ediv_nonneg (by omega) (by omega)
    have hk : (k : ℤ) * -st = -(k * st) := by ring
    have hmul : (k : ℤ) * st ≤ 0 := by nlinarith
    constructor
    · intro h
      have hin : InI64 (start + k * st) := ⟨by omega, by omega⟩
      refine ⟨hin, ?_⟩
      rw [hL _ hin]
      unfold Passes
      rw [if_neg (by omega), onLine_lt]
      omega
    · rintro ⟨hin, hnot⟩
      rw [hL _ hin] at hnot
      unfold Passes at hnot
      rw [if_neg (by omega), onLine_lt] at hnot
      omega
  · refine ⟨((p.toInt - start) / st).toNat + 1, ?_⟩
    intro k
    have hdiv := Int.le_ediv_iff_mul_le (a := (k : ℤ)) (b := p.toInt - start) (c := st) hpos
    unfold Passes at hpass
    rw [if_pos hpos, onLine_lt] at hpass
    have hq : 0 ≤ (p.toInt - start) / st := Int.ediv_nonneg (by omega) (by omega)
    have hmul : 0 ≤ (k : ℤ) * st := by positivity
    constructor
    · intro h
      have hin : InI64 (start + k * st) := ⟨by omega, by omega⟩
      refine ⟨hin, ?_⟩
      rw [hL _ hin]
      unfold Passes
      rw [if_pos hpos, onLine_lt]
      omega
    · rintro ⟨hin, hnot⟩
      rw [hL _ hin] at hnot
      unfold Passes at hnot
      rw [if_pos hpos, onLine_lt] at hnot
      omega

/-! ## The loops -/

theorem runs_succ (start st : ℤ) (k m : ℕ) (s : σ) : runs body start st k (m + 1) s =
    body (.int (Int64.ofInt (start + k * st))) s >>= fun s => runs body start st (k + 1) m s := by
  unfold runs
  rw [List.range'_succ, List.foldlM_cons]

/-- The sum of an integer and the step wraps when it is not an integer of 64 bits. -/
theorem wraps_iff (hz : InI64 z) (hstep : step ≠ 0) :
    (if 0 < step then Int64.ofInt (z + step.toInt) < Int64.ofInt z else Int64.ofInt z < Int64.ofInt (z + step.toInt)) ↔
      ¬InI64 (z + step.toInt) := by
  have hst := inI64_toInt step
  have hzero := Arith.toInt_ne_zero hstep
  have hwrap : (Int64.ofInt (z + step.toInt)).toInt = (z + step.toInt).bmod (2^64) := Int64.toInt_ofInt
  have hpos := @step_pos_iff step
  rw [Int.bmod_def] at hwrap
  unfold InI64 at *
  by_cases hs : 0 < step
  · rw [if_pos hs, Int64.lt_iff_toInt_lt, toInt_ofInt hz, hwrap]
    rw [hpos] at hs
    split_ifs <;> omega
  · rw [if_neg hs, Int64.lt_iff_toInt_lt, toInt_ofInt hz, hwrap]
    rw [hpos] at hs
    split_ifs <;> omega

theorem next_eq (start : ℤ) (step : Int64) (k : ℕ) :
    Int64.ofInt (start + k * step.toInt) + step = Int64.ofInt (start + (k + 1 : ℕ) * step.toInt) := by
  have hnext : start + (k + 1 : ℕ) * step.toInt = start + k * step.toInt + step.toInt := by
    push_cast
    ring
  rw [hnext, Int64.ofInt_add _ step.toInt, Int64.ofInt_toInt]

/-- The loop has wrapped when the next value is not an integer of 64 bits. -/
theorem forOverflowed_iff (hin : InI64 (start + k * step.toInt)) (hstep : step ≠ 0) :
    forOverflowed (.int (Int64.ofInt (start + k * step.toInt))) (.int step)
      (.int (Int64.ofInt (start + (k + 1 : ℕ) * step.toInt))) = true ↔
      ¬InI64 (start + (k + 1 : ℕ) * step.toInt) := by
  have hnext : start + (k + 1 : ℕ) * step.toInt = start + k * step.toInt + step.toInt := by
    push_cast
    ring
  rw [hnext, ← wraps_iff hin hstep]
  dsimp only [forOverflowed]
  split_ifs
  · rw [decide_eq_true_iff]
  · rw [decide_eq_true_iff]

/-- The test behind the body of a boxed loop. -/
theorem numLe_within {q : Prop} [Decidable q] (hstep : step ≠ 0) (hpass : passed step a p = true ↔ ¬q) :
    (if forStepPositive (.int step) then Arith.numLe (.int a) (.int p) else Arith.numLe (.int p) (.int a)) =
      .ok (decide q) := by
  have hle : forStepPositive (.int step) = decide (0 < step) := by
    have hzero := Arith.toInt_ne_zero hstep
    have h0 : (0 : Int64).toInt = 0 := by decide
    unfold forStepPositive
    rw [decide_eq_decide, Int64.le_iff_toInt_le, step_pos_iff, h0]
    omega
  rw [hle]
  unfold passed at hpass
  by_cases hs : 0 < step
  · rw [if_pos hs, decide_eq_true_iff, Int64.lt_iff_toInt_lt] at hpass
    rw [if_pos (by simpa using hs)]
    unfold Arith.numLe
    rw [Except.ok.injEq, decide_eq_decide, Int64.le_iff_toInt_le, ← not_lt, hpass, not_not]
  · rw [if_neg hs, decide_eq_true_iff, Int64.lt_iff_toInt_lt] at hpass
    rw [if_neg (by simpa using hs)]
    unfold Arith.numLe
    rw [Except.ok.injEq, decide_eq_decide, Int64.le_iff_toInt_le, ← not_lt, hpass, not_not]

/-- The exit tests of the unboxed loop do not depend on whether the sign of the step is known. -/
theorem intForExit_eq {st : IntStep} (hst : st.value = step) (asc desc : Int64 → Int64 → Bool) :
    intForExit st.sign step asc desc a b = if 0 < step then asc a b else desc a b := by
  subst hst
  unfold intForExit
  cases st with
  | omitted => rfl
  | constant v =>
    have hsign : (IntStep.constant v).sign = if v ≠ 0 then (if 0 < v then 1 else -1) else 0 := rfl
    have hvalue : (IntStep.constant v).value = v := rfl
    rw [hsign, hvalue]
    by_cases hv : v ≠ 0
    · by_cases hpos : 0 < v
      · rw [if_pos hv, if_pos hpos, if_pos hpos]
        rfl
      · rw [if_pos hv, if_neg hpos, if_neg hpos]
        rfl
    · rw [if_neg hv]
      rfl
  | computed v => rfl

section

variable (hcount : IsCount start step.toInt L n) (hstep : step ≠ 0)
  (hL : ∀ z, InI64 z → (Passes step.toInt L z ↔ Passes step.toInt (onLine p.toInt) z))
include hcount hL

/-- At a value of 64 bits the body runs when the limit has not been passed. -/
theorem passed_at (hin : InI64 (start + k * step.toInt)) :
    passed step (Int64.ofInt (start + k * step.toInt)) p = true ↔ ¬k < n := by
  rw [passed_iff, toInt_ofInt hin, ← hL _ hin, hcount k]
  tauto

include hstep

/-- The unboxed loop from the `k`-th value on. -/
theorem intLoop_eq {st : IntStep} (hst : st.value = step) :
    ∀ m k fuel s, k + m = n → m < fuel → InI64 (start + k * step.toInt) →
      intLoop st.sign step p body fuel (Int64.ofInt (start + k * step.toInt)) s =
        some (runs body start step.toInt k m s) := by
  intro m
  induction m with
  | zero =>
    intro k fuel s hk hfuel hin
    obtain ⟨fuel, rfl⟩ : ∃ f, fuel = f + 1 := ⟨fuel - 1, by omega⟩
    have hpass := (passed_at hcount hL hin).mpr (by omega)
    unfold intLoop
    rw [intForExit_eq hst]
    exact if_pos hpass
  | succ m ih =>
    intro k fuel s hk hfuel hin
    obtain ⟨fuel, rfl⟩ : ∃ f, fuel = f + 1 := ⟨fuel - 1, by omega⟩
    have hpass := mt (passed_at hcount hL hin).mp (not_not.mpr (by omega))
    have hover := forOverflowed_iff hin hstep
    rw [runs_succ]
    unfold intLoop
    rw [intForExit_eq hst]
    refine (if_neg hpass).trans ?_
    cases body (.int (Int64.ofInt (start + k * step.toInt))) s with
    | error e => rfl
    | ok s' =>
      dsimp only
      rw [next_eq, intForExit_eq hst]
      by_cases hout : InI64 (start + (k + 1 : ℕ) * step.toInt)
      · exact (if_neg (mt hover.mp (not_not.mpr hout))).trans (ih (k + 1) fuel s' (by omega) (by omega) hout)
      · -- the next value is none, so this was the last
        have hlast : ¬k + 1 < n := fun h => hout ((hcount (k + 1)).mp h).1
        obtain rfl : m = 0 := by omega
        exact if_pos (hover.mpr hout)

/-- The boxed loop from the `k`-th value on, which the body runs for. -/
theorem numLoop_eq (add : F64 → F64 → F64) :
    ∀ m k fuel s, k + m + 1 = n → m < fuel →
      numLoop add (.int step) (.int p) body fuel (.int (Int64.ofInt (start + k * step.toInt))) s =
        some (runs body start step.toInt k (m + 1) s) := by
  intro m
  induction m with
  | zero =>
    intro k fuel s hk hfuel
    obtain ⟨fuel, rfl⟩ : ∃ f, fuel = f + 1 := ⟨fuel - 1, by omega⟩
    have hin := ((hcount k).mp (by omega)).1
    have hnot : ¬k + 1 < n := by omega
    rw [runs_succ]
    unfold numLoop
    cases body (.int (Int64.ofInt (start + k * step.toInt))) s with
    | error e => rfl
    | ok s' =>
      dsimp only [luaAdd]
      rw [next_eq]
      by_cases hout : InI64 (start + (k + 1 : ℕ) * step.toInt)
      · rw [if_neg (mt (forOverflowed_iff hin hstep).mp (not_not.mpr hout)),
          numLe_within hstep (passed_at hcount hL hout), decide_eq_false hnot]
        rfl
      · rw [if_pos ((forOverflowed_iff hin hstep).mpr hout)]
        rfl
  | succ m ih =>
    intro k fuel s hk hfuel
    obtain ⟨fuel, rfl⟩ : ∃ f, fuel = f + 1 := ⟨fuel - 1, by omega⟩
    have hin := ((hcount k).mp (by omega)).1
    have hlt : k + 1 < n := by omega
    have hout := ((hcount (k + 1)).mp hlt).1
    rw [runs_succ]
    unfold numLoop
    cases body (.int (Int64.ofInt (start + k * step.toInt))) s with
    | error e => rfl
    | ok s' =>
      dsimp only [luaAdd]
      rw [next_eq, if_neg (mt (forOverflowed_iff hin hstep).mp (not_not.mpr hout)),
        numLe_within hstep (passed_at hcount hL hout), decide_eq_true hlt]
      exact ih (k + 1) fuel s' (by omega) (by omega)

end

/-! ## The errors -/

theorem badFor_inj {what t t' : String} : badFor what t = badFor what t' ↔ t = t' := by
  unfold badFor
  rw [String.append_left_inj, String.append_right_inj]

/-- The names that Lua has for the type of a refused value is the one of the runtime, if no other was given. -/
theorem luaTypename_eq_iff {v : Val} :
    basicTypeBytes v = luaTypename names v ↔ ∀ obj name, v = .table obj → names obj = some name → name = "table" := by
  cases v with
  | table obj =>
    have hl : basicTypeBytes (.table obj) = "table" := rfl
    have hr : luaTypename names (.table obj) = (names obj).getD "table" := rfl
    rw [hl, hr]
    constructor
    · intro h obj' name hobj hname
      obtain rfl : obj = obj' := Val.table.inj hobj
      rw [hname] at h
      exact h.symm
    · intro h
      cases hname : names obj with
      | none => rfl
      | some name => exact (h obj name rfl hname).symm
  | _ => exact iff_of_true rfl (fun obj name h => absurd h (by simp))

/-- The first error of the runtime. -/
def forFault (parse : ParseNum) (init lim step : Val) : Option Fault :=
  match refused parse init lim step with
  | some (what, v) => some (forError what v)
  | none => if zeroStep parse init step then some stepIsZero else none

/-- The runtime raises Lua's error, if no name was given to the refused table. -/
theorem forFault_iff {init lim step : Val} {msg : String} (h : luaForError parse names init lim step = some msg) :
    ∃ msg', forFault parse init lim step = some (.raised msg') ∧ (msg' = msg ↔ NameKept parse names init lim step) := by
  unfold luaForError at h
  unfold forFault NameKept
  cases hr : refused parse init lim step with
  | some r =>
    obtain ⟨what, v⟩ := r
    rw [hr] at h
    obtain rfl : badFor what (luaTypename names v) = msg := Option.some_inj.mp h
    refine ⟨_, rfl, ?_⟩
    rw [badFor_inj, luaTypename_eq_iff]
    constructor
    · rintro h what' obj name hv hname
      obtain ⟨-, rfl⟩ := Prod.mk.inj (Option.some_inj.mp hv)
      exact h obj name rfl hname
    · rintro h obj name rfl hname
      exact h what obj name rfl hname
  | none =>
    rw [hr] at h
    dsimp only at h ⊢
    split_ifs at h ⊢
    exact ⟨_, rfl, iff_of_true (Option.some_inj.mp h) (fun _ _ _ h => absurd h (by simp))⟩

theorem luaForError_eq_none {init lim step : Val} :
    luaForError parse names init lim step = none ↔ forFault parse init lim step = none := by
  unfold luaForError forFault
  cases refused parse init lim step with
  | some r => simp
  | none => dsimp only; split_ifs <;> simp

/-- Without an error no name matters. -/
theorem nameKept_of_none {init lim step : Val} (h : forFault parse init lim step = none) :
    NameKept parse names init lim step := by
  unfold forFault at h
  intro what obj name hr
  rw [hr] at h
  exact absurd h (by simp)

/-- `forPrep` with integers for start and step. -/
theorem forPrep_int (i st : Int64) :
    (∃ e, forFault parse (.int i) lim (.int st) = some e ∧ forPrep parse (.int i) lim (.int st) = .error e) ∨
      forFault parse (.int i) lim (.int st) = none ∧ st ≠ 0 ∧ ∃ c, coerceNum parse lim = some c ∧
        forPrep parse (.int i) lim (.int st) = (do
          let (p, skip) ← forLimit parse lim i st
          return (.int i, .int p, .int st, skip)) := by
  have hprep : forPrep parse (.int i) lim (.int st) = (do
      if st = 0 then throw stepIsZero
      let (p, skip) ← forLimit parse lim i st
      return (.int i, .int p, .int st, skip)) := rfl
  have hrefused : refused parse (.int i) lim (.int st) =
      if st = 0 then none else if coerceNum parse lim = none then some ("limit", lim) else none := rfl
  have hzero : zeroStep parse (.int i) (.int st) = decide (st = 0) := rfl
  rw [hprep]
  unfold forFault
  rw [hrefused, hzero]
  by_cases hst : st = 0
  · left
    refine ⟨stepIsZero, ?_, ?_⟩
    · rw [if_pos hst, decide_eq_true hst]
      rfl
    · rw [if_pos hst]
      rfl
  · rw [if_neg hst, if_neg hst]
    cases hc : coerceNum parse lim with
    | none =>
      left
      refine ⟨forError "limit" lim, rfl, ?_⟩
      unfold forLimit
      rw [hc]
      rfl
    | some c =>
      right
      refine ⟨?_, hst, c, rfl, rfl⟩
      rw [if_neg (by simp), decide_eq_false hst]
      rfl

theorem numberOr_of_none {v : Val} {what : String} (h : coerceNum parse v = none) :
    numberOr parse what v = .error (forError what v) := by
  unfold numberOr
  rw [h]

theorem numberOr_of_some {v : Val} {what : String} (h : coerceNum parse v = some c) :
    numberOr parse what v = .ok c := by
  unfold numberOr
  rw [h]

/-- `forPrep` of a float loop. -/
theorem forPrep_float {init lim step : Val} (h : ∀ i st, init = .int i → step ≠ .int st) :
    (∃ e, forFault parse init lim step = some e ∧ forPrep parse init lim step = .error e) ∨
      forFault parse init lim step = none := by
  have hprep : forPrep parse init lim step = (do
      let fl := asFloat (← numberOr parse "limit" lim)
      let fs := asFloat (← numberOr parse "step" step)
      let fi := asFloat (← numberOr parse "initial value" init)
      if fs.eq zero then throw stepIsZero
      return (.float fi, .float fl, .float fs, if zero.lt fs then fl.lt fi else fi.lt fl)) := by
    unfold forPrep
    split
    · exact absurd rfl (h _ _ rfl)
    · rfl
  have hrefused : refused parse init lim step =
      if coerceNum parse lim = none then some ("limit", lim)
      else if coerceNum parse step = none then some ("step", step)
      else if coerceNum parse init = none then some ("initial value", init)
      else none := by
    unfold refused
    split
    · exact absurd rfl (h _ _ rfl)
    · rfl
  have hzero : zeroStep parse init step = (coerceNum parse step).any fun c => (asFloat c).eq zero := by
    unfold zeroStep
    split
    · exact absurd rfl (h _ _ rfl)
    · rfl
  rw [hprep]
  unfold forFault
  rw [hrefused, hzero]
  -- the three values are checked in the order of the code
  cases hl : coerceNum parse lim with
  | none =>
    left
    refine ⟨forError "limit" lim, rfl, ?_⟩
    rw [numberOr_of_none hl]
    rfl
  | some cl =>
    rw [if_neg (by simp), numberOr_of_some hl]
    cases hs : coerceNum parse step with
    | none =>
      left
      refine ⟨forError "step" step, rfl, ?_⟩
      rw [numberOr_of_none hs]
      rfl
    | some cs =>
      rw [if_neg (by simp), numberOr_of_some hs]
      cases hi : coerceNum parse init with
      | none =>
        left
        refine ⟨forError "initial value" init, rfl, ?_⟩
        rw [numberOr_of_none hi]
        rfl
      | some ci =>
        rw [if_neg (by simp), numberOr_of_some hi]
        cases hz : (asFloat cs).eq zero with
        | true =>
          left
          refine ⟨stepIsZero, ?_, ?_⟩
          · rw [Option.any_some, hz]
            rfl
          · change (if (asFloat cs).eq zero = true then Except.error stepIsZero else _) = _
            rw [hz]
            rfl
        | false =>
          right
          rw [Option.any_some, hz]
          rfl

/-! ## The loops and Lua -/

/-- A settled limit gives the count. -/
theorem Settles.isCount {r : Except Fault (Int64 × Bool)} (h : Settles step init L r) (hstep : step ≠ 0) :
    ∃ p skip n, r = .ok (p, skip) ∧ IsCount init.toInt step.toInt L n ∧ (skip = true → n = 0) ∧
      (skip = false → 0 < n ∧ ∀ z, InI64 z → (Passes step.toInt L z ↔ Passes step.toInt (onLine p.toInt) z)) := by
  obtain ⟨p, skip, hr, hskip, hlim⟩ := h
  cases skip with
  | true => exact ⟨p, true, 0, hr, isCount_zero (hskip.mp rfl), fun _ => rfl, fun h => absurd h (by decide)⟩
  | false =>
    have hzero := Arith.toInt_ne_zero hstep
    obtain ⟨n, hn⟩ := exists_isCount (inI64_toInt init) hzero (hlim rfl)
    refine ⟨p, false, n, hr, hn, fun h => absurd h (by decide), fun _ => ⟨(hn 0).mpr ?_, hlim rfl⟩⟩
    have hstart : init.toInt + (0 : ℕ) * step.toInt = init.toInt := by simp
    rw [hstart]
    exact ⟨inI64_toInt init, fun h => absurd (hskip.mpr h) (by decide)⟩

/-- The first value is the start. -/
theorem first_eq (start step : Int64) : Int64.ofInt (start.toInt + (0 : ℕ) * step.toInt) = start := by simp

theorem likeLua_boxed (add : F64 → F64 → F64) (init lim step : Val) :
    LikeLua parse names body init lim step s (forNumBoxed parse add body init lim step s) ↔
      NameKept parse names init lim step := by
  unfold LikeLua
  cases herr : luaForError parse names init lim step with
  | some msg =>
    obtain ⟨msg', hfault, hiff⟩ := forFault_iff herr
    rw [← hiff]
    have hprep : forPrep parse init lim step = .error (.raised msg') := by
      by_cases hint : ∃ i st, init = .int i ∧ step = .int st
      · obtain ⟨i, st, rfl, rfl⟩ := hint
        obtain ⟨e, he, hp⟩ | ⟨hnone, -⟩ := @forPrep_int parse lim i st
        · rw [hp, ← Option.some_inj.mp (he.symm.trans hfault)]
        · exact absurd (hnone.symm.trans hfault) (by simp)
      · obtain ⟨e, he, hp⟩ | hnone := @forPrep_float parse init lim step
          fun i st hi hs => hint ⟨i, st, hi, hs⟩
        · rw [hp, ← Option.some_inj.mp (he.symm.trans hfault)]
        · exact absurd (hnone.symm.trans hfault) (by simp)
    unfold forNumBoxed
    rw [hprep]
    constructor
    · intro h
      simpa using h 0
    · rintro rfl _
      rfl
  | none =>
    have hnone := luaForError_eq_none.mp herr
    refine iff_of_true ?_ (nameKept_of_none hnone)
    rintro i st c rfl rfl hc
    obtain ⟨e, he, -⟩ | ⟨-, hst, -, -, hprep⟩ := @forPrep_int parse lim i st
    · exact absurd (he.symm.trans hnone) (by simp)
    obtain ⟨p, skip, n, hlimit, hcount, hskip, hrun⟩ := (forLimit_spec hc hst).isCount hst
    refine ⟨n, hcount, ?_⟩
    intro fuel hfuel
    unfold forNumBoxed
    rw [hprep, hlimit]
    cases skip with
    | true =>
      rw [hskip rfl]
      rfl
    | false =>
      obtain ⟨hpos, hL⟩ := hrun rfl
      obtain ⟨m, rfl⟩ : ∃ m, n = m + 1 := ⟨n - 1, by omega⟩
      have := @numLoop_eq _ _ body _ _ _ _ _ hcount hst hL add m 0 fuel s (by omega) (by omega)
      rw [first_eq] at this
      exact this

/-- The limit of an unboxed loop as a value. -/
def limitOf : Int64 ⊕ Val → Val
  | .inl p => .int p
  | .inr lim => lim

theorem value_eq_zero {st : IntStep} (h : st.value = 0) : st.sign = 0 := by
  cases st with
  | omitted => exact absurd h (by decide)
  | constant v =>
    have hv : v = 0 := h
    unfold IntStep.sign
    exact if_neg (by simp [hv])
  | computed v => rfl

/-- `emit_for_num_int` when the step is not zero. -/
theorem forNumInt_eq {st : IntStep} (hst : st.value ≠ 0) (start : Int64) (stop : Int64 ⊕ Val) (fuel : ℕ) :
    forNumInt parse body start stop st s fuel = match stop with
      | .inl p => intLoop st.sign st.value p body fuel start s
      | .inr lim =>
        match forLimit parse lim start st.value with
        | .error e => some (.error (.inl e))
        | .ok (p, skip) => if skip then some (.ok s) else intLoop st.sign st.value p body fuel start s :=
  if_neg fun h => hst h.2

/-- What `emit_for_num_int` raises is what `$for_prep` does. -/
theorem forNumInt_error {st : IntStep} {start : Int64} {stop : Int64 ⊕ Val} {e : Fault}
    (h : forFault parse (.int start) (limitOf stop) (.int st.value) = some e) (fuel : ℕ) :
    forNumInt parse body start stop st s fuel = some (.error (.inl e)) := by
  have hrefused : refused parse (.int start) (limitOf stop) (.int st.value) =
      if st.value = 0 then none else if coerceNum parse (limitOf stop) = none then some ("limit", limitOf stop)
      else none := rfl
  have hzero : zeroStep parse (.int start) (.int st.value) = decide (st.value = 0) := rfl
  unfold forFault at h
  rw [hrefused, hzero] at h
  by_cases hst : st.value = 0
  · rw [if_pos hst, decide_eq_true hst] at h
    unfold forNumInt
    rw [if_pos ⟨value_eq_zero hst, hst⟩, ← Option.some_inj.mp h]
  · rw [if_neg hst, decide_eq_false hst] at h
    rw [forNumInt_eq hst]
    cases stop with
    | inl p => exact absurd h (by simp [limitOf, coerceNum])
    | inr lim =>
      have hlim : limitOf (.inr lim) = lim := rfl
      rw [hlim] at h
      cases hc : coerceNum parse lim with
      | none =>
        have hlimit : forLimit parse lim start st.value = .error (forError "limit" lim) := by
          unfold forLimit
          rw [hc]
        rw [hc, if_pos rfl] at h
        dsimp only
        rw [hlimit, ← Option.some_inj.mp h]
      | some c =>
        rw [hc, if_neg (by simp)] at h
        exact absurd h (by simp)

theorem likeLua_int (start : Int64) (stop : Int64 ⊕ Val) (st : IntStep) :
    LikeLua parse names body (.int start) (limitOf stop) (.int st.value) s (forNumInt parse body start stop st s) ↔
      NameKept parse names (.int start) (limitOf stop) (.int st.value) := by
  unfold LikeLua
  cases herr : luaForError parse names (.int start) (limitOf stop) (.int st.value) with
  | some msg =>
    obtain ⟨msg', hfault, hiff⟩ := forFault_iff herr
    rw [← hiff]
    constructor
    · intro h
      simpa using (forNumInt_error hfault 0).symm.trans (h 0)
    · rintro rfl fuel
      exact forNumInt_error hfault fuel
  | none =>
    have hnone := luaForError_eq_none.mp herr
    refine iff_of_true ?_ (nameKept_of_none hnone)
    rintro i v c hi hv hc
    obtain rfl := Val.int.inj hi
    obtain rfl := Val.int.inj hv
    obtain ⟨e, he, -⟩ | ⟨-, hst, -⟩ := @forPrep_int parse (limitOf stop) start st.value
    · exact absurd (he.symm.trans hnone) (by simp)
    obtain ⟨p, skip, n, hlimit, hcount, hskip, hrun⟩ := (forLimit_spec hc hst).isCount hst
    refine ⟨n, hcount, ?_⟩
    intro fuel hfuel
    have hin : InI64 (start.toInt + (0 : ℕ) * st.value.toInt) := by simpa using inI64_toInt start
    rw [forNumInt_eq hst]
    cases stop with
    | inl p =>
      obtain rfl : Arith.Num.int p = c := Option.some_inj.mp hc
      have := @intLoop_eq _ _ body _ p _ _ _ hcount hst (fun z _ => Iff.rfl) _ rfl n 0 fuel s (by omega) hfuel hin
      rw [first_eq] at this
      exact this
    | inr lim =>
      dsimp only [limitOf] at hlimit ⊢
      rw [hlimit]
      cases skip with
      | true =>
        rw [hskip rfl]
        rfl
      | false =>
        have := @intLoop_eq _ _ body _ _ _ _ _ hcount hst (hrun rfl).2 _ rfl n 0 fuel s (by omega) hfuel hin
        rw [first_eq] at this
        exact this

/-- Both lowerings of the numeric `for` run the body for the exact values of the control variable, end, and raise the
errors of Lua's `forprep`, unless a table that is refused has been given another name. -/
theorem forLoop_like_lua (parse : ParseNum) (names : ℕ → Option String) (body : Arith.Num → σ → Except (Fault ⊕ ε) σ)
    (add : F64 → F64 → F64) (s : σ) :
    (∀ init lim step, LikeLua parse names body init lim step s (forNumBoxed parse add body init lim step s) ↔
        NameKept parse names init lim step) ∧
      ∀ start stop (st : IntStep), LikeLua parse names body (.int start) (limitOf stop) (.int st.value) s
          (forNumInt parse body start stop st s) ↔
        NameKept parse names (.int start) (limitOf stop) (.int st.value) :=
  ⟨likeLua_boxed add, likeLua_int⟩

end

/-- `for i = 1, setmetatable({}, {__name = "T"}) do end`: the error is about a table, and Lua's about a `T`. -/
theorem forLoop_misnames : ¬LikeLua (fun _ => none) (fun _ => some "T") (fun _ (_ : Unit) => .error (.inr ()))
    (.int 1) (.table 0) (.int 1) ()
    (forNumBoxed (fun _ => none) (fun f _ => f) (fun _ (_ : Unit) => .error (.inr ())) (.int 1) (.table 0) (.int 1)
      ()) := by
  intro h
  have hmsg := h 0
  exact absurd hmsg (by decide)

end Lua2wasm.Control
