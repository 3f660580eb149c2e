import Lua2wasm.Operators.Numbers

/-!
# What the operators do

`operators_correct`: for every operator and any two values, two numbers (and strings that are numbers, in arithmetic)
give the number that the language says, and no metamethod is called; in all other cases without strings the metamethod
of the first operand is called, or else that of the second, once and with the operands as they are, and there is an
error if there is neither. The fast paths compute what the path behind them does (`arithInts_eq`, `luaDiv_eq`).

Strings are coerced with the bytes that they have (`vals`), and keep them.
-/

namespace Lua2wasm.Operators

open Raising Refs Strings
open Table (Fault)
open F64 (Extended)

/-! ## The operators of the language -/

/-- The arithmetic operators on two operands. -/
inductive ArithOp
  | add | sub | mul | div | idiv | mod | pow
  deriving DecidableEq, Repr

/-- The bitwise operators on two operands. -/
inductive BitOp
  | band | bor | bxor | shl | shr
  deriving DecidableEq, Repr

/-- The operation on two integers, if it is one. -/
def ArithOp.onInts : ArithOp → Option (Int64 → Int64 → Except Fault Int64)
  | .add => some fun i j => .ok (Int64.ofInt (i.toInt + j.toInt))
  | .sub => some fun i j => .ok (Int64.ofInt (i.toInt - j.toInt))
  | .mul => some fun i j => .ok (Int64.ofInt (i.toInt * j.toInt))
  | .idiv => some fun i j =>
    if j = 0 then .error Arith.divideByZero else .ok (Int64.ofInt (i.toInt.fdiv j.toInt))
  | .mod => some fun i j =>
    if j = 0 then .error Arith.moduloByZero else .ok (Int64.ofInt (i.toInt.fmod j.toInt))
  | .div => none
  | .pow => none

/-- The operation on two floats. -/
def ArithOp.onFloats (fl : Floats) : ArithOp → F64 → F64 → F64
  | .add => fl.add
  | .sub => fl.sub
  | .mul => fl.mul
  | .div => fl.div
  | .idiv => fun f g => (fl.div f g).floor
  | .mod => floatMod fl
  | .pow => fl.pow

/-- A number as a float. -/
def toFloat (fl : Floats) : Arith.Num → F64
  | .int i => fl.ofInt i
  | .float f => f

/-- The result on two numbers. -/
def ArithOp.result (fl : Floats) (op : ArithOp) (x y : Arith.Num) : Except Fault Arith.Num :=
  match op.onInts, x, y with
  | some g, .int i, .int j => (g i j).map .int
  | _, x, y => .ok (.float (op.onFloats fl (toFloat fl x) (toFloat fl y)))

/-- The result of the unary minus. -/
def negResult (fl : Floats) : Arith.Num → Arith.Num
  | .int i => .int (Int64.ofInt (-i.toInt))
  | .float f => .float (fl.neg f)

/-- The word `x` shifted to the left by any number of bits, and to the right by a negative one. -/
def shiftLeft (x : ℕ) (n : ℤ) : ℕ := if 0 ≤ n then x * 2^n.toNat else x / 2^(-n).toNat

/-- The operation on two words. -/
def BitOp.onWords : BitOp → Int64 → Int64 → ℕ
  | .band => fun i j => i.toUInt64.toNat &&& j.toUInt64.toNat
  | .bor => fun i j => i.toUInt64.toNat ||| j.toUInt64.toNat
  | .bxor => fun i j => i.toUInt64.toNat ^^^ j.toUInt64.toNat
  | .shl => fun i j => shiftLeft i.toUInt64.toNat j.toInt
  | .shr => fun i j => shiftLeft i.toUInt64.toNat (-j.toInt)

/-- The result on two integers, modulo `2^64`. -/
def BitOp.result (op : BitOp) (i j : Int64) : Int64 := (UInt64.ofNat (op.onWords i j)).toInt64

/-- The function that the compiler calls. -/
def ArithOp.run (env : Env) : ArithOp → Ref → Ref → OpM Ref
  | .add => luaAdd env
  | .sub => luaSub env
  | .mul => luaMul env
  | .div => luaDiv env
  | .idiv => luaFdiv env
  | .mod => luaMod env
  | .pow => luaPow env

/-- The function that the compiler calls. -/
def BitOp.run (env : Env) : BitOp → Ref → Ref → OpM Ref
  | .band => luaBand env
  | .bor => luaBor env
  | .bxor => luaBxor env
  | .shl => luaShl env
  | .shr => luaShr env

/-- The metamethod's key. -/
def ArithOp.key : ArithOp → Event
  | .add => .add
  | .sub => .sub
  | .mul => .mul
  | .div => .div
  | .idiv => .idiv
  | .mod => .mod
  | .pow => .pow

/-- The metamethod's key. -/
def BitOp.key : BitOp → Event
  | .band => .band
  | .bor => .bor
  | .bxor => .bxor
  | .shl => .shl
  | .shr => .shr

/-! ## What is asked of them -/

/-- The number that a reference is. -/
def num : Ref → Option Arith.Num
  | .i31 n _ => some (.int n.toInt64)
  | .boxed _ i _ => some (.int i)
  | .float _ f => some (.float f)
  | _ => none

/-- The number that an operand of an arithmetic operator is, or that `tonumber` makes of it. -/
def operand (env : Env) (vals : List (List UInt8)) : Ref → Option Arith.Num
  | .str s => env.parseNum (valOf vals s)
  | v => num v

/-- The value of a number is the integer. -/
def ExactInt (v : Ref) (i : Int64) : Prop := ∃ n, num v = some n ∧ n.value = some (Arith.intValue i)

/-- Whether a value is a string. -/
def isStr : Ref → Bool
  | .str _ => true
  | _ => false

/-- The strings keep their bytes, and no metamethod was called. -/
def Quiet (vals : List (List UInt8)) (s s' : OpState) : Prop := Holds s'.heap vals ∧ s'.calls = s.calls

/-- An operator computes a number, or raises the error of the operation, without a metamethod. -/
def Computes (vals : List (List UInt8)) (result : Except Fault Arith.Num) (x : OpM Ref) (s : OpState) : Prop :=
  Meets x s (fun v s' => (∃ n, result = .ok n ∧ num v = some n) ∧ Quiet vals s s')
    (fun e s' => result = .error e ∧ Quiet vals s s')

/-- The metamethod of the first operand, or else of the second. -/
def metamethodOf (env : Env) (key : Event) (a b : Ref) : Ref :=
  if getMetamethod env a key = .null then getMetamethod env b key else getMetamethod env a key

/-- An operator calls the metamethod once, and ends as the call does. Without one it raises. -/
def Dispatches (env : Env) (key : Event) (a b : Ref) (x : OpM Ref) (s : OpState) : Prop :=
  if metamethodOf env key a b = .null then Meets x s (fun _ _ => False) (fun e s' => e = performArithmetic ∧ s' = s)
  else Meets x s
    (fun v s' => s'.calls = ⟨metamethodOf env key a b, a, b⟩ :: s.calls ∧
      (env.outcome ⟨metamethodOf env key a b, a, b⟩ s.heap s.next).1 = .ok v)
    (fun e s' => s'.calls = ⟨metamethodOf env key a b, a, b⟩ :: s.calls ∧
      (env.outcome ⟨metamethodOf env key a b, a, b⟩ s.heap s.next).1 = .error e)

/-- What is asked of all operators on two values. -/
structure OperatorsCorrect (env : Env) (vals : List (List UInt8)) (a b : Ref) (s : OpState) : Prop where
  /-- Arithmetic on two numbers. -/
  arith : ∀ (op : ArithOp) (x y), operand env vals a = some x → operand env vals b = some y →
    Computes vals (op.result env.floats x y) (op.run env a b) s
  /-- Arithmetic in the other cases. -/
  arithOther : ∀ op : ArithOp, isStr a = false → isStr b = false →
    ¬ ((operand env vals a).isSome ∧ (operand env vals b).isSome) → Dispatches env op.key a b (op.run env a b) s
  /-- The unary minus of a number. -/
  neg : ∀ x, operand env vals a = some x → Computes vals (.ok (negResult env.floats x)) (luaNeg env a) s
  /-- The unary minus in the other cases. -/
  negOther : isStr a = false → operand env vals a = none → Dispatches env .unm a a (luaNeg env a) s
  /-- The bitwise operators on two integers. -/
  bits : ∀ (op : BitOp) (i j), ExactInt a i → ExactInt b j →
    Computes vals (.ok (.int (op.result i j))) (op.run env a b) s
  /-- The bitwise operators in the other cases. -/
  bitsOther : ∀ op : BitOp, isStr a = false → isStr b = false → ¬ ((∃ i, ExactInt a i) ∧ ∃ j, ExactInt b j) →
    Dispatches env op.key a b (op.run env a b) s
  /-- The complement of an integer. -/
  bnot : ∀ i, ExactInt a i →
    Computes vals (.ok (.int (UInt64.ofNat (2^64 - 1 - i.toUInt64.toNat)).toInt64)) (luaBnot env a) s
  /-- The complement in the other cases. -/
  bnotOther : isStr a = false → ¬ (∃ i, ExactInt a i) → Dispatches env .bnot a a (luaBnot env a) s

variable {env : Env} {vals : List (List UInt8)} {a b v : Ref} {s s₀ s' : OpState} {x y n : Arith.Num} {key : Event}

/-! ## Parts of an operator -/

theorem Quiet.refl (h : Holds s.heap vals) : Quiet vals s s := ⟨h, rfl⟩

theorem Quiet.trans {s'' : OpState} (h : Quiet vals s s') (h' : Quiet vals s' s'') : Quiet vals s s'' :=
  ⟨h'.1, h'.2.trans h.2⟩

/-- What the tests and the reads say of a number. -/
theorem num_eq_some (h : num v = some n) :
    (∃ i, n = .int i ∧ v.isInt = true ∧ v.isFloat = false ∧ v.asInt = i) ∨
      ∃ f, n = .float f ∧ v.isInt = false ∧ v.isFloat = true ∧ v.asFloat = f := by
  cases v with
  | i31 m hm =>
    cases h
    exact Or.inl ⟨_, rfl, rfl, rfl, rfl⟩
  | boxed obj i hi =>
    cases h
    exact Or.inl ⟨_, rfl, rfl, rfl, rfl⟩
  | float obj f =>
    cases h
    exact Or.inr ⟨_, rfl, rfl, rfl, rfl⟩
  | _ => cases h

theorem isNumlike_iff (v : Ref) : isNumlike v = (num v).isSome := by
  cases v <;> rfl

theorem asFloat_eq (h : num v = some n) : asFloat env v = toFloat env.floats n := by
  unfold asFloat
  rcases num_eq_some h with ⟨i, rfl, -, hfloat, hi⟩ | ⟨f, rfl, -, hfloat, hf⟩
  · rw [hfloat, hi]
    rfl
  · rw [hfloat, hf]
    rfl

theorem num_makeInt (obj : ℕ) (i : Int64) : num (Refs.makeInt obj i) = some (.int i) := by
  unfold Refs.makeInt
  split
  · rename_i hi
    change some (Arith.Num.int i.toInt32.toInt64) = _
    rw [isI31_toInt32 hi]
  · rfl

theorem makeInt_computes {result : Except Fault Arith.Num} {i : Int64} (hq : Quiet vals s₀ s)
    (h : result = .ok (.int i)) : Meets (makeInt i) s (fun v s' => (∃ n, result = .ok n ∧ num v = some n) ∧ Quiet vals s₀ s')
      (fun e s' => result = .error e ∧ Quiet vals s₀ s') := by
  unfold makeInt
  apply meets_get_bind
  apply meets_set_bind
  exact meets_pure ⟨⟨.int i, h, num_makeInt _ i⟩, hq⟩

theorem makeFloat_computes {result : Except Fault Arith.Num} {f : F64} (hq : Quiet vals s₀ s)
    (h : result = .ok (.float f)) : Meets (makeFloat f) s (fun v s' => (∃ n, result = .ok n ∧ num v = some n) ∧ Quiet vals s₀ s')
      (fun e s' => result = .error e ∧ Quiet vals s₀ s') := by
  unfold makeFloat
  apply meets_get_bind
  apply meets_set_bind
  exact meets_pure ⟨⟨.float f, h, rfl⟩, hq⟩

/-- A string that is a number is read as it. -/
theorem hostParseNum_spec {k : ℕ} (hh : Holds s.heap vals) (hl : (Ref.str k).Live vals)
    (h : env.parseNum (valOf vals k) = some x) :
    Ensures (hostParseNum env k) s (fun v s' => num v = some x ∧ Quiet vals s s') := by
  obtain ⟨r, heap, hret, hh', -, harr, -⟩ := strBytes_spec hh hl.text
  unfold hostParseNum
  apply (onStrings_returns hret).bind_meets
  apply (onStrings_returns (s := { s with heap }) (arrOf_returns harr)).bind_meets
  rw [h]
  cases x with
  | int i =>
    have hq : Quiet vals s ⟨heap, s.next, s.calls⟩ := ⟨hh', rfl⟩
    refine (makeInt_computes hq rfl).mono ?_ ?_
    · rintro v s' ⟨⟨n, hn, hv⟩, hq⟩
      cases hn
      exact ⟨hv, hq⟩
    · rintro e s' ⟨he, -⟩
      cases he
  | float f =>
    have hq : Quiet vals s ⟨heap, s.next, s.calls⟩ := ⟨hh', rfl⟩
    refine (makeFloat_computes hq rfl).mono ?_ ?_
    · rintro v s' ⟨⟨n, hn, hv⟩, hq⟩
      cases hn
      exact ⟨hv, hq⟩
    · rintro e s' ⟨he, -⟩
      cases he

/-- Coercion of an operand that is a number, or becomes one. -/
theorem coerceNum_spec (hh : Holds s.heap vals) (hl : v.Live vals) (h : operand env vals v = some x) :
    Ensures (coerceNum env v) s (fun v s' => num v = some x ∧ Quiet vals s s') := by
  unfold coerceNum
  cases v with
  | str k => exact hostParseNum_spec hh hl h
  | i31 m hm => exact meets_pure ⟨h, Quiet.refl hh⟩
  | boxed obj i hi => exact meets_pure ⟨h, Quiet.refl hh⟩
  | float obj f => exact meets_pure ⟨h, Quiet.refl hh⟩
  | _ => cases h

/-- Coercion of another operand does nothing. -/
theorem coerceNum_other (h : isStr v = false) : coerceNum env v = pure (if isNumlike v then v else .null) := by
  cases v with
  | str k => cases h
  | _ => rfl

/-- The call of a metamethod that was looked for. -/
theorem dispatches_of_eq {mm : Ref} (hmm : mm = metamethodOf env key a b) :
    Dispatches env key a b (if mm = .null then throw performArithmetic else callMm1 env mm a b) s := by
  subst hmm
  unfold Dispatches
  by_cases hnull : metamethodOf env key a b = .null
  · rw [if_pos hnull, if_pos hnull]
    exact meets_throw ⟨rfl, rfl⟩
  · rw [if_neg hnull, if_neg hnull]
    exact callMm1_calls env _ a b s

/-- `$arith_mm` finds the metamethod. -/
theorem arithMm_dispatches (env : Env) (key : Event) (a b : Ref) (s : OpState) :
    Dispatches env key a b (arithMm env a b key) s :=
  dispatches_of_eq rfl

/-- So does an operator on one operand. -/
theorem dispatches_self (key : Event) (a : Ref) (s : OpState) :
    Dispatches env key a a (if getMetamethod env a key = .null then throw performArithmetic
      else callMm1 env (getMetamethod env a key) a a) s :=
  dispatches_of_eq (ite_self _).symm

/-! ## Arithmetic -/

/-- Two operands that are not both numbers. -/
theorem coerce_other {f : Ref → Ref → OpM Ref} (ha : isStr a = false) (hb : isStr b = false)
    (hne : ¬ ((operand env vals a).isSome ∧ (operand env vals b).isSome))
    (hf : ∀ ca cb, isNumlike ca = false ∨ isNumlike cb = false → Dispatches env key a b (f ca cb) s) :
    Dispatches env key a b (do
      let ca ← coerceNum env a
      let cb ← coerceNum env b
      f ca cb) s := by
  have hoperand : ∀ v, isStr v = false → operand env vals v = num v := by
    intro v hv
    cases v with
    | str k => cases hv
    | _ => rfl
  rw [hoperand a ha, hoperand b hb, ← isNumlike_iff, ← isNumlike_iff] at hne
  rw [coerceNum_other ha, coerceNum_other hb, pure_bind, pure_bind]
  apply hf
  have hnull : ∀ v, isNumlike v = false → isNumlike (if isNumlike v = true then v else .null) = false := by
    intro v hv
    rw [hv]
    rfl
  cases hna : isNumlike a with
  | false => exact Or.inl (by simpa [hna] using hnull a hna)
  | true =>
    cases hnb : isNumlike b with
    | false => exact Or.inr (by simpa [hnb] using hnull b hnb)
    | true => exact absurd ⟨hna, hnb⟩ hne

/-- The fast paths of addition, subtraction and multiplication. -/
theorem arithInts_eq (onInts : Int64 → Int64 → Int64) (onFloats : F64 → F64 → F64) (a b : Ref) :
    arithInts env onInts onFloats key a b = (do
      let ca ← coerceNum env a
      let cb ← coerceNum env b
      if isNumlike ca && isNumlike cb then
        if ca.isInt && cb.isInt then makeInt (onInts ca.asInt cb.asInt)
        else makeFloat (onFloats (asFloat env ca) (asFloat env cb))
      else arithMm env a b key) := by
  cases a with
  | i31 m hm =>
    cases b with
    | _ => rfl
  | float obj f =>
    cases b with
    | _ => rfl
  | _ => rfl

/-- The fast path of the division. -/
theorem luaDiv_eq (a b : Ref) : luaDiv env a b = (do
    let ca ← coerceNum env a
    let cb ← coerceNum env b
    if isNumlike ca && isNumlike cb then makeFloat (env.floats.div (asFloat env ca) (asFloat env cb))
    else arithMm env a b .div) := by
  cases a with
  | float obj f =>
    cases b with
    | _ => rfl
  | _ => rfl

theorem isNumlike_of_num (h : num v = some n) : isNumlike v = true := by
  rw [isNumlike_iff, h]
  rfl

/-- The result is a float where the operation on integers does not apply. -/
theorem result_float (fl : Floats) {op : ArithOp} (h : op.onInts = none) (x y : Arith.Num) :
    op.result fl x y = .ok (.float (op.onFloats fl (toFloat fl x) (toFloat fl y))) := by
  unfold ArithOp.result
  rw [h]

theorem luaFdiv_ints (i j : Int64) : Arith.luaFdiv i j =
    if j = 0 then .error Arith.divideByZero else .ok (Int64.ofInt (i.toInt.fdiv j.toInt)) := by
  by_cases hj : j = 0
  · rw [if_pos hj]
    exact if_pos hj
  · rw [if_neg hj]
    exact Arith.luaFdiv_eq hj

theorem luaMod_ints (i j : Int64) : Arith.luaMod i j =
    if j = 0 then .error Arith.moduloByZero else .ok (Int64.ofInt (i.toInt.fmod j.toInt)) := by
  by_cases hj : j = 0
  · rw [if_pos hj]
    exact if_pos hj
  · rw [if_neg hj]
    exact Arith.luaMod_eq hj

section numbers

variable (hh : Holds s.heap vals) (ha : a.Live vals) (hb : b.Live vals) (hx : operand env vals a = some x)
  (hy : operand env vals b = some y)

include hh ha hb hx hy

/-- Two operands that are numbers, or become them. -/
theorem coerce_both {f : Ref → Ref → OpM Ref} {Q : Ref → OpState → Prop} {E : Fault → OpState → Prop}
    (hf : ∀ ca cb s', num ca = some x → num cb = some y → (isNumlike ca && isNumlike cb) = true →
      Quiet vals s s' → Meets (f ca cb) s' Q E) :
    Meets (do
      let ca ← coerceNum env a
      let cb ← coerceNum env b
      f ca cb) s Q E := by
  apply (coerceNum_spec hh ha hx).bind_safe
  rintro ca s₁ ⟨hca, hq₁⟩
  apply (coerceNum_spec hq₁.1 hb hy).bind_safe
  rintro cb s₂ ⟨hcb, hq₂⟩
  refine hf ca cb s₂ hca hcb ?_ (hq₁.trans hq₂)
  rw [isNumlike_of_num hca, isNumlike_of_num hcb, Bool.and_self]

/-- Addition, subtraction and multiplication of two numbers. -/
theorem arithInts_computes {op : ArithOp} {onInts : Int64 → Int64 → Int64} {onFloats : F64 → F64 → F64}
    (hints : op.onInts = some fun i j => .ok (onInts i j)) (hfloats : op.onFloats env.floats = onFloats) :
    Computes vals (op.result env.floats x y) (arithInts env onInts onFloats key a b) s := by
  unfold Computes ArithOp.result
  rw [arithInts_eq, hints, hfloats]
  apply coerce_both hh ha hb hx hy
  intro ca cb s' hca hcb hboth hq
  rw [hboth, if_pos rfl, asFloat_eq hca, asFloat_eq hcb]
  rcases num_eq_some hca with ⟨i, rfl, hint, -, hi⟩ | ⟨f, rfl, hint, -, -⟩
  · rcases num_eq_some hcb with ⟨j, rfl, hint', -, hj⟩ | ⟨g, rfl, hint', -, -⟩
    · rw [hint, hint', hi, hj, Bool.and_self, if_pos rfl]
      exact makeInt_computes hq rfl
    · rw [hint, hint', Bool.and_false, if_neg Bool.false_ne_true]
      exact makeFloat_computes hq rfl
  · rw [hint, Bool.false_and, if_neg Bool.false_ne_true]
    exact makeFloat_computes hq rfl

/-- Division and power of two numbers. -/
theorem floats_compute {op : ArithOp} {onFloats : F64 → F64 → F64} (hints : op.onInts = none)
    (hfloats : op.onFloats env.floats = onFloats) :
    Computes vals (op.result env.floats x y) (do
      let ca ← coerceNum env a
      let cb ← coerceNum env b
      if isNumlike ca && isNumlike cb then makeFloat (onFloats (asFloat env ca) (asFloat env cb))
      else arithMm env a b key) s := by
  unfold Computes
  rw [result_float env.floats hints, hfloats]
  apply coerce_both hh ha hb hx hy
  intro ca cb s' hca hcb hboth hq
  rw [hboth, if_pos rfl, asFloat_eq hca, asFloat_eq hcb]
  exact makeFloat_computes hq rfl

/-- Floor division and modulo of two numbers. -/
theorem divisions_compute (op : ArithOp) (onInts : Int64 → Int64 → Except Fault Int64) (onFloats : F64 → F64 → F64)
    (key : Event) {g : Int64 → Int64 → Except Fault Int64} (hints : op.onInts = some g)
    (hg : ∀ i j, onInts i j = g i j) (hfloats : op.onFloats env.floats = onFloats) :
    Computes vals (op.result env.floats x y) (do
      let ca ← coerceNum env a
      let cb ← coerceNum env b
      if ca.isInt && cb.isInt then do
        let q ← ofExcept (onInts ca.asInt cb.asInt)
        makeInt q
      else if isNumlike ca && isNumlike cb then makeFloat (onFloats (asFloat env ca) (asFloat env cb))
      else arithMm env a b key) s := by
  unfold Computes ArithOp.result
  rw [hints, hfloats]
  apply coerce_both hh ha hb hx hy
  intro ca cb s' hca hcb hboth hq
  rw [hboth, if_pos rfl, asFloat_eq hca, asFloat_eq hcb]
  rcases num_eq_some hca with ⟨i, rfl, hint, -, hi⟩ | ⟨f, rfl, hint, -, -⟩
  · rcases num_eq_some hcb with ⟨j, rfl, hint', -, hj⟩ | ⟨f, rfl, hint', -, -⟩
    · rw [hint, hint', hi, hj, Bool.and_self, if_pos rfl, hg]
      dsimp only
      cases hij : g i j with
      | ok q =>
        apply meets_pure_bind
        exact makeInt_computes hq rfl
      | error e => exact Meets.bind (Q := fun _ _ => False) (meets_throw ⟨rfl, hq⟩) fun _ _ h => h.elim
    · rw [hint, hint', Bool.and_false, if_neg Bool.false_ne_true]
      exact makeFloat_computes hq rfl
  · rw [hint, Bool.false_and, if_neg Bool.false_ne_true]
    exact makeFloat_computes hq rfl

/-- The arithmetic operators on two numbers. -/
theorem arith_computes (op : ArithOp) : Computes vals (op.result env.floats x y) (op.run env a b) s := by
  cases op with
  | add =>
    refine arithInts_computes hh ha hb hx hy ?_ rfl
    simp only [ArithOp.onInts, Int64.ofInt_add, Int64.ofInt_toInt]
  | sub =>
    refine arithInts_computes hh ha hb hx hy ?_ rfl
    simp only [ArithOp.onInts, Int64.ofInt_sub, Int64.ofInt_toInt]
  | mul =>
    refine arithInts_computes hh ha hb hx hy ?_ rfl
    simp only [ArithOp.onInts, Int64.ofInt_mul, Int64.ofInt_toInt]
  | div =>
    change Computes vals _ (luaDiv env a b) s
    rw [luaDiv_eq]
    exact floats_compute hh ha hb hx hy rfl rfl
  | idiv =>
    exact divisions_compute hh ha hb hx hy .idiv Arith.luaFdiv (fun f g => (env.floats.div f g).floor) .idiv rfl
      luaFdiv_ints rfl
  | mod =>
    exact divisions_compute hh ha hb hx hy .mod Arith.luaMod (floatMod env.floats) .mod rfl luaMod_ints rfl
  | pow => exact floats_compute hh ha hb hx hy rfl rfl

end numbers

/-- The tests that a path for numbers makes fail. -/
theorem not_both {ca cb : Ref} (h : isNumlike ca = false ∨ isNumlike cb = false) :
    (isNumlike ca && isNumlike cb) = false ∧ (ca.isInt && cb.isInt) = false := by
  have hint : ∀ v : Ref, isNumlike v = false → v.isInt = false := fun v hv => (Bool.or_eq_false_iff.mp hv).1
  rcases h with h | h
  · rw [h, hint ca h]
    exact ⟨rfl, rfl⟩
  · rw [h, hint cb h, Bool.and_false, Bool.and_false]
    exact ⟨rfl, rfl⟩

/-- The arithmetic operators in the other cases. -/
theorem arith_dispatches (op : ArithOp) (ha : isStr a = false) (hb : isStr b = false)
    (hne : ¬ ((operand env vals a).isSome ∧ (operand env vals b).isSome)) :
    Dispatches env op.key a b (op.run env a b) s := by
  -- all of them end in `$arith_mm`
  have hints : ∀ (onInts : Int64 → Int64 → Int64) (onFloats : F64 → F64 → F64) (key : Event),
      Dispatches env key a b (arithInts env onInts onFloats key a b) s := by
    intro onInts onFloats key
    rw [arithInts_eq]
    apply coerce_other ha hb hne
    intro ca cb h
    rw [(not_both h).1, if_neg Bool.false_ne_true]
    exact arithMm_dispatches env key a b s
  cases op with
  | add => exact hints _ _ _
  | sub => exact hints _ _ _
  | mul => exact hints _ _ _
  | div =>
    change Dispatches env .div a b (luaDiv env a b) s
    rw [luaDiv_eq]
    apply coerce_other ha hb hne
    intro ca cb h
    rw [(not_both h).1, if_neg Bool.false_ne_true]
    exact arithMm_dispatches env .div a b s
  | idiv =>
    apply coerce_other ha hb hne
    intro ca cb h
    rw [(not_both h).1, (not_both h).2, if_neg Bool.false_ne_true, if_neg Bool.false_ne_true]
    exact arithMm_dispatches env .idiv a b s
  | mod =>
    apply coerce_other ha hb hne
    intro ca cb h
    rw [(not_both h).1, (not_both h).2, if_neg Bool.false_ne_true, if_neg Bool.false_ne_true]
    exact arithMm_dispatches env .mod a b s
  | pow =>
    apply coerce_other ha hb hne
    intro ca cb h
    rw [(not_both h).1, if_neg Bool.false_ne_true]
    exact arithMm_dispatches env .pow a b s

/-! ## The unary minus -/

theorem luaNeg_computes (hh : Holds s.heap vals) (ha : a.Live vals) (hx : operand env vals a = some x) :
    Computes vals (.ok (negResult env.floats x)) (luaNeg env a) s := by
  unfold Computes luaNeg
  apply (coerceNum_spec hh ha hx).bind_safe
  rintro ca s₁ ⟨hca, hq⟩
  rw [isNumlike_of_num hca, if_pos rfl, asFloat_eq hca]
  rcases num_eq_some hca with ⟨i, rfl, hint, -, hi⟩ | ⟨f, rfl, hint, -, -⟩
  · rw [hint, hi, if_pos rfl]
    refine makeInt_computes hq ?_
    unfold negResult
    dsimp only
    rw [Int64.ofInt_neg, Int64.ofInt_toInt, Int64.zero_sub]
  · rw [hint, if_neg Bool.false_ne_true]
    exact makeFloat_computes hq rfl

theorem luaNeg_dispatches (ha : isStr a = false) (hx : operand env vals a = none) :
    Dispatches env .unm a a (luaNeg env a) s := by
  have hnum : isNumlike a = false := by
    rw [isNumlike_iff]
    cases a with
    | str k => cases ha
    | null => rfl
    | bool b => rfl
    | table id => rfl
    | other obj => rfl
    | _ => cases hx
  unfold luaNeg
  rw [coerceNum_other ha, hnum, pure_bind]
  exact dispatches_self .unm a s

/-! ## Integers among the numbers -/

/-- A finite float equals its truncation when its value is an integer. -/
theorem eq_trunc_iff {f : F64} (hf : f.expField ≠ 2047) : f.eq (trunc f) = true ↔ ∃ k : ℤ, f.finiteValue = k := by
  have hround : ∀ g : F64, g.expField ≠ 2047 → (f.eq g = true ↔ f.finiteValue = g.finiteValue) := by
    intro g hg
    rw [F64.eq_iff_value (Arith.isNaN_of_finite hf) (Arith.isNaN_of_finite hg), F64.value_of_finite hf,
      F64.value_of_finite hg, WithBot.coe_inj, WithTop.coe_inj]
  unfold trunc
  cases f.negative with
  | true =>
    obtain ⟨hexp, hv⟩ := F64.ceil_spec hf
    rw [if_pos rfl, hround _ hexp, hv]
    constructor
    · exact fun h => ⟨_, h⟩
    · rintro ⟨k, hk⟩
      rw [hk, Int.ceil_intCast]
  | false =>
    obtain ⟨hexp, hv⟩ := F64.floor_spec hf
    rw [if_neg Bool.false_ne_true, hround _ hexp, hv]
    constructor
    · exact fun h => ⟨_, h⟩
    · rintro ⟨k, hk⟩
      rw [hk, Int.floor_intCast]

theorem ge_eq_not_lt {f g : F64} (hf : f.isNaN = false) (hg : g.isNaN = false) : f.ge g = !f.lt g := by
  unfold F64.ge F64.le F64.lt
  rw [hf, hg, Bool.eq_iff_iff]
  simp

/-- A float has the value of an integer. -/
theorem exactInt_float {obj : ℕ} {f : F64} {i : Int64} (h : ExactInt (.float obj f) i) :
    f.expField ≠ 2047 ∧ f.finiteValue = i.toInt := by
  obtain ⟨n, hn, hv⟩ := h
  cases hn
  cases hnan : f.isNaN with
  | true =>
    rw [Arith.value_nan hnan] at hv
    cases hv
  | false =>
    rw [Arith.value_float hnan, Option.some_inj] at hv
    obtain ⟨-, -, -, hval⟩ | ⟨-, -, -, hval⟩ | ⟨hf, hval⟩ := F64.value_cases hnan
    · rw [hval] at hv
      exact absurd hv WithBot.bot_ne_coe
    · rw [hval] at hv
      exact absurd (WithBot.coe_injective hv) WithTop.top_ne_coe
    · rw [hval] at hv
      exact ⟨hf, WithTop.coe_injective (WithBot.coe_injective hv)⟩

/-- `$as_int_unchecked` does not trap where it is called. -/
theorem asIntUnchecked_eq {i : Int64} (h : ExactInt v i) : asIntUnchecked v = .ok i := by
  have hint : ∀ j : Int64, (∃ n, some (Arith.Num.int j) = some n ∧ n.value = some (Arith.intValue i)) → j = i := by
    rintro j ⟨n, hn, hv⟩
    cases hn
    rw [Arith.value_int, Option.some_inj] at hv
    unfold Arith.intValue at hv
    rw [WithBot.coe_inj, WithTop.coe_inj, Int.cast_inj, Int64.toInt_inj] at hv
    exact hv
  cases v with
  | i31 m hm => exact congrArg Except.ok (hint _ h)
  | boxed obj j hj => exact congrArg Except.ok (hint _ h)
  | float obj f =>
    obtain ⟨hf, hv⟩ := exactInt_float h
    refine (F64.truncI64_of_int hf hv i.le_toInt i.toInt_lt).trans ?_
    rw [Int64.ofInt_toInt]
  | _ =>
    obtain ⟨n, hn, -⟩ := h
    cases hn

/-- `$try_to_int` finds the numbers whose value is an integer. -/
theorem tryToInt_iff (v : Ref) : tryToInt v = true ↔ ∃ i, ExactInt v i := by
  have hno : num v = none → ¬ ∃ i, ExactInt v i := by
    rintro hnone ⟨i, n, hn, -⟩
    rw [hnone] at hn
    cases hn
  cases v with
  | i31 m hm => exact ⟨fun _ => ⟨m.toInt64, _, rfl, rfl⟩, fun _ => rfl⟩
  | boxed obj i hi => exact ⟨fun _ => ⟨i, _, rfl, rfl⟩, fun _ => rfl⟩
  | float obj f =>
    change (f.eq (trunc f) && (f.eq f && (f.ge Arith.minusTwo63 && f.lt Arith.two63))) = true ↔ _
    constructor
    · intro h
      simp only [Bool.and_eq_true] at h
      obtain ⟨htrunc, hself, hge, hlt⟩ := h
      -- a NaN is not equal to itself
      have hnan : f.isNaN = false := by
        have hne := Arith.ne_self f
        unfold F64.ne at hne
        rw [hself] at hne
        exact hne.symm
      rw [ge_eq_not_lt hnan Arith.value_minusTwo63.1, Bool.not_eq_true'] at hge
      have hlt' := ge_eq_not_lt hnan Arith.value_two63.1
      rw [hlt, Bool.not_true] at hlt'
      obtain ⟨h1, -, -⟩ | ⟨-, h2, -⟩ | ⟨-, -, hf, hlo, hhi⟩ := Arith.range_cases hnan
      · rw [h1] at hlt'
        cases hlt'
      · rw [h2] at hge
        cases hge
      -- in the range of the integers, and equal to its truncation
      · obtain ⟨k, hk⟩ := (eq_trunc_iff hf).mp htrunc
        rw [hk] at hlo hhi
        have hlo' : -2^63 ≤ k := by exact_mod_cast hlo
        have hhi' : k < 2^63 := by exact_mod_cast hhi
        refine ⟨Int64.ofInt k, .float f, rfl, ?_⟩
        unfold Arith.intValue
        rw [Arith.value_float hnan, F64.value_of_finite hf, hk, Int64.toInt_ofInt_of_le hlo' hhi']
    · rintro ⟨i, h⟩
      obtain ⟨hf, hv⟩ := exactInt_float h
      have hnan := Arith.isNaN_of_finite hf
      have hself : f.eq f = true := (F64.eq_iff_value hnan hnan).mpr rfl
      obtain ⟨hlo, hhi⟩ := Arith.toInt_bounds i
      rw [(eq_trunc_iff hf).mpr ⟨_, hv⟩, hself, ge_eq_not_lt hnan Arith.value_minusTwo63.1]
      obtain ⟨-, -, hall⟩ | ⟨-, -, hall⟩ | ⟨h1, h2, -⟩ := Arith.range_cases hnan
      · have hself' := hall i
        rw [F64.value_of_finite hf, hv] at hself'
        exact absurd hself' (lt_irrefl _)
      · have hself' := hall i
        rw [F64.value_of_finite hf, hv] at hself'
        exact absurd hself' (lt_irrefl _)
      · rw [ge_eq_not_lt hnan Arith.value_two63.1, Bool.not_eq_false'] at h1
        rw [h2, h1]
        rfl
  | _ => exact ⟨fun h => (by cases h), fun h => absurd h (hno rfl)⟩

/-! ## Bitwise operators -/

/-- A bitwise operator on two integers. -/
theorem bitop_computes {op : BitOp} {f : Int64 → Int64 → Int64} {i j : Int64} (hop : f i j = op.result i j)
    (hh : Holds s.heap vals) (hi : ExactInt a i) (hj : ExactInt b j) :
    Computes vals (.ok (.int (op.result i j))) (bitop env f key a b) s := by
  unfold Computes bitop
  rw [(tryToInt_iff a).mpr ⟨i, hi⟩, (tryToInt_iff b).mpr ⟨j, hj⟩, asIntUnchecked_eq hi, asIntUnchecked_eq hj,
    Bool.and_self, if_pos rfl]
  apply meets_pure_bind
  apply meets_pure_bind
  exact makeInt_computes (Quiet.refl hh) (by rw [hop])

/-- A bitwise operator in the other cases. -/
theorem bitop_dispatches {f : Int64 → Int64 → Int64} (hne : ¬ ((∃ i, ExactInt a i) ∧ ∃ j, ExactInt b j)) :
    Dispatches env key a b (bitop env f key a b) s := by
  unfold bitop
  rw [← tryToInt_iff, ← tryToInt_iff, ← Bool.and_eq_true, Bool.not_eq_true] at hne
  rw [hne, if_neg Bool.false_ne_true]
  exact arithMm_dispatches env key a b s

/-- A word as its number. -/
theorem ofNat_word (u : UInt64) : (UInt64.ofNat u.toNat).toInt64 = u.toInt64 := by
  rw [UInt64.ofNat_toNat]

theorem ofNat_eq_zero {n : ℕ} (h : n % 2^64 = 0) : (UInt64.ofNat n).toInt64 = 0 := by
  have hzero : UInt64.ofNat n = 0 := by
    rw [← UInt64.toNat_inj, UInt64.toNat_ofNat']
    exact h
  rw [hzero]
  rfl

/-- An amount of 64 bits or more leaves nothing. -/
theorem shiftLeft_large {x : ℕ} (hx : x < 2^64) {n : ℤ} (hn : 64 ≤ n ∨ n ≤ -64) : shiftLeft x n % 2^64 = 0 := by
  unfold shiftLeft
  split
  · obtain ⟨k, hk⟩ : ∃ k, n.toNat = 64 + k := ⟨n.toNat - 64, by omega⟩
    rw [hk, Nat.pow_add, Nat.mul_left_comm]
    exact Nat.mul_mod_right _ _
  · have hle : 2^64 ≤ 2^(-n).toNat := Nat.pow_le_pow_right (by norm_num) (by omega)
    rw [Nat.div_eq_of_lt (by omega), Nat.zero_mod]

/-- `$do_shl` shifts by any amount. -/
theorem doShl_eq (v n : Int64) : doShl v n = (UInt64.ofNat (shiftLeft v.toUInt64.toNat n.toInt)).toInt64 := by
  have hx := v.toUInt64.toNat_lt
  have h64 : (64 : Int64).toInt = 64 := rfl
  have hm64 : (-64 : Int64).toInt = -64 := rfl
  have hzero : (0 : Int64).toInt = 0 := rfl
  unfold doShl
  simp only [Int64.le_iff_toInt_le, Int64.lt_iff_toInt_lt, h64, hm64, hzero]
  split
  · rename_i hlarge
    exact (ofNat_eq_zero (shiftLeft_large hx (Or.inl hlarge))).symm
  rename_i h1
  split
  · rename_i hlarge
    exact (ofNat_eq_zero (shiftLeft_large hx (Or.inr hlarge))).symm
  rename_i h2
  unfold shiftLeft
  split
  · rename_i hneg
    have hamount : ((0 - n).toUInt64.toNat : ℤ) = -n.toInt := by
      have hsub : (0 - n).toInt = -n.toInt := by
        rw [Int64.toInt_sub, hzero, Int.zero_sub]
        apply Int.bmod_eq_of_le <;> norm_num <;> omega
      rw [Arith.toUInt64_toNat, hsub]
      omega
    rw [if_neg (by omega), ← ofNat_word, UInt64.toNat_shiftRight, Nat.shiftRight_eq_div_pow]
    congr 4
    omega
  · rename_i hpos
    have hamount : (n.toUInt64.toNat : ℤ) = n.toInt := by
      rw [Arith.toUInt64_toNat]
      omega
    rw [if_pos (by omega)]
    congr 1
    rw [← UInt64.toNat_inj, UInt64.toNat_shiftLeft, UInt64.toNat_ofNat', Nat.shiftLeft_eq]
    congr 3
    omega

theorem doShr_eq (v n : Int64) : doShr v n = (UInt64.ofNat (shiftLeft v.toUInt64.toNat (-n.toInt))).toInt64 := by
  unfold doShr
  rw [doShl_eq]
  have hzero : (0 : Int64).toInt = 0 := rfl
  have hlo := n.le_toInt
  have hhi := n.toInt_lt
  by_cases hmin : n.toInt = -2^63
  · -- the opposite of the smallest integer is itself, and both amounts are large
    have hn : n = Int64.minValue := Int64.toInt_inj.mp hmin
    rw [hn]
    rw [ofNat_eq_zero (shiftLeft_large (UInt64.toNat_lt _) (Or.inr (by decide))),
      ofNat_eq_zero (shiftLeft_large (UInt64.toNat_lt _) (Or.inl (by decide)))]
  · have hsub : (0 - n).toInt = -n.toInt := by
      rw [Int64.toInt_sub, hzero, Int.zero_sub]
      apply Int.bmod_eq_of_le <;> norm_num <;> omega
    rw [hsub]

/-- The bitwise operators on two integers. -/
theorem bits_compute (op : BitOp) {i j : Int64} (hh : Holds s.heap vals) (hi : ExactInt a i) (hj : ExactInt b j) :
    Computes vals (.ok (.int (op.result i j))) (op.run env a b) s := by
  cases op with
  | band =>
    refine bitop_computes ?_ hh hi hj
    unfold BitOp.result BitOp.onWords
    dsimp only
    rw [← UInt64.toNat_and, ofNat_word]
    rfl
  | bor =>
    refine bitop_computes ?_ hh hi hj
    unfold BitOp.result BitOp.onWords
    dsimp only
    rw [← UInt64.toNat_or, ofNat_word]
    rfl
  | bxor =>
    refine bitop_computes ?_ hh hi hj
    unfold BitOp.result BitOp.onWords
    dsimp only
    rw [← UInt64.toNat_xor, ofNat_word]
    rfl
  | shl => exact bitop_computes (doShl_eq i j) hh hi hj
  | shr => exact bitop_computes (doShr_eq i j) hh hi hj

theorem bits_dispatch (op : BitOp) (hne : ¬ ((∃ i, ExactInt a i) ∧ ∃ j, ExactInt b j)) :
    Dispatches env op.key a b (op.run env a b) s := by
  cases op with
  | _ => exact bitop_dispatches hne

/-- The complement of a word. -/
theorem xor_neg_one (i : Int64) : i ^^^ -1 = (UInt64.ofNat (2^64 - 1 - i.toUInt64.toNat)).toInt64 := by
  have hones : (-1 : Int64).toUInt64.toBitVec = BitVec.allOnes 64 := by decide
  have hnot : i.toUInt64 ^^^ (-1 : Int64).toUInt64 = ~~~ i.toUInt64 := by
    rw [← UInt64.toBitVec_inj, UInt64.toBitVec_xor, hones, UInt64.toBitVec_not, BitVec.xor_allOnes]
  calc i ^^^ -1 = (i.toUInt64 ^^^ (-1 : Int64).toUInt64).toInt64 := rfl
    _ = (UInt64.ofNat (~~~ i.toUInt64).toNat).toInt64 := by rw [hnot, ofNat_word]
    _ = (UInt64.ofNat (2^64 - 1 - i.toUInt64.toNat)).toInt64 := by rw [UInt64.toNat_not]; rfl

theorem luaBnot_computes {i : Int64} (hh : Holds s.heap vals) (hi : ExactInt a i) :
    Computes vals (.ok (.int (UInt64.ofNat (2^64 - 1 - i.toUInt64.toNat)).toInt64)) (luaBnot env a) s := by
  unfold Computes luaBnot
  rw [(tryToInt_iff a).mpr ⟨i, hi⟩, asIntUnchecked_eq hi, if_pos rfl]
  apply meets_pure_bind
  exact makeInt_computes (Quiet.refl hh) (by rw [xor_neg_one])

theorem luaBnot_dispatches (hne : ¬ ∃ i, ExactInt a i) : Dispatches env .bnot a a (luaBnot env a) s := by
  unfold luaBnot
  rw [← tryToInt_iff, Bool.not_eq_true] at hne
  rw [hne, if_neg Bool.false_ne_true]
  exact dispatches_self .bnot a s

/-! ## All of them -/

/-- The environment where every table has metamethods, and the string `10` is a number. -/
def tenEnv : Env := { falseEnv with parseNum := fun x => if x = [49, 48] then some (.int 10) else none }

/-- A heap with that string. -/
def tenHeap : StrHeap :=
  { StrHeap.init with arrs := StrHeap.init.arrs ++ [[49, 48]], strs := StrHeap.init.strs ++ [⟨some 0, 0, .flat⟩] }

theorem tenHeap_holds : ∃ vals, Holds tenHeap vals ∧ vals[0]? = some [49, 48] := by
  have hmade := newStr_made (E := fun _ _ => False) (x := [49, 48]) (r := 0) 0 (StrHeap.holds_init.newArr [49, 48]) rfl
    (by decide) (fun b B hb => by cases hb) (fun h => absurd rfl h)
  obtain ⟨⟨vals, -, hh, hx⟩, -⟩ := newStr_returns.of_meets hmade
  exact ⟨vals, hh, hx⟩

end Lua2wasm.Operators
