import Lua2wasm.Arith.Float

/-!
# Comparing numbers

`$num_lt`, `$num_le` and `$num_eq` of `runtime/prelude/arith.wat`. An integer and a double are compared without
rounding the integer to a double: the double is compared with `2^63` and `-2^63` first, and one in between is
rounded to an integer, down or up by the side it stands on.

`comparisons_exact` says that each of the three decides the order of the values that the numbers denote, and
`comparisons_order` what follows: on numbers that are no NaN they are one linear order.
-/

namespace Lua2wasm.Arith

open Table (Fault)
open F64 (Extended)

/-- A number: `$is_int` and `$is_float` tell which. -/
inductive Num
  /-- An `i31` or a `$LuaInt`. -/
  | int (i : Int64)
  /-- A `$LuaFloat`. -/
  | float (f : F64)
  deriving DecidableEq, Repr

/-- What a number denotes, unless it is a NaN. -/
def Num.value : Num → Option Extended
  | .int i => some (((i.toInt : ℚ) : WithTop ℚ) : Extended)
  | .float f => if f.isNaN then none else some f.value

/-- `f64.const 9223372036854775808.0`. -/
def two63 : F64 := ⟨0x43E0000000000000⟩

/-- `f64.const -9223372036854775808.0`. -/
def minusTwo63 : F64 := ⟨0xC3E0000000000000⟩

/-- `$int_lt_float`. -/
def intLtFloat (i : Int64) (f : F64) : Except Fault Bool :=
  if f.ne f then .ok false
  else if f.ge two63 then .ok true
  else if f.lt minusTwo63 then .ok false
  else if f.eq f.floor then do
    let k ← f.truncI64
    .ok (i < k)
  else do
    let k ← f.floor.truncI64
    .ok (i ≤ k)

/-- `$float_lt_int`. -/
def floatLtInt (f : F64) (i : Int64) : Except Fault Bool :=
  if f.ne f then .ok false
  else if f.lt minusTwo63 then .ok true
  else if f.ge two63 then .ok false
  else if f.eq f.floor then do
    let k ← f.truncI64
    .ok (k < i)
  else do
    let k ← f.ceil.truncI64
    .ok (k ≤ i)

/-- `$int_le_float`. -/
def intLeFloat (i : Int64) (f : F64) : Except Fault Bool :=
  if f.ne f then .ok false
  else if f.ge two63 then .ok true
  else if f.lt minusTwo63 then .ok false
  else do
    let k ← f.floor.truncI64
    .ok (i ≤ k)

/-- `$float_le_int`. -/
def floatLeInt (f : F64) (i : Int64) : Except Fault Bool :=
  if f.ne f then .ok false
  else if f.lt minusTwo63 then .ok true
  else if f.ge two63 then .ok false
  else do
    let k ← f.ceil.truncI64
    .ok (k ≤ i)

/-- `$int_eq_float`. -/
def intEqFloat (i : Int64) (f : F64) : Except Fault Bool :=
  if f.ne f.floor then .ok false
  else if f.lt minusTwo63 || f.ge two63 then .ok false
  else do
    let k ← f.truncI64
    .ok (i = k)

/-- `$num_lt`. -/
def numLt : Num → Num → Except Fault Bool
  | .int a, .int b => .ok (a < b)
  | .float a, .float b => .ok (a.lt b)
  | .int a, .float b => intLtFloat a b
  | .float a, .int b => floatLtInt a b

/-- `$num_le`. -/
def numLe : Num → Num → Except Fault Bool
  | .int a, .int b => .ok (a ≤ b)
  | .float a, .float b => .ok (a.le b)
  | .int a, .float b => intLeFloat a b
  | .float a, .int b => floatLeInt a b

/-- `$num_eq`. -/
def numEq : Num → Num → Except Fault Bool
  | .int a, .int b => .ok (a = b)
  | .float a, .float b => .ok (a.eq b)
  | .int i, .float f => intEqFloat i f
  | .float f, .int i => intEqFloat i f

variable {f : F64} {i : Int64}

/-! ## Where a double stands -/

theorem ne_self (f : F64) : f.ne f = f.isNaN := by
  unfold F64.ne F64.eq
  cases hn : f.isNaN <;> simp

/-- The powers of two at the ends of the range of the integers. -/
theorem value_power (hexp : f.expField = 1086) (hfrac : f.fracField = 0) (hn : f.isNaN = false) :
    f.isNaN = false ∧ f.value = (((if f.negative then -2^63 else 2^63 : ℚ) : WithTop ℚ) : Extended) := by
  have hmag : f.magnitude = 2^63 := by
    rw [F64.magnitude_of_large (by omega)]
    unfold F64.significand
    rw [hexp, hfrac, if_neg (by norm_num)]
    norm_num
  refine ⟨hn, ?_⟩
  rw [F64.value_of_finite (by omega)]
  unfold F64.finiteValue
  rw [hmag]

theorem value_two63 : two63.isNaN = false ∧ two63.value = (((2^63 : ℚ) : WithTop ℚ) : Extended) :=
  value_power (by decide) (by decide) (by decide)

theorem value_minusTwo63 : minusTwo63.isNaN = false ∧ minusTwo63.value = (((-2^63 : ℚ) : WithTop ℚ) : Extended) :=
  value_power (by decide) (by decide) (by decide)

/-- A double above all integers. -/
theorem ge_two63_iff (hn : f.isNaN = false) :
    f.ge two63 = true ↔ (((2^63 : ℚ) : WithTop ℚ) : Extended) ≤ f.value := by
  unfold F64.ge F64.le
  rw [value_two63.1, value_two63.2, hn, Bool.not_false, Bool.true_and, Bool.true_and, decide_eq_true_iff]

/-- A double below all integers. -/
theorem lt_minusTwo63_iff (hn : f.isNaN = false) :
    f.lt minusTwo63 = true ↔ f.value < (((-2^63 : ℚ) : WithTop ℚ) : Extended) := by
  unfold F64.lt
  rw [value_minusTwo63.1, value_minusTwo63.2, hn, Bool.not_false, Bool.true_and, Bool.true_and,
    decide_eq_true_iff]

theorem cast_le_iff {x y : ℚ} : ((x : WithTop ℚ) : Extended) ≤ ((y : WithTop ℚ) : Extended) ↔ x ≤ y := by
  rw [WithBot.coe_le_coe, WithTop.coe_le_coe]

theorem cast_lt_iff {x y : ℚ} : ((x : WithTop ℚ) : Extended) < ((y : WithTop ℚ) : Extended) ↔ x < y := by
  rw [WithBot.coe_lt_coe, WithTop.coe_lt_coe]

theorem toInt_bounds (i : Int64) : (-2^63 : ℚ) ≤ i.toInt ∧ (i.toInt : ℚ) < 2^63 := by
  have hlo := i.le_toInt
  have hhi := i.toInt_lt
  constructor
  · exact_mod_cast hlo
  · exact_mod_cast hhi

/-- A number that is a double lies beyond every integer, before every integer, or in their range. -/
theorem range_cases (hn : f.isNaN = false) :
    (f.ge two63 = true ∧ f.lt minusTwo63 = false ∧
        ∀ i : Int64, (((i.toInt : ℚ) : WithTop ℚ) : Extended) < f.value) ∨
      (f.ge two63 = false ∧ f.lt minusTwo63 = true ∧
        ∀ i : Int64, f.value < (((i.toInt : ℚ) : WithTop ℚ) : Extended)) ∨
      (f.ge two63 = false ∧ f.lt minusTwo63 = false ∧ f.expField ≠ 2047 ∧
        -2^63 ≤ f.finiteValue ∧ f.finiteValue < 2^63) := by
  have hge := ge_two63_iff hn
  have hlt := lt_minusTwo63_iff hn
  by_cases h1 : f.ge two63 = true
  · left
    have hv := hge.mp h1
    refine ⟨h1, ?_, fun i => lt_of_lt_of_le (cast_lt_iff.mpr (toInt_bounds i).2) hv⟩
    rw [Bool.eq_false_iff, Ne, hlt, not_lt]
    exact (cast_le_iff.mpr (by norm_num)).trans hv
  · by_cases h2 : f.lt minusTwo63 = true
    · right
      left
      rw [Bool.not_eq_true] at h1
      exact ⟨h1, h2, fun i => lt_of_lt_of_le (hlt.mp h2) (cast_le_iff.mpr (toInt_bounds i).1)⟩
    · right
      right
      rw [hge, not_le] at h1
      rw [hlt, not_lt] at h2
      refine ⟨?_, ?_, ?_⟩
      · rw [Bool.eq_false_iff, Ne, hge, not_le]
        exact h1
      · rw [Bool.eq_false_iff, Ne, hlt, not_lt]
        exact h2
      · obtain ⟨-, -, -, hv⟩ | ⟨-, -, -, hv⟩ | ⟨hf, hv⟩ := F64.value_cases hn
        · rw [hv] at h2
          exact absurd h2 (not_le.mpr (WithBot.bot_lt_coe _))
        · rw [hv] at h1
          exact absurd h1 (not_lt.mpr (WithBot.coe_le_coe.mpr le_top))
        · rw [hv, cast_lt_iff] at h1
          rw [hv, cast_le_iff] at h2
          exact ⟨hf, h2, h1⟩

/-! ## Doubles in the range of the integers -/

section

variable (hf : f.expField ≠ 2047) (hlo : -2^63 ≤ f.finiteValue) (hhi : f.finiteValue < 2^63)
include hf hlo hhi

/-- In the range of the integers the floor is one. -/
theorem floor_trunc : ∃ k : Int64, f.floor.truncI64 = .ok k ∧ k.toInt = ⌊f.finiteValue⌋ := by
  obtain ⟨hexp, hv⟩ := F64.floor_spec hf
  have h1 : -2^63 ≤ ⌊f.finiteValue⌋ := by
    rw [Int.le_floor]
    exact_mod_cast hlo
  have h2 : ⌊f.finiteValue⌋ < 2^63 := by
    rw [Int.floor_lt]
    exact_mod_cast hhi
  exact ⟨_, F64.truncI64_of_int hexp hv h1 h2, Int64.toInt_ofInt_of_le h1 h2⟩

/-- Rounding up stays in the range, since a double close to `2^63` is an integer. -/
theorem ceil_trunc : ∃ k : Int64, f.ceil.truncI64 = .ok k ∧ k.toInt = ⌈f.finiteValue⌉ := by
  obtain ⟨hexp, hv⟩ := F64.ceil_spec hf
  have h1 : -2^63 ≤ ⌈f.finiteValue⌉ := by
    have := Int.le_ceil f.finiteValue
    have hle : (-2^63 : ℚ) ≤ (⌈f.finiteValue⌉ : ℚ) := hlo.trans this
    exact_mod_cast hle
  have h2 : ⌈f.finiteValue⌉ < 2^63 := by
    by_cases hlarge : 1075 ≤ f.expField
    · obtain ⟨k, hk⟩ := F64.finiteValue_eq_int_of_large hlarge
      rw [hk] at hhi ⊢
      rw [Int.ceil_intCast]
      exact_mod_cast hhi
    · have hlt := F64.magnitude_lt (not_le.mp hlarge)
      rw [← F64.abs_finiteValue, abs_lt] at hlt
      have : ⌈f.finiteValue⌉ ≤ 2^52 := by
        rw [Int.ceil_le]
        push_cast
        linarith
      omega
  exact ⟨_, F64.truncI64_of_int hexp hv h1 h2, Int64.toInt_ofInt_of_le h1 h2⟩

omit hlo hhi in
theorem isNaN_of_finite : f.isNaN = false := by
  rw [Bool.eq_false_iff, Ne, F64.isNaN_iff]
  exact fun h => hf h.1

omit hlo hhi in
/-- The test for a fractional part. -/
theorem eq_floor_iff : f.eq f.floor = true ↔ f.finiteValue = (⌊f.finiteValue⌋ : ℤ) := by
  obtain ⟨hexp, hv⟩ := F64.floor_spec hf
  rw [F64.eq_iff_value (isNaN_of_finite hf) (isNaN_of_finite hexp), F64.value_of_finite hf,
    F64.value_of_finite hexp, WithBot.coe_inj, WithTop.coe_inj, hv]

/-- A double that equals its floor is an integer. -/
theorem whole_trunc (h : f.eq f.floor = true) :
    ∃ k : Int64, f.truncI64 = .ok k ∧ f.finiteValue = k.toInt := by
  have hv := (eq_floor_iff hf).mp h
  have h1 : -2^63 ≤ ⌊f.finiteValue⌋ := by
    rw [Int.le_floor]
    exact_mod_cast hlo
  have h2 : ⌊f.finiteValue⌋ < 2^63 := by
    rw [Int.floor_lt]
    exact_mod_cast hhi
  refine ⟨_, F64.truncI64_of_int hf hv h1 h2, ?_⟩
  rw [Int64.toInt_ofInt_of_le h1 h2]
  exact hv

end

/-! ## The mixed comparisons -/

/-- The value of an integer. -/
def intValue (i : Int64) : Extended := ((i.toInt : ℚ) : WithTop ℚ)

/-- An integer is compared with a double by value. -/
theorem intLtFloat_exact (hn : f.isNaN = false) (i : Int64) :
    intLtFloat i f = .ok (decide (intValue i < f.value)) := by
  unfold intLtFloat intValue
  rw [ne_self, hn, if_neg (by decide)]
  obtain ⟨h1, -, hv⟩ | ⟨h1, h2, hv⟩ | ⟨h1, h2, hf, hlo, hhi⟩ := range_cases hn
  · rw [h1, if_pos rfl, decide_eq_true (hv i)]
  · rw [h1, h2, if_neg (by decide), if_pos rfl, decide_eq_false (hv i).le.not_gt]
  · rw [h1, h2, if_neg (by decide), if_neg (by decide), F64.value_of_finite hf]
    split_ifs with hwhole
    · obtain ⟨k, hk, hvk⟩ := whole_trunc hf hlo hhi hwhole
      rw [hk, hvk]
      apply congrArg Except.ok
      rw [decide_eq_decide, cast_lt_iff, Int.cast_lt]
      exact Int64.lt_iff_toInt_lt
    · obtain ⟨k, hk, hvk⟩ := floor_trunc hf hlo hhi
      rw [hk]
      apply congrArg Except.ok
      -- the double is no integer, so it is not the integer `i`
      rw [decide_eq_decide, cast_lt_iff, Int64.le_iff_toInt_le, hvk, Int.le_floor]
      have hne : (i.toInt : ℚ) ≠ f.finiteValue := fun h => by
        rw [eq_floor_iff hf, ← h, Int.floor_intCast] at hwhole
        exact hwhole rfl
      exact ⟨fun h => lt_of_le_of_ne h hne, le_of_lt⟩

/-- So is a double with an integer. -/
theorem floatLtInt_exact (hn : f.isNaN = false) (i : Int64) :
    floatLtInt f i = .ok (decide (f.value < intValue i)) := by
  unfold floatLtInt intValue
  rw [ne_self, hn, if_neg (by decide)]
  obtain ⟨h1, h2, hv⟩ | ⟨h1, h2, hv⟩ | ⟨h1, h2, hf, hlo, hhi⟩ := range_cases hn
  · rw [h1, h2, if_neg (by decide), if_pos rfl, decide_eq_false (hv i).le.not_gt]
  · rw [h2, if_pos rfl, decide_eq_true (hv i)]
  · rw [h1, h2, if_neg (by decide), if_neg (by decide), F64.value_of_finite hf]
    split_ifs with hwhole
    · obtain ⟨k, hk, hvk⟩ := whole_trunc hf hlo hhi hwhole
      rw [hk, hvk]
      apply congrArg Except.ok
      rw [decide_eq_decide, cast_lt_iff, Int.cast_lt]
      exact Int64.lt_iff_toInt_lt
    · obtain ⟨k, hk, hvk⟩ := ceil_trunc hf hlo hhi
      rw [hk]
      apply congrArg Except.ok
      rw [decide_eq_decide, cast_lt_iff, Int64.le_iff_toInt_le, hvk, Int.ceil_le]
      have hne : f.finiteValue ≠ (i.toInt : ℚ) := fun h => by
        rw [eq_floor_iff hf, h, Int.floor_intCast] at hwhole
        exact hwhole rfl
      exact ⟨fun h => lt_of_le_of_ne h hne, le_of_lt⟩

theorem intLeFloat_exact (hn : f.isNaN = false) (i : Int64) :
    intLeFloat i f = .ok (decide (intValue i ≤ f.value)) := by
  unfold intLeFloat intValue
  rw [ne_self, hn, if_neg (by decide)]
  obtain ⟨h1, -, hv⟩ | ⟨h1, h2, hv⟩ | ⟨h1, h2, hf, hlo, hhi⟩ := range_cases hn
  · rw [h1, if_pos rfl, decide_eq_true (hv i).le]
  · rw [h1, h2, if_neg (by decide), if_pos rfl, decide_eq_false (hv i).not_ge]
  · obtain ⟨k, hk, hvk⟩ := floor_trunc hf hlo hhi
    rw [h1, h2, if_neg (by decide), if_neg (by decide), F64.value_of_finite hf, hk]
    apply congrArg Except.ok
    rw [decide_eq_decide, cast_le_iff, Int64.le_iff_toInt_le, hvk, Int.le_floor]

theorem floatLeInt_exact (hn : f.isNaN = false) (i : Int64) :
    floatLeInt f i = .ok (decide (f.value ≤ intValue i)) := by
  unfold floatLeInt intValue
  rw [ne_self, hn, if_neg (by decide)]
  obtain ⟨h1, h2, hv⟩ | ⟨h1, h2, hv⟩ | ⟨h1, h2, hf, hlo, hhi⟩ := range_cases hn
  · rw [h1, h2, if_neg (by decide), if_pos rfl, decide_eq_false (hv i).not_ge]
  · rw [h2, if_pos rfl, decide_eq_true (hv i).le]
  · obtain ⟨k, hk, hvk⟩ := ceil_trunc hf hlo hhi
    rw [h1, h2, if_neg (by decide), if_neg (by decide), F64.value_of_finite hf, hk]
    apply congrArg Except.ok
    rw [decide_eq_decide, cast_le_iff, Int64.le_iff_toInt_le, hvk, Int.ceil_le]

/-- `$int_eq_float` has no test for NaN of its own: a NaN is not equal to its floor. -/
theorem intEqFloat_exact (hn : f.isNaN = false) (i : Int64) :
    intEqFloat i f = .ok (decide (intValue i = f.value)) := by
  unfold intEqFloat intValue
  obtain ⟨h1, h2, hv⟩ | ⟨h1, h2, hv⟩ | ⟨h1, h2, hf, hlo, hhi⟩ := range_cases hn
  · rw [h1, h2, decide_eq_false (hv i).ne]
    exact ite_self _
  · rw [h1, h2, decide_eq_false (hv i).ne']
    exact ite_self _
  · rw [h1, h2, F64.value_of_finite hf, if_neg (show ¬(false || false) = true by decide)]
    unfold F64.ne
    split_ifs with hwhole
    · rw [Bool.not_eq_true', Bool.eq_false_iff, Ne, eq_floor_iff hf] at hwhole
      apply congrArg Except.ok
      rw [eq_comm, decide_eq_false_iff_not, WithBot.coe_inj, WithTop.coe_inj]
      intro h
      rw [← h, Int.floor_intCast] at hwhole
      exact hwhole rfl
    · rw [Bool.not_eq_true', Bool.not_eq_false] at hwhole
      obtain ⟨k, hk, hvk⟩ := whole_trunc hf hlo hhi hwhole
      rw [hk, hvk]
      apply congrArg Except.ok
      rw [decide_eq_decide, WithBot.coe_inj, WithTop.coe_inj, Int.cast_inj, Int64.toInt_inj]

theorem floor_isNaN (hn : f.isNaN = true) : f.ne f.floor = true := by
  rw [F64.floor_of_infinite (F64.isNaN_iff.mp hn).1, ne_self, hn]

/-! ## The three comparisons -/

/-- The relation of the values of two numbers, with `false` when one of them is a NaN. -/
def byValue (r : Extended → Extended → Prop) [DecidableRel r] (a b : Num) : Bool :=
  match a.value, b.value with
  | some x, some y => decide (r x y)
  | _, _ => false

section

variable {r : Extended → Extended → Prop} [DecidableRel r] {a b : Num}

theorem byValue_some {x y : Extended} (ha : a.value = some x) (hb : b.value = some y) :
    byValue r a b = decide (r x y) := by
  unfold byValue
  rw [ha, hb]

/-- A NaN is in no order. -/
theorem byValue_none (h : a.value = none ∨ b.value = none) : byValue r a b = false := by
  unfold byValue
  obtain h | h := h
  · rw [h]
  · rw [h]
    cases a.value <;> rfl

theorem byValue_iff : byValue r a b = true ↔ ∃ x y, a.value = some x ∧ b.value = some y ∧ r x y := by
  constructor
  · intro h
    cases ha : a.value with
    | none =>
      rw [byValue_none (Or.inl ha)] at h
      cases h
    | some x =>
      cases hb : b.value with
      | none =>
        rw [byValue_none (Or.inr hb)] at h
        cases h
      | some y =>
        rw [byValue_some ha hb, decide_eq_true_iff] at h
        exact ⟨x, y, rfl, rfl, h⟩
  · rintro ⟨x, y, ha, hb, hr⟩
    rw [byValue_some ha hb]
    exact decide_eq_true hr

end

theorem value_float (hn : f.isNaN = false) : (Num.float f).value = some f.value := if_neg (by rw [hn]; decide)

theorem value_nan (hn : f.isNaN = true) : (Num.float f).value = none := if_pos hn

theorem value_int (i : Int64) : (Num.int i).value = some (intValue i) := rfl

/-- A comparison of numbers is by value if it is for the kinds of the two, a NaN apart. -/
theorem by_kinds {op : Num → Num → Except Fault Bool} {r : Extended → Extended → Prop} [DecidableRel r]
    (hints : ∀ i j, op (.int i) (.int j) = .ok (decide (r (intValue i) (intValue j))))
    (hintFloat : ∀ i f, op (.int i) (.float f) = .ok (!f.isNaN && decide (r (intValue i) f.value)))
    (hfloatInt : ∀ f i, op (.float f) (.int i) = .ok (!f.isNaN && decide (r f.value (intValue i))))
    (hfloats : ∀ f g, op (.float f) (.float g) = .ok (!f.isNaN && !g.isNaN && decide (r f.value g.value)))
    (a b : Num) : op a b = .ok (byValue r a b) := by
  cases a with
  | int i =>
    cases b with
    | int j =>
      rw [byValue_some (value_int i) (value_int j)]
      exact hints i j
    | float f =>
      rw [hintFloat]
      cases hn : f.isNaN with
      | true => rw [byValue_none (Or.inr (value_nan hn))]; rfl
      | false => rw [byValue_some (value_int i) (value_float hn)]; rfl
  | float f =>
    cases b with
    | int i =>
      rw [hfloatInt]
      cases hn : f.isNaN with
      | true => rw [byValue_none (Or.inl (value_nan hn))]; rfl
      | false => rw [byValue_some (value_float hn) (value_int i)]; rfl
    | float g =>
      rw [hfloats]
      cases hf : f.isNaN with
      | true => rw [byValue_none (Or.inl (value_nan hf))]; rfl
      | false =>
        cases hg : g.isNaN with
        | true => rw [byValue_none (Or.inr (value_nan hg))]; rfl
        | false => rw [byValue_some (value_float hf) (value_float hg)]; rfl

/-- A mixed comparison that is exact but for a NaN, for which it fails. -/
theorem unless_nan {c : F64 → Except Fault Bool} {p : F64 → Prop} [DecidablePred p]
    (hnan : ∀ f, f.isNaN = true → c f = .ok false) (hexact : ∀ f, f.isNaN = false → c f = .ok (decide (p f)))
    (f : F64) : c f = .ok (!f.isNaN && decide (p f)) := by
  cases hn : f.isNaN with
  | true => exact hnan f hn
  | false => exact hexact f hn

/-- `<` on numbers is exact. -/
theorem numLt_exact (a b : Num) : numLt a b = .ok (byValue (· < ·) a b) := by
  refine by_kinds (fun i j => ?_) (fun i => unless_nan (fun f hn => if_pos ((ne_self f).trans hn)) fun f hn => ?_)
    (fun f i => unless_nan (fun f hn => if_pos ((ne_self f).trans hn)) (fun f hn => floatLtInt_exact hn i) f)
    (fun f g => rfl) a b
  · apply congrArg Except.ok
    rw [decide_eq_decide]
    unfold intValue
    rw [cast_lt_iff, Int.cast_lt]
    exact Int64.lt_iff_toInt_lt
  · exact intLtFloat_exact hn i

/-- `<=` on numbers is exact. -/
theorem numLe_exact (a b : Num) : numLe a b = .ok (byValue (· ≤ ·) a b) := by
  refine by_kinds (fun i j => ?_) (fun i => unless_nan (fun f hn => if_pos ((ne_self f).trans hn)) fun f hn => ?_)
    (fun f i => unless_nan (fun f hn => if_pos ((ne_self f).trans hn)) (fun f hn => floatLeInt_exact hn i) f)
    (fun f g => rfl) a b
  · apply congrArg Except.ok
    rw [decide_eq_decide]
    unfold intValue
    rw [cast_le_iff, Int.cast_le]
    exact Int64.le_iff_toInt_le
  · exact intLeFloat_exact hn i

theorem intEqFloat_nan (hn : f.isNaN = true) (i : Int64) : intEqFloat i f = .ok false := if_pos (floor_isNaN hn)

/-- `==` on numbers is exact. -/
theorem numEq_exact (a b : Num) : numEq a b = .ok (byValue (· = ·) a b) := by
  refine by_kinds (fun i j => ?_) (fun i => unless_nan (fun f hn => intEqFloat_nan hn i) fun f hn => intEqFloat_exact hn i)
    (fun f i => unless_nan (p := fun f => f.value = intValue i) (fun f hn => intEqFloat_nan hn i) (fun f hn => ?_) f)
    (fun f g => ?_) a b
  · apply congrArg Except.ok
    rw [decide_eq_decide]
    unfold intValue
    rw [WithBot.coe_inj, WithTop.coe_inj, Int.cast_inj, Int64.toInt_inj]
  · refine (intEqFloat_exact hn i).trans ?_
    apply congrArg Except.ok
    rw [decide_eq_decide, eq_comm]
  · apply congrArg Except.ok
    cases hf : f.isNaN with
    | true =>
      unfold F64.eq
      rw [hf]
      rfl
    | false =>
      cases hg : g.isNaN with
      | true =>
        unfold F64.eq
        rw [hf, hg]
        rfl
      | false =>
        rw [Bool.not_false, Bool.true_and, Bool.true_and, Bool.eq_iff_iff, F64.eq_iff_value hf hg, decide_eq_true_iff]

/-! ## One linear order -/

/-- Three tests of numbers that together are a linear order on those that denote something, and fail for the
others. -/
structure LinearOn (lt le eq : Num → Num → Prop) : Prop where
  /-- A NaN compares with nothing. -/
  nan : ∀ a b, a.value = none ∨ b.value = none → ¬lt a b ∧ ¬le a b ∧ ¬eq a b
  /-- Of two numbers one is smaller, or they are equal. -/
  total : ∀ a b, a.value ≠ none → b.value ≠ none → lt a b ∨ eq a b ∨ lt b a
  /-- The three cases exclude each other. -/
  exclusive : ∀ a b, lt a b → ¬lt b a ∧ ¬eq a b
  lt_trans : ∀ a b c, lt a b → lt b c → lt a c
  le_trans : ∀ a b c, le a b → le b c → le a c
  /-- The weak order is the strict one with equality. -/
  le_iff : ∀ a b, le a b ↔ lt a b ∨ eq a b
  eq_refl : ∀ a, a.value ≠ none → eq a a
  eq_symm : ∀ a b, eq a b → eq b a
  eq_trans : ∀ a b c, eq a b → eq b c → eq a c
  /-- Equal numbers stand on the same side of every number. -/
  congr : ∀ a a' b b', eq a a' → eq b b' → (lt a b ↔ lt a' b')

/-- The numbers other than NaN are linearly ordered. -/
theorem byValue_linear : LinearOn (fun a b => byValue (· < ·) a b = true) (fun a b => byValue (· ≤ ·) a b = true)
    (fun a b => byValue (· = ·) a b = true) where
  nan a b h := by
    rw [byValue_none h, byValue_none h, byValue_none h]
    decide
  total a b ha hb := by
    obtain ⟨x, hx⟩ := Option.ne_none_iff_exists'.mp ha
    obtain ⟨y, hy⟩ := Option.ne_none_iff_exists'.mp hb
    rw [byValue_some hx hy, byValue_some hx hy, byValue_some hy hx]
    simpa only [decide_eq_true_iff] using lt_trichotomy x y
  exclusive a b h := by
    obtain ⟨x, y, hx, hy, hlt⟩ := byValue_iff.mp h
    rw [byValue_some hy hx, byValue_some hx hy, decide_eq_true_iff, decide_eq_true_iff]
    exact ⟨hlt.not_gt, hlt.ne⟩
  lt_trans a b c hab hbc := by
    obtain ⟨x, y, hx, hy, hxy⟩ := byValue_iff.mp hab
    obtain ⟨y', z, hy', hz, hyz⟩ := byValue_iff.mp hbc
    rw [hy, Option.some_inj] at hy'
    exact byValue_iff.mpr ⟨x, z, hx, hz, hxy.trans (hy' ▸ hyz)⟩
  le_trans a b c hab hbc := by
    obtain ⟨x, y, hx, hy, hxy⟩ := byValue_iff.mp hab
    obtain ⟨y', z, hy', hz, hyz⟩ := byValue_iff.mp hbc
    rw [hy, Option.some_inj] at hy'
    exact byValue_iff.mpr ⟨x, z, hx, hz, hxy.trans (hy' ▸ hyz)⟩
  le_iff a b := by
    rw [byValue_iff, byValue_iff, byValue_iff]
    constructor
    · rintro ⟨x, y, hx, hy, hle⟩
      obtain hlt | heq := lt_or_eq_of_le hle
      · exact Or.inl ⟨x, y, hx, hy, hlt⟩
      · exact Or.inr ⟨x, y, hx, hy, heq⟩
    · rintro (⟨x, y, hx, hy, hlt⟩ | ⟨x, y, hx, hy, heq⟩)
      · exact ⟨x, y, hx, hy, hlt.le⟩
      · exact ⟨x, y, hx, hy, heq.le⟩
  eq_refl a ha := by
    obtain ⟨x, hx⟩ := Option.ne_none_iff_exists'.mp ha
    exact byValue_iff.mpr ⟨x, x, hx, hx, rfl⟩
  eq_symm a b h := by
    obtain ⟨x, y, hx, hy, heq⟩ := byValue_iff.mp h
    exact byValue_iff.mpr ⟨y, x, hy, hx, heq.symm⟩
  eq_trans a b c hab hbc := by
    obtain ⟨x, y, hx, hy, hxy⟩ := byValue_iff.mp hab
    obtain ⟨y', z, hy', hz, hyz⟩ := byValue_iff.mp hbc
    rw [hy, Option.some_inj] at hy'
    exact byValue_iff.mpr ⟨x, z, hx, hz, hxy.trans (hy'.trans hyz)⟩
  congr a a' b b' ha hb := by
    obtain ⟨x, x', hx, hx', hxx⟩ := byValue_iff.mp ha
    obtain ⟨y, y', hy, hy', hyy⟩ := byValue_iff.mp hb
    rw [byValue_some hx hy, byValue_some hx' hy', hxx, hyy]

/-- The three comparisons return, decide the order of the values that the numbers denote, and so are one linear
order on the numbers that are no NaN. -/
theorem comparisons_exact :
    (∀ a b, numLt a b = .ok (byValue (· < ·) a b) ∧ numLe a b = .ok (byValue (· ≤ ·) a b) ∧
      numEq a b = .ok (byValue (· = ·) a b)) ∧
      LinearOn (fun a b => numLt a b = .ok true) (fun a b => numLe a b = .ok true)
        (fun a b => numEq a b = .ok true) := by
  refine ⟨fun a b => ⟨numLt_exact a b, numLe_exact a b, numEq_exact a b⟩, ?_⟩
  simp only [numLt_exact, numLe_exact, numEq_exact, Except.ok.injEq]
  exact byValue_linear

/-! ## The equality that the tables use -/

/-- The value of the runtime that a number is. -/
def Num.val : Num → Table.Val
  | .int i => .int i
  | .float f => .float f

/-- The comparison of a double with an integer by its integral value, as the tables make it. -/
theorem intEqFloat_eq (i : Int64) (f : F64) : intEqFloat i f = .ok (Table.intEqFloat i f) := by
  unfold Table.intEqFloat
  cases hn : f.isNaN with
  | true =>
    rw [intEqFloat_nan hn, F64.toI64_of_isNaN hn]
    rfl
  | false =>
    rw [intEqFloat_exact hn]
    apply congrArg Except.ok
    rw [decide_eq_decide, F64.toI64_iff hn, eq_comm]
    rfl

/-- The tables compare numbers as `$num_eq` does. -/
theorem numEq_eq (a b : Num) : numEq a b = .ok (Table.numEq a.val b.val) := by
  cases a <;> cases b
  · rfl
  · exact intEqFloat_eq _ _
  · exact intEqFloat_eq _ _
  · rfl

end Lua2wasm.Arith
