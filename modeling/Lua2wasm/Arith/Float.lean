import Lua2wasm.Table.HashPart

/-!
# Doubles as numbers

The value of a double, and the instructions of WebAssembly that compare doubles and round them to integers. A
double that is a number is a rational number or one of the infinities (`F64.value`), and the comparisons are those
of the values. `F64.floor` and `F64.ceil` work on the bits: a double with 53 or more bits before the point has
none behind it, and below that the integer is encoded again.
-/

namespace Lua2wasm

namespace F64

/-- The rational numbers and the two infinities. -/
abbrev Extended := WithBot (WithTop ℚ)

/-- The finite doubles are multiples of `1 / scale`. -/
def scale : ℕ := 2^1075

/-- The magnitude of a finite double. -/
def magnitude (f : F64) : ℚ := (f.significand * 2^(max f.expField 1) : ℕ) / (scale : ℚ)

/-- The value of a finite double. -/
def finiteValue (f : F64) : ℚ := if f.negative then -f.magnitude else f.magnitude

/-- The value of a double that is a number. -/
def value (f : F64) : Extended :=
  if f.expField = 2047 then (if f.negative then ⊥ else ((⊤ : WithTop ℚ) : Extended))
  else ((f.finiteValue : WithTop ℚ) : Extended)

/-- `f64.lt`. -/
def lt (a b : F64) : Bool := !a.isNaN && !b.isNaN && decide (a.value < b.value)

/-- `f64.le`. -/
def le (a b : F64) : Bool := !a.isNaN && !b.isNaN && decide (a.value ≤ b.value)

/-- `f64.ge`. -/
def ge (a b : F64) : Bool := b.le a

/-- `f64.ne`. -/
def ne (a b : F64) : Bool := !a.eq b

/-- The double with a sign and a magnitude that is an integer up to `2^53`. -/
def ofWhole (neg : Bool) (m : ℕ) : F64 :=
  ⟨BitVec.ofNat 64 ((if neg then 2^63 else 0) +
    if m = 0 then 0 else (Nat.log2 m + 1022) * 2^52 + m * 2^52 / 2^(Nat.log2 m))⟩

/-- `f64.floor`. A zero that it returns has the sign of the operand. -/
def floor (f : F64) : F64 :=
  if 1075 ≤ f.expField then f else ofWhole f.negative ⌊f.finiteValue⌋.natAbs

/-- `f64.ceil`. -/
def ceil (f : F64) : F64 :=
  if 1075 ≤ f.expField then f else ofWhole f.negative ⌈f.finiteValue⌉.natAbs

/-- `i64.trunc_f64_s`, which traps outside of the range. -/
def truncI64 (f : F64) : Except Table.Fault Int64 :=
  let m : ℤ := ⌊f.magnitude⌋
  let v := if f.negative then -m else m
  if f.expField ≠ 2047 ∧ -2^63 ≤ v ∧ v < 2^63 then .ok (Int64.ofInt v) else .error .stuck

variable {f g : F64}

/-! ## The fields -/

theorem expField_lt (f : F64) : f.expField < 2048 := Nat.mod_lt _ (by norm_num)

theorem fracField_lt (f : F64) : f.fracField < 2^52 := Nat.mod_lt _ (by norm_num)

theorem significand_lt (f : F64) : f.significand < 2^53 := by
  have := f.fracField_lt
  unfold significand
  split_ifs <;> omega

theorem isNaN_iff : f.isNaN = true ↔ f.expField = 2047 ∧ f.fracField ≠ 0 := by
  unfold isNaN
  simp only [Bool.and_eq_true, decide_eq_true_eq]

/-- The bits, from the three fields. -/
theorem bits_eq (f : F64) : f.bits.toNat =
    (if f.negative then 2^63 else 0) + f.expField * 2^52 + f.fracField := by
  unfold negative expField fracField
  simp only [decide_eq_true_eq]
  split_ifs <;> omega

theorem ext_fields (hneg : f.negative = g.negative) (hexp : f.expField = g.expField)
    (hfrac : f.fracField = g.fracField) : f = g := by
  have hbits : f.bits = g.bits := by
    apply BitVec.eq_of_toNat_eq
    rw [bits_eq f, bits_eq g, hneg, hexp, hfrac]
  calc f = ⟨f.bits⟩ := rfl
    _ = ⟨g.bits⟩ := by rw [hbits]
    _ = g := rfl

/-- The fields of a double that is put together from them. -/
theorem fields_mk (neg : Bool) {e m : ℕ} (he : e < 2048) (hm : m < 2^52) :
    let f : F64 := ⟨BitVec.ofNat 64 ((if neg then 2^63 else 0) + (e * 2^52 + m))⟩
    f.negative = neg ∧ f.expField = e ∧ f.fracField = m := by
  unfold negative expField fracField
  dsimp only
  rw [BitVec.toNat_ofNat, Nat.mod_eq_of_lt (by split_ifs <;> omega)]
  cases neg
  · refine ⟨?_, ?_, ?_⟩
    · rw [decide_eq_false_iff_not]
      simp only [Bool.false_eq_true, if_false]
      omega
    · simp only [Bool.false_eq_true, if_false]
      omega
    · simp only [Bool.false_eq_true, if_false]
      omega
  · refine ⟨?_, ?_, ?_⟩
    · rw [decide_eq_true_iff]
      simp only [if_true]
      omega
    · simp only [if_true]
      omega
    · simp only [if_true]
      omega

/-! ## The value -/

theorem value_of_finite (h : f.expField ≠ 2047) : f.value = ((f.finiteValue : WithTop ℚ) : Extended) := if_neg h

theorem scale_eq {j k : ℕ} (h : j + k = 1075) : scale = 2^j * 2^k := by
  unfold scale
  rw [← Nat.pow_add, h]

theorem scale_pos : (0 : ℚ) < scale := by
  rw [Nat.cast_pos, scale_eq (Nat.zero_add 1075)]
  positivity

theorem magnitude_nonneg (f : F64) : 0 ≤ f.magnitude := by
  unfold magnitude
  exact div_nonneg (Nat.cast_nonneg _) scale_pos.le

/-- Units of the smallest double determine the exponent and the significand. -/
theorem units_injective (hu : f.significand * 2^(max f.expField 1) = g.significand * 2^(max g.expField 1)) :
    f.expField = g.expField ∧ f.fracField = g.fracField := by
  -- a larger exponent gives more units, since a normal significand has its top bit set
  have hle : ∀ {f g : F64}, f.significand * 2^(max f.expField 1) = g.significand * 2^(max g.expField 1) →
      ¬max f.expField 1 < max g.expField 1 := by
    intro f g hu hlt
    have hf := f.significand_lt
    have hg : 2^52 ≤ g.significand := by
      unfold significand
      rw [if_neg (by omega)]
      omega
    have hstep : 2^(max f.expField 1 + 1) ≤ 2^(max g.expField 1) := Nat.pow_le_pow_right (by omega) hlt
    have hpos : 0 < 2^(max f.expField 1) := by positivity
    have : f.significand * 2^(max f.expField 1) < g.significand * 2^(max g.expField 1) := by
      calc f.significand * 2^(max f.expField 1) < 2^53 * 2^(max f.expField 1) :=
            Nat.mul_lt_mul_of_pos_right hf hpos
        _ = 2^52 * 2^(max f.expField 1 + 1) := by ring
        _ ≤ g.significand * 2^(max g.expField 1) := Nat.mul_le_mul hg hstep
    omega
  have hexp : max f.expField 1 = max g.expField 1 :=
    le_antisymm (not_lt.mp (hle hu.symm)) (not_lt.mp (hle hu))
  have hsig : f.significand = g.significand := by
    rw [hexp] at hu
    exact Nat.eq_of_mul_eq_mul_right (by positivity) hu
  have hf := f.fracField_lt
  have hg := g.fracField_lt
  unfold significand at hsig
  split_ifs at hsig <;> omega

theorem magnitude_injective (h : f.magnitude = g.magnitude) :
    f.expField = g.expField ∧ f.fracField = g.fracField := by
  unfold magnitude at h
  apply units_injective
  rw [div_left_inj' scale_pos.ne'] at h
  exact_mod_cast h

theorem significand_eq_zero : f.significand = 0 ↔ f.isZero = true := by
  unfold isZero
  rw [Bool.and_eq_true, decide_eq_true_iff, decide_eq_true_iff]
  unfold significand
  by_cases hexp : f.expField = 0
  · rw [if_pos hexp]
    tauto
  · rw [if_neg hexp]
    constructor
    · intro h
      omega
    · rintro ⟨h, -⟩
      exact absurd h hexp

theorem isZero_iff_magnitude : f.isZero = true ↔ f.magnitude = 0 := by
  unfold magnitude
  rw [← significand_eq_zero, Nat.cast_mul, div_eq_zero_iff, mul_eq_zero, Nat.cast_eq_zero]
  constructor
  · intro h
    exact Or.inl (Or.inl h)
  · rintro ((h | h) | h)
    · exact h
    · exact absurd h (Nat.cast_ne_zero.mpr (pow_ne_zero _ two_ne_zero))
    · exact absurd h scale_pos.ne'

theorem finiteValue_inj : f.finiteValue = g.finiteValue ↔ f = g ∨ (f.isZero = true ∧ g.isZero = true) := by
  have hf := f.magnitude_nonneg
  have hg := g.magnitude_nonneg
  rw [isZero_iff_magnitude, isZero_iff_magnitude]
  unfold finiteValue
  constructor
  · intro h
    by_cases hz : f.magnitude = 0 ∧ g.magnitude = 0
    · exact Or.inr hz
    · left
      have hneg : f.negative = g.negative := by
        rw [Bool.eq_iff_iff]
        split_ifs at h <;> simp_all only [true_iff, iff_true, iff_self]
        · exact absurd ⟨by linarith, by linarith⟩ hz
        · exact absurd ⟨by linarith, by linarith⟩ hz
      have hmag : f.magnitude = g.magnitude := by
        split_ifs at h <;> simp_all
      obtain ⟨hexp, hfrac⟩ := magnitude_injective hmag
      exact ext_fields hneg hexp hfrac
  · rintro (rfl | ⟨hf0, hg0⟩)
    · rfl
    · rw [hf0, hg0, neg_zero, ite_self, ite_self]

/-- A double that is a number is an infinity or finite. -/
theorem value_cases (hn : f.isNaN = false) :
    (f.expField = 2047 ∧ f.fracField = 0 ∧ f.negative = true ∧ f.value = ⊥) ∨
      (f.expField = 2047 ∧ f.fracField = 0 ∧ f.negative = false ∧ f.value = ((⊤ : WithTop ℚ) : Extended)) ∨
      (f.expField ≠ 2047 ∧ f.value = ((f.finiteValue : WithTop ℚ) : Extended)) := by
  by_cases hexp : f.expField = 2047
  · have hfrac : f.fracField = 0 := by
      by_contra h
      rw [isNaN_iff.mpr ⟨hexp, h⟩] at hn
      cases hn
    unfold value
    rw [if_pos hexp]
    cases f.negative
    · exact Or.inr (Or.inl ⟨hexp, hfrac, rfl, rfl⟩)
    · exact Or.inl ⟨hexp, hfrac, rfl, rfl⟩
  · exact Or.inr (Or.inr ⟨hexp, value_of_finite hexp⟩)

theorem not_isZero_of_infinite (h : f.expField = 2047) : f.isZero = false := by
  unfold isZero
  rw [h]
  rfl

/-- Two doubles that are numbers are equal when their values are. -/
theorem eq_iff_value (hf : f.isNaN = false) (hg : g.isNaN = false) : f.eq g = true ↔ f.value = g.value := by
  rw [eq_iff hf hg]
  by_cases hfinite : f.expField = 2047 ∨ g.expField = 2047
  · have hzero : ¬(f.isZero = true ∧ g.isZero = true) := by
      rintro ⟨h1, h2⟩
      obtain h | h := hfinite
      · rw [not_isZero_of_infinite h] at h1
        cases h1
      · rw [not_isZero_of_infinite h] at h2
        cases h2
    constructor
    · rintro (rfl | h)
      · rfl
      · exact absurd h hzero
    · intro hv
      left
      obtain ⟨ef, mf, nf, vf⟩ | ⟨ef, mf, nf, vf⟩ | ⟨ef, vf⟩ := value_cases hf <;>
        obtain ⟨eg, mg, ng, vg⟩ | ⟨eg, mg, ng, vg⟩ | ⟨eg, vg⟩ := value_cases hg
      · exact ext_fields (nf.trans ng.symm) (ef.trans eg.symm) (mf.trans mg.symm)
      · rw [vf, vg] at hv
        exact absurd hv (WithBot.bot_ne_coe)
      · rw [vf, vg] at hv
        exact absurd hv (WithBot.bot_ne_coe)
      · rw [vf, vg] at hv
        exact absurd hv.symm (WithBot.bot_ne_coe)
      · exact ext_fields (nf.trans ng.symm) (ef.trans eg.symm) (mf.trans mg.symm)
      · rw [vf, vg] at hv
        exact absurd (WithBot.coe_injective hv) WithTop.top_ne_coe
      · rw [vf, vg] at hv
        exact absurd hv.symm (WithBot.bot_ne_coe)
      · rw [vf, vg] at hv
        exact absurd (WithBot.coe_injective hv).symm WithTop.top_ne_coe
      · exact absurd hfinite (by tauto)
  · obtain ⟨ef, eg⟩ := not_or.mp hfinite
    rw [value_of_finite ef, value_of_finite eg, WithBot.coe_inj, WithTop.coe_inj, finiteValue_inj]

/-! ## Integers as doubles -/

/-- A positive integer with its top bit moved to bit 52. -/
theorem mul_div_log2 {m : ℕ} (hm : m ≠ 0) (hle : m ≤ 2^52) :
    m * 2^52 / 2^(Nat.log2 m) * 2^(Nat.log2 m) = m * 2^52 ∧ Nat.log2 m ≤ 52 ∧
      2^52 ≤ m * 2^52 / 2^(Nat.log2 m) ∧ m * 2^52 / 2^(Nat.log2 m) < 2^53 := by
  have hlog : Nat.log2 m ≤ 52 := by
    by_contra h
    have := Nat.log2_self_le hm
    have : 2^53 ≤ 2^(Nat.log2 m) := Nat.pow_le_pow_right (by omega) (by omega)
    omega
  have hdvd : 2^(Nat.log2 m) ∣ m * 2^52 := Dvd.dvd.mul_left (Nat.pow_dvd_pow 2 hlog) m
  have hpos : 0 < 2^(Nat.log2 m) := by positivity
  have hlo := Nat.log2_self_le hm
  have hhi : m < 2^(Nat.log2 m + 1) := Nat.lt_log2_self
  refine ⟨Nat.div_mul_cancel hdvd, hlog, ?_, ?_⟩
  · rw [Nat.le_div_iff_mul_le hpos, Nat.mul_comm]
    exact Nat.mul_le_mul_right _ hlo
  · rw [Nat.div_lt_iff_lt_mul hpos]
    calc m * 2^52 < 2^(Nat.log2 m + 1) * 2^52 := Nat.mul_lt_mul_of_pos_right hhi (by norm_num)
      _ = 2^53 * 2^(Nat.log2 m) := by ring

/-- The magnitude of the double of an integer is the integer. -/
theorem magnitude_ofWhole (neg : Bool) {m : ℕ} (hle : m ≤ 2^52) :
    (ofWhole neg m).negative = neg ∧ (ofWhole neg m).expField ≠ 2047 ∧ (ofWhole neg m).magnitude = m := by
  by_cases hm : m = 0
  · subst hm
    obtain ⟨h1, h2, h3⟩ := fields_mk neg (show 0 < 2048 by norm_num) (show 0 < 2^52 by norm_num)
    have hmk : ofWhole neg 0 = ⟨BitVec.ofNat 64 ((if neg then 2^63 else 0) + (0 * 2^52 + 0))⟩ := rfl
    rw [← hmk] at h1 h2 h3
    refine ⟨h1, by omega, ?_⟩
    unfold magnitude significand
    rw [if_pos h2, h3, Nat.zero_mul, Nat.cast_zero, zero_div]
  · obtain ⟨hmul, hlog, hlo, hhi⟩ := mul_div_log2 hm hle
    generalize hs : m * 2^52 / 2^(Nat.log2 m) = s at hmul hlo hhi
    obtain ⟨h1, h2, h3⟩ := fields_mk neg (show Nat.log2 m + 1023 < 2048 by omega) (show s - 2^52 < 2^52 by omega)
    have hmk : ofWhole neg m =
        ⟨BitVec.ofNat 64 ((if neg then 2^63 else 0) + ((Nat.log2 m + 1023) * 2^52 + (s - 2^52)))⟩ := by
      unfold ofWhole
      rw [if_neg hm, hs, show (Nat.log2 m + 1022) * 2^52 + s = (Nat.log2 m + 1023) * 2^52 + (s - 2^52) by omega]
    rw [← hmk] at h1 h2 h3
    refine ⟨h1, by omega, ?_⟩
    have hunits : ∀ k, 52 + k = 1075 → s * 2^(Nat.log2 m + k) = m * scale := fun k hk => by
      rw [Nat.pow_add, ← Nat.mul_assoc, hmul, Nat.mul_assoc, scale_eq hk]
    unfold magnitude significand
    rw [h2, h3, if_neg (by omega), Nat.sub_add_cancel hlo, max_eq_left (by omega),
      hunits 1023 (by norm_num), Nat.cast_mul, mul_div_cancel_right₀ _ scale_pos.ne']

/-! ## Rounding to integers -/

theorem finiteValue_nonpos (h : f.negative = true) : f.finiteValue ≤ 0 := by
  unfold finiteValue
  rw [if_pos h]
  linarith [f.magnitude_nonneg]

theorem finiteValue_nonneg (h : f.negative = false) : 0 ≤ f.finiteValue := by
  unfold finiteValue
  rw [if_neg (by rw [h]; decide)]
  exact f.magnitude_nonneg

/-- With 53 bits before the point there are none behind it. -/
theorem magnitude_of_large (h : 1075 ≤ f.expField) :
    f.magnitude = ((f.significand * 2^(f.expField - 1075) : ℕ) : ℚ) := by
  obtain ⟨k, hk⟩ : ∃ k, k = f.expField - 1075 := ⟨_, rfl⟩
  obtain ⟨n, hn⟩ : ∃ n, 0 + n = 1075 := ⟨1075, by norm_num⟩
  have hunits : f.significand * 2^(max f.expField 1) = f.significand * 2^k * scale := by
    rw [scale_eq hn, show max f.expField 1 = k + n by omega, Nat.pow_add, pow_zero, Nat.one_mul, Nat.mul_assoc]
  unfold magnitude
  rw [hunits, Nat.cast_mul _ scale, mul_div_cancel_right₀ _ scale_pos.ne', hk]

theorem magnitude_lt (h : f.expField < 1075) : f.magnitude < 2^52 := by
  have hsig := f.significand_lt
  have hpow : ∀ k, k + 1 = 1075 → 2^(max f.expField 1) * 2 ≤ scale := fun k hk => by
    rw [scale_eq hk, pow_one]
    exact Nat.mul_le_mul_right 2 (Nat.pow_le_pow_right (by norm_num) (by omega))
  have hunits : f.significand * 2^(max f.expField 1) < 2^52 * scale := by
    calc f.significand * 2^(max f.expField 1) < 2^53 * 2^(max f.expField 1) :=
          Nat.mul_lt_mul_of_pos_right hsig (by positivity)
      _ = 2^52 * (2^(max f.expField 1) * 2) := by ring
      _ ≤ 2^52 * scale := Nat.mul_le_mul_left _ (hpow 1074 (by norm_num))
  unfold magnitude
  rw [div_lt_iff₀ scale_pos]
  exact_mod_cast hunits

theorem finiteValue_eq_int_of_large (h : 1075 ≤ f.expField) : ∃ k : ℤ, f.finiteValue = k := by
  unfold finiteValue
  rw [magnitude_of_large h]
  split_ifs
  · exact ⟨-(f.significand * 2^(f.expField - 1075) : ℕ), by rw [Int.cast_neg, Int.cast_natCast]⟩
  · exact ⟨(f.significand * 2^(f.expField - 1075) : ℕ), by rw [Int.cast_natCast]⟩

/-- The double of an integer has its value. -/
theorem ofWhole_spec {neg : Bool} {k : ℤ} (hle : k.natAbs ≤ 2^52) (hneg : neg = true → k ≤ 0)
    (hpos : neg = false → 0 ≤ k) :
    (ofWhole neg k.natAbs).expField ≠ 2047 ∧ (ofWhole neg k.natAbs).finiteValue = k := by
  obtain ⟨hsign, hexp, hmag⟩ := magnitude_ofWhole neg hle
  refine ⟨hexp, ?_⟩
  unfold finiteValue
  rw [hsign, hmag]
  cases neg
  · have := hpos rfl
    rw [if_neg (by decide), ← Int.cast_natCast, Int.natAbs_of_nonneg this]
  · have := hneg rfl
    rw [if_pos rfl, ← Int.cast_natCast, Int.ofNat_natAbs_of_nonpos this, Int.cast_neg, neg_neg]

theorem abs_finiteValue (f : F64) : |f.finiteValue| = f.magnitude := by
  unfold finiteValue
  split_ifs
  · rw [abs_neg, abs_of_nonneg f.magnitude_nonneg]
  · exact abs_of_nonneg f.magnitude_nonneg

/-- Below `2^52` the value is between `-2^52` and `2^52`. -/
theorem finiteValue_bounds (hlarge : ¬ 1075 ≤ f.expField) : -2^52 < f.finiteValue ∧ f.finiteValue < 2^52 := by
  have hlt := magnitude_lt (not_le.mp hlarge)
  rw [← f.abs_finiteValue, abs_lt] at hlt
  exact hlt

theorem floor_spec (hf : f.expField ≠ 2047) :
    f.floor.expField ≠ 2047 ∧ f.floor.finiteValue = (⌊f.finiteValue⌋ : ℤ) := by
  unfold floor
  split_ifs with hlarge
  · obtain ⟨k, hk⟩ := finiteValue_eq_int_of_large hlarge
    rw [hk, Int.floor_intCast]
    exact ⟨hf, rfl⟩
  · obtain ⟨hmin, hmax⟩ := finiteValue_bounds hlarge
    have hlo : -2^52 ≤ ⌊f.finiteValue⌋ := Int.le_floor.mpr (by push_cast; exact hmin.le)
    have hhi : ⌊f.finiteValue⌋ < 2^52 := Int.floor_lt.mpr (by push_cast; exact hmax)
    exact ofWhole_spec (by omega) (fun h => Int.floor_nonpos (finiteValue_nonpos h))
      fun h => Int.floor_nonneg.mpr (finiteValue_nonneg h)

theorem ceil_spec (hf : f.expField ≠ 2047) :
    f.ceil.expField ≠ 2047 ∧ f.ceil.finiteValue = (⌈f.finiteValue⌉ : ℤ) := by
  unfold ceil
  split_ifs with hlarge
  · obtain ⟨k, hk⟩ := finiteValue_eq_int_of_large hlarge
    rw [hk, Int.ceil_intCast]
    exact ⟨hf, rfl⟩
  · obtain ⟨hmin, hmax⟩ := finiteValue_bounds hlarge
    have hlo : -2^52 < ⌈f.finiteValue⌉ := Int.lt_ceil.mpr (by push_cast; exact hmin)
    have hhi : ⌈f.finiteValue⌉ ≤ 2^52 := Int.ceil_le.mpr (by push_cast; exact hmax.le)
    exact ofWhole_spec (by omega) (fun h => Int.ceil_le.mpr (by exact_mod_cast finiteValue_nonpos h))
      fun h => Int.ceil_nonneg (finiteValue_nonneg h)

theorem floor_of_infinite (h : f.expField = 2047) : f.floor = f := by
  unfold floor
  rw [if_pos (by omega)]

/-- A double whose value is an integer in the range is truncated to it. -/
theorem truncI64_of_int {k : ℤ} (hf : f.expField ≠ 2047) (hv : f.finiteValue = k) (hlo : -2^63 ≤ k)
    (hhi : k < 2^63) : f.truncI64 = .ok (Int64.ofInt k) := by
  have htrunc : (if f.negative then -⌊f.magnitude⌋ else ⌊f.magnitude⌋) = k := by
    unfold finiteValue at hv
    split_ifs at hv ⊢
    · rw [show f.magnitude = ((-k : ℤ) : ℚ) by push_cast; linarith, Int.floor_intCast, neg_neg]
    · rw [hv, Int.floor_intCast]
  unfold truncI64
  dsimp only
  rw [htrunc, if_pos ⟨hf, hlo, hhi⟩]

/-! ## The integral value of a table key -/

/-- `wholeMagnitude` is the magnitude, when that is an integer. -/
theorem wholeMagnitude_iff {m : ℕ} : f.wholeMagnitude = some m ↔ f.magnitude = m := by
  unfold wholeMagnitude
  split_ifs with hlarge hmod
  · rw [magnitude_of_large hlarge, Option.some_inj, Nat.cast_inj]
  all_goals
    obtain ⟨d, hd⟩ : ∃ d, d = 1075 - max f.expField 1 := ⟨_, rfl⟩
    rw [← hd] at hmod
    have hscale : scale = 2^(max f.expField 1) * 2^d := scale_eq (by omega)
    have hmag : f.magnitude = m ↔ f.significand = m * 2^d := by
      unfold magnitude
      rw [div_eq_iff scale_pos.ne', hscale, ← Nat.cast_mul, Nat.cast_inj, Nat.mul_comm,
        show m * (2^(max f.expField 1) * 2^d) = 2^(max f.expField 1) * (m * 2^d) by ring]
      exact Nat.mul_right_inj (by positivity)
    rw [hmag]
  · rw [← hd, Option.some_inj, Nat.div_eq_iff_eq_mul_left (by positivity) (Nat.dvd_of_mod_eq_zero hmod)]
  · constructor
    · intro h
      cases h
    · intro h
      rw [h, Nat.mul_mod_left] at hmod
      exact absurd rfl hmod

theorem whole_iff {v : ℤ} (hf : f.expField ≠ 2047) : f.whole = some v ↔ f.finiteValue = v := by
  have habs := f.magnitude_nonneg
  unfold whole finiteValue
  rw [if_neg hf, Option.map_eq_some_iff]
  simp only [Option.bind_eq_bind, Option.bind_eq_some_iff, Option.pure_def, Option.some_inj, wholeMagnitude_iff]
  cases f.negative
  · simp only [Bool.false_eq_true, if_false]
    constructor
    · rintro ⟨-, ⟨m, hm, rfl⟩, rfl⟩
      rw [hm, Int.cast_natCast]
    · intro h
      have hv : 0 ≤ v := by
        rw [h] at habs
        exact_mod_cast habs
      refine ⟨v, ⟨v.toNat, ?_, Int.toNat_of_nonneg hv⟩, rfl⟩
      rw [h, ← Int.cast_natCast, Int.toNat_of_nonneg hv]
  · simp only [if_true]
    constructor
    · rintro ⟨-, ⟨m, hm, rfl⟩, rfl⟩
      rw [hm, Int.cast_neg, Int.cast_natCast]
    · intro h
      have hm : f.magnitude = ((-v : ℤ) : ℚ) := by
        rw [Int.cast_neg, ← h, neg_neg]
      have hv : 0 ≤ -v := by
        rw [hm] at habs
        exact_mod_cast habs
      refine ⟨-v, ⟨(-v).toNat, ?_, Int.toNat_of_nonneg hv⟩, neg_neg v⟩
      rw [hm, ← Int.cast_natCast, Int.toNat_of_nonneg hv]

/-- The integer that a double denotes as a table key is its value. -/
theorem toI64_iff {i : Int64} (hn : f.isNaN = false) :
    f.toI64 = some i ↔ f.value = (((i.toInt : ℚ) : WithTop ℚ) : Extended) := by
  unfold toI64
  obtain ⟨hexp, -, -, hv⟩ | ⟨hexp, -, -, hv⟩ | ⟨hf, hv⟩ := value_cases hn
  · have hw : f.whole = none := if_pos hexp
    rw [hw, hv]
    exact ⟨fun h => (by cases h), fun h => absurd h WithBot.bot_ne_coe⟩
  · have hw : f.whole = none := if_pos hexp
    rw [hw, hv]
    exact ⟨fun h => (by cases h), fun h => absurd (WithBot.coe_injective h) WithTop.top_ne_coe⟩
  · rw [hv, WithBot.coe_inj, WithTop.coe_inj, ← whole_iff hf]
    have hlo := i.le_toInt
    have hhi := i.toInt_lt
    cases f.whole with
    | none => simp
    | some v =>
      dsimp only
      rw [Option.some_inj]
      constructor
      · intro h
        split_ifs at h with hrange
        rw [Option.some_inj] at h
        rw [← h, Int64.toInt_ofInt_of_le hrange.1 hrange.2]
      · intro h
        rw [h, if_pos (by omega), Int64.ofInt_toInt]

end F64

end Lua2wasm
