import Lua2wasm.Arith.Float
import Lua2wasm.Lib.RoundEven

/-!
# The double nearest to a number

`F64.rounded` is the double that a decimal literal gives, rounded half to even. A number that is as near to a double
as 17 significant digits are gives this double back (`F64.rounded_of_near`): these digits are off by half of
`10^(-16)` in proportion, and the next double is farther away than `2^(-53)`.
-/

namespace Lua2wasm

namespace F64

open Rounding

/-- The double nearest to a number that is not negative, with a sign. The units of its binade are counted, and when
they are too many the next exponent comes out by itself. From half a unit above the largest double on it is
infinite. -/
def rounded (neg : Bool) (q : ℚ) : F64 :=
  let e := (max 1 (Int.log 2 q + 1023)).toNat
  let m := (roundEven (q * 2^(1075 - (e : ℤ)))).toNat
  let bits := if q = 0 then 0 else (e - 1) * 2^52 + m
  ⟨BitVec.ofNat 64 ((if neg then 2^63 else 0) + min bits (2047 * 2^52))⟩

section

variable {x : F64} {q : ℚ}

/-- The bits without the sign, as an exponent and units of it. -/
theorem bits_units (x : F64) :
    x.bits.toNat = (if x.negative then 2^63 else 0) + ((max x.expField 1 - 1) * 2^52 + x.significand) := by
  rw [x.bits_eq]
  by_cases h0 : x.expField = 0
  · have hsig : x.significand = x.fracField := if_pos h0
    rw [hsig, h0]
    omega
  · have hsig : x.significand = x.fracField + 2^52 := if_neg h0
    obtain ⟨k, hk⟩ : ∃ k, x.expField = k + 1 := ⟨x.expField - 1, by omega⟩
    rw [hsig, hk, max_eq_left (by omega), Nat.add_sub_cancel]
    ring

theorem magnitude_units (x : F64) : x.magnitude = x.significand * (2 : ℚ)^((max x.expField 1 : ℕ) - 1075 : ℤ) := by
  obtain ⟨n, hn⟩ : ∃ n, 0 + n = 1075 := ⟨1075, by norm_num⟩
  have hscale := scale_eq hn
  rw [pow_zero, Nat.one_mul] at hscale
  rw [show ((max x.expField 1 : ℕ) : ℤ) - 1075 = (max x.expField 1 : ℕ) - (n : ℤ) by omega, zpow_sub₀ (by norm_num),
    zpow_natCast, zpow_natCast]
  unfold magnitude
  rw [hscale]
  push_cast
  rw [mul_div_assoc]

/-- A normal double has the top bit of its significand set. -/
theorem significand_ge (h : 2 ≤ max x.expField 1) : 2^52 ≤ x.significand := by
  unfold significand
  rw [if_neg (by omega)]
  omega

/-- What is counted in units of the double's own exponent, or of the one below for a power of two. -/
theorem rounded_units {e : ℕ} {s : ℕ} (hq : q ≠ 0) (he : max 1 (Int.log 2 q + 1023) = (e : ℤ))
    (hs : |q * 2^(1075 - (e : ℤ)) - s| < 1 / 2) (hfinite : (e - 1) * 2^52 + s ≤ 2047 * 2^52) (neg : Bool) :
    rounded neg q = ⟨BitVec.ofNat 64 ((if neg then 2^63 else 0) + ((e - 1) * 2^52 + s))⟩ := by
  have hround : roundEven (q * 2^(1075 - (e : ℤ))) = s := by
    apply roundEven_unique
    · rw [Int.cast_natCast]
      exact hs.le
    · rw [Int.cast_natCast]
      exact fun h => absurd h hs.ne
  unfold rounded
  dsimp only
  rw [he, Int.toNat_natCast, hround, Int.toNat_natCast, if_neg hq, Nat.min_eq_left hfinite]

/-- The double from its exponent and its significand. -/
theorem eq_units (x : F64) : x = ⟨BitVec.ofNat 64 ((if x.negative then 2^63 else 0) +
    ((max x.expField 1 - 1) * 2^52 + x.significand))⟩ := by
  rw [← bits_units, BitVec.ofNat_toNat, BitVec.setWidth_eq]

/-- What is below a power of two in units of an exponent. -/
theorem units_lt_iff (hq : 0 < q) {a : ℤ} {k : ℕ} : q * 2^(1075 - a) < 2^k ↔ Int.log 2 q < k + a - 1075 := by
  have hpos : (0 : ℚ) < 2^(1075 - a) := zpow_pos (by norm_num) _
  rw [← Int.lt_zpow_iff_log_lt (by norm_num) hq, Nat.cast_ofNat, ← zpow_natCast, ← lt_div_iff₀ hpos,
    ← zpow_sub₀ (by norm_num), show (k : ℤ) - (1075 - a) = k + a - 1075 by ring]

/-- The distance from a double, in its own units. -/
theorem near_units (h : |q - x.magnitude| ≤ x.magnitude * 10^(-16 : ℤ) / 2) :
    |q * 2^(1075 - ((max x.expField 1 : ℕ) : ℤ)) - x.significand| ≤ x.significand / 20000000000000000 := by
  have hunits := x.magnitude_units
  generalize max x.expField 1 = E at *
  have hpos : (0 : ℚ) < 2^(1075 - (E : ℤ)) := zpow_pos (by norm_num) _
  have hmag : x.magnitude * 2^(1075 - (E : ℤ)) = x.significand := by
    rw [hunits, mul_assoc, ← zpow_add₀ (by norm_num)]
    norm_num
  calc |q * 2^(1075 - (E : ℤ)) - x.significand|
    _ = |q - x.magnitude| * 2^(1075 - (E : ℤ)) := by rw [← hmag, ← sub_mul, abs_mul, abs_of_pos hpos]
    _ ≤ x.magnitude * 10^(-16 : ℤ) / 2 * 2^(1075 - (E : ℤ)) := mul_le_mul_of_nonneg_right h hpos.le
    _ = x.significand / 20000000000000000 := by
      rw [← hmag]
      norm_num
      ring

/-- A zero has no other number near. -/
theorem rounded_near_zero (hzero : x.significand = 0) (h : |q - x.magnitude| ≤ x.magnitude * 10^(-16 : ℤ) / 2) :
    rounded x.negative q = x := by
  have hmag : x.magnitude = 0 := by
    rw [magnitude_units, hzero, Nat.cast_zero, zero_mul]
  have hq : q = 0 := by
    rw [hmag, sub_zero, zero_mul, zero_div] at h
    exact abs_eq_zero.mp (le_antisymm h (abs_nonneg q))
  have hE : max x.expField 1 = 1 := by
    by_contra hne
    have := @significand_ge x (by omega)
    omega
  have hmk := eq_units x
  rw [hE, hzero] at hmk
  unfold rounded
  rw [hq]
  exact hmk.symm

/-- Just below a power of two the units are half of the double's own, and twice as many. -/
theorem rounded_near_power {k : ℕ} (hq : 0 < q) (hexp : max x.expField 1 = k + 1) (hfinite : k + 1 ≤ 2046)
    (hpow : x.significand = 2^52) (hk : max 1 (Int.log 2 q + 1023) = (k : ℤ))
    (hnear : |q * 2^(1075 - ((k + 1 : ℕ) : ℤ)) - x.significand| ≤ x.significand / 20000000000000000) :
    rounded x.negative q = x := by
  have htwice : q * 2^(1075 - (k : ℤ)) = 2 * (q * 2^(1075 - ((k + 1 : ℕ) : ℤ))) := by
    rw [show 1075 - (k : ℤ) = 1 + (1075 - ((k + 1 : ℕ) : ℤ)) by push_cast; ring, zpow_add₀ (by norm_num), zpow_one]
    ring
  have hs : |q * 2^(1075 - (k : ℤ)) - (2^53 : ℕ)| < 1 / 2 := by
    have := abs_le.mp hnear
    rw [hpow] at this
    rw [htwice, abs_lt]
    push_cast at this ⊢
    constructor <;> linarith
  have hsum : (k - 1) * 2^52 + 2^53 = k * 2^52 + 2^52 := by
    obtain ⟨i, rfl⟩ : ∃ i, k = i + 1 := ⟨k - 1, by omega⟩
    rw [Nat.add_sub_cancel]
    ring
  have hbound : (k - 1) * 2^52 + 2^53 ≤ 2047 * 2^52 := by
    rw [hsum, ← Nat.succ_mul]
    exact Nat.mul_le_mul_right _ (by omega)
  have hmk := eq_units x
  rw [hexp, hpow, Nat.add_sub_cancel, ← hsum, ← rounded_units hq.ne' hk hs hbound] at hmk
  exact hmk.symm

/-- A number this near to a double is rounded to it. -/
theorem rounded_of_near (hx : x.expField ≠ 2047) (h : |q - x.magnitude| ≤ x.magnitude * 10^(-16 : ℤ) / 2) :
    rounded x.negative q = x := by
  have hexp := x.expField_lt
  have hsig := x.significand_lt
  by_cases hzero : x.significand = 0
  · exact rounded_near_zero hzero h
  have hnear := near_units h
  have hge := @significand_ge x
  have hmk := eq_units x
  generalize hE : max x.expField 1 = E at *
  obtain ⟨r, hr⟩ : ∃ r : ℚ, r = q * 2^(1075 - (E : ℤ)) := ⟨_, rfl⟩
  have hs0 : (1 : ℚ) ≤ x.significand := by exact_mod_cast Nat.pos_of_ne_zero hzero
  have hs1 : (x.significand : ℚ) + 1 ≤ 2^53 := by exact_mod_cast hsig
  have hbounds := abs_le.mp hnear
  rw [← hr] at hbounds
  have hrpos : 0 < r := by linarith
  have hq : 0 < q := by
    rw [hr] at hrpos
    exact pos_of_mul_pos_left hrpos (zpow_pos (by norm_num) _).le
  have hlog : ∀ k : ℕ, r < 2^k ↔ Int.log 2 q < k + E - 1075 := by
    intro k
    rw [hr]
    exact units_lt_iff hq
  have hlogle := (hlog 53).mp (by linarith)
  by_cases hsame : max 1 (Int.log 2 q + 1023) = (E : ℤ)
  · -- the exponent of the double
    have hs : |q * 2^(1075 - (E : ℤ)) - x.significand| < 1 / 2 := by
      rw [← hr, abs_lt]
      constructor <;> linarith
    rw [rounded_units hq.ne' hsame hs (by omega)]
    exact hmk.symm
  · -- the double is a power of two, and the number just below it
    have hge : (2 : ℚ)^52 ≤ x.significand := by exact_mod_cast hge (by omega)
    have hrlt : r < 2^52 := (hlog 52).mpr (by omega)
    have hpow : x.significand = 2^52 := by
      have hlt : (x.significand : ℚ) < (2^52 + 1 : ℕ) := by
        push_cast
        linarith
      have hlt' : x.significand < 2^52 + 1 := by exact_mod_cast hlt
      omega
    have hlogge := mt (hlog 51).mpr (by linarith)
    obtain ⟨k, rfl⟩ : ∃ k, E = k + 1 := ⟨E - 1, by omega⟩
    exact rounded_near_power hq hE (by omega) hpow (by omega) hnear

end

end F64

end Lua2wasm
