import Mathlib
import Lua2wasm.Lib.RoundEven

/-!
# Significant digits

Rounding a positive rational number to a number of significant decimal digits, for any way to round to a nearest
integer: `significant`. The digits are as many as were asked for (`significant_bounds`), they are near
(`significant_near`), and rounding to the decimals that they have gives them again (`significant_fixed`).

Two ways to round differ only half way between two integers: `roundUp` takes the larger one, and differs from
`roundEven` exactly where the smaller one is even (`roundUp_of_tie`, `roundUp_of_not_tie`).
-/

namespace Rounding

/-- The nearest integer, and the larger one of two. -/
def roundUp (r : ℚ) : ℤ := ⌊r + 1 / 2⌋

/-- Half way above an even integer. -/
def EvenTie (r : ℚ) : Prop := Int.fract r = 1 / 2 ∧ Even ⌊r⌋

instance (r : ℚ) : Decidable (EvenTie r) := inferInstanceAs (Decidable (_ ∧ _))

/-- No integer is nearer than the one that is taken. -/
def IsNearest (rnd : ℚ → ℤ) : Prop := ∀ r, |r - rnd r| ≤ 1 / 2

section

variable {r : ℚ} {z : ℤ}

theorem roundUp_of_not_tie (h : ¬EvenTie r) : roundUp r = roundEven r := by
  have hfract := Int.self_sub_floor r
  have hlo := Int.fract_nonneg r
  have hhi := Int.fract_lt_one r
  unfold roundUp
  rw [Int.floor_eq_iff]
  unfold roundEven
  split_ifs with h₁ h₂ h₃
  · constructor <;> linarith
  · push_cast
    constructor <;> linarith
  · exact absurd ⟨by linarith, h₃⟩ h
  · push_cast
    constructor <;> linarith

/-- At a tie above an even integer, one of them is taken and then the other. -/
theorem roundUp_of_tie (h : EvenTie r) : roundEven r = ⌊r⌋ ∧ roundUp r = ⌊r⌋ + 1 := by
  have hfract := Int.self_sub_floor r
  obtain ⟨hhalf, heven⟩ := h
  constructor
  · unfold roundEven
    rw [if_neg (by linarith), if_neg (by linarith), if_pos heven]
  · unfold roundUp
    rw [Int.floor_eq_iff]
    push_cast
    constructor <;> linarith

theorem isNearest_roundEven : IsNearest roundEven := roundEven_near

theorem isNearest_roundUp : IsNearest roundUp := by
  intro r
  have hlo := Int.floor_le (r + 1 / 2)
  have hhi := Int.lt_floor_add_one (r + 1 / 2)
  unfold roundUp
  rw [abs_le]
  constructor <;> linarith

variable {rnd : ℚ → ℤ}

/-- Rounding does not pass an integer. -/
theorem IsNearest.le (h : IsNearest rnd) (hz : (z : ℚ) ≤ r) : z ≤ rnd r := by
  have hnear := abs_le.mp (h r)
  have hlt : (z : ℚ) < rnd r + 1 := by linarith
  have hlt' : z < rnd r + 1 := by exact_mod_cast hlt
  omega

theorem IsNearest.ge (h : IsNearest rnd) (hz : r ≤ (z : ℚ)) : rnd r ≤ z := by
  have hnear := abs_le.mp (h r)
  have hlt : (rnd r : ℚ) < z + 1 := by linarith
  have hlt' : rnd r < z + 1 := by exact_mod_cast hlt
  omega

/-- An integer that is strictly nearest is the one. -/
theorem IsNearest.eq (h : IsNearest rnd) (hz : |r - z| < 1 / 2) : rnd r = z := by
  have hnear := abs_le.mp (h r)
  have hz' := abs_lt.mp hz
  have h₁ : (rnd r : ℚ) < z + 1 := by linarith
  have h₂ : (z : ℚ) < rnd r + 1 := by linarith
  have h₁' : rnd r < z + 1 := by exact_mod_cast h₁
  have h₂' : z < rnd r + 1 := by exact_mod_cast h₂
  omega

end

/-! ## A number of digits -/

/-- A number in units of its `p`-th significant digit. -/
def inUnits (p : ℕ) (x : ℚ) : ℚ := x * 10^((p : ℤ) - 1 - Int.log 10 x)

/-- A positive number with `p` significant digits: the exponent of the first one, and all of them as a number. A
number that is rounded to the next power of ten has one digit too many, a zero. -/
def significant (rnd : ℚ → ℤ) (p : ℕ) (x : ℚ) : ℤ × ℕ :=
  let n := (rnd (inUnits p x)).toNat
  if n = 10^p then (Int.log 10 x + 1, 10^(p - 1)) else (Int.log 10 x, n)

section

variable {rnd : ℚ → ℤ} {p : ℕ} {x : ℚ}

theorem pow_pred (hp : 1 ≤ p) : ((10^(p - 1) : ℕ) : ℚ) = 10^((p : ℤ) - 1) := by
  obtain ⟨k, rfl⟩ : ∃ k, p = k + 1 := ⟨p - 1, by omega⟩
  rw [Nat.add_sub_cancel, Nat.cast_add, Nat.cast_one, add_sub_cancel_right, zpow_natCast]
  norm_cast

/-- In these units the number has `p` digits before the point. -/
theorem inUnits_bounds (hx : 0 < x) : (10 : ℚ)^((p : ℤ) - 1) ≤ inUnits p x ∧ inUnits p x < 10^(p : ℤ) := by
  have hlo : (10 : ℚ)^Int.log 10 x ≤ x := by exact_mod_cast Int.zpow_log_le_self (by norm_num : 1 < 10) hx
  have hhi : x < (10 : ℚ)^(Int.log 10 x + 1) := by exact_mod_cast Int.lt_zpow_succ_log_self (by norm_num : 1 < 10) x
  have hpos : (0 : ℚ) < 10^((p : ℤ) - 1 - Int.log 10 x) := zpow_pos (by norm_num) _
  unfold inUnits
  constructor
  · calc (10 : ℚ)^((p : ℤ) - 1) = 10^Int.log 10 x * 10^((p : ℤ) - 1 - Int.log 10 x) := by
          rw [← zpow_add₀ (by norm_num)]
          congr 1
          ring
      _ ≤ x * 10^((p : ℤ) - 1 - Int.log 10 x) := mul_le_mul_of_nonneg_right hlo hpos.le
  · calc x * 10^((p : ℤ) - 1 - Int.log 10 x) < 10^(Int.log 10 x + 1) * 10^((p : ℤ) - 1 - Int.log 10 x) :=
          mul_lt_mul_of_pos_right hhi hpos
      _ = 10^(p : ℤ) := by
          rw [← zpow_add₀ (by norm_num)]
          congr 1
          ring

/-- Rounded, it has them still, or is the next power of ten. -/
theorem rounded_bounds (hrnd : IsNearest rnd) (hp : 1 ≤ p) (hx : 0 < x) :
    10^(p - 1) ≤ (rnd (inUnits p x)).toNat ∧ (rnd (inUnits p x)).toNat ≤ 10^p ∧
      ((rnd (inUnits p x)).toNat : ℤ) = rnd (inUnits p x) := by
  obtain ⟨hlo, hhi⟩ := @inUnits_bounds p x hx
  rw [← pow_pred hp] at hlo
  rw [zpow_natCast] at hhi
  have h₁ : ((10^(p - 1) : ℕ) : ℤ) ≤ rnd (inUnits p x) := hrnd.le (by exact_mod_cast hlo)
  have h₂ : rnd (inUnits p x) ≤ ((10^p : ℕ) : ℤ) := hrnd.ge (by push_cast; exact hhi.le)
  have hnonneg : 0 ≤ rnd (inUnits p x) := (Int.natCast_nonneg _).trans h₁
  rw [Int.le_toNat hnonneg, Int.toNat_le, Int.toNat_of_nonneg hnonneg]
  exact ⟨h₁, h₂, rfl⟩

/-- There are `p` digits. -/
theorem significant_bounds (hrnd : IsNearest rnd) (hp : 1 ≤ p) (hx : 0 < x) :
    10^(p - 1) ≤ (significant rnd p x).2 ∧ (significant rnd p x).2 < 10^p := by
  obtain ⟨hlo, hhi, -⟩ := rounded_bounds hrnd hp hx
  have hlt : 10^(p - 1) < 10^p := Nat.pow_lt_pow_right (by norm_num) (by omega)
  unfold significant
  dsimp only
  split_ifs with h
  · exact ⟨le_rfl, hlt⟩
  · exact ⟨hlo, by omega⟩

/-- The value of the digits, in units of the `p`-th digit of the number itself. -/
theorem significant_value (hrnd : IsNearest rnd) (hp : 1 ≤ p) (hx : 0 < x) :
    ((significant rnd p x).2 : ℚ) * 10^((significant rnd p x).1 + 1 - p) =
      (rnd (inUnits p x) : ℚ) * 10^(Int.log 10 x + 1 - p) := by
  obtain ⟨-, -, hcast⟩ := rounded_bounds hrnd hp hx
  have hcast' : ((rnd (inUnits p x)).toNat : ℚ) = (rnd (inUnits p x) : ℚ) := by exact_mod_cast hcast
  unfold significant
  dsimp only
  split_ifs with h
  · rw [← hcast', h, pow_pred hp]
    push_cast
    rw [← zpow_natCast, ← zpow_add₀ (by norm_num), ← zpow_add₀ (by norm_num)]
    congr 1
    ring
  · rw [hcast']

/-- The digits are near the number, in proportion to it. -/
theorem significant_near (hrnd : IsNearest rnd) (hp : 1 ≤ p) (hx : 0 < x) :
    |x - (significant rnd p x).2 * 10^((significant rnd p x).1 + 1 - p)| ≤ x * 10^(1 - (p : ℤ)) / 2 := by
  have hnear := hrnd (inUnits p x)
  have hpos : (0 : ℚ) < 10^(Int.log 10 x + 1 - p) := zpow_pos (by norm_num) _
  have hlo : (10 : ℚ)^Int.log 10 x ≤ x := by exact_mod_cast Int.zpow_log_le_self (by norm_num : 1 < 10) hx
  have hx' : x = inUnits p x * 10^(Int.log 10 x + 1 - p) := by
    unfold inUnits
    rw [mul_assoc, ← zpow_add₀ (by norm_num), show (p : ℤ) - 1 - Int.log 10 x + (Int.log 10 x + 1 - p) = 0 by ring,
      zpow_zero, mul_one]
  rw [significant_value hrnd hp hx]
  calc |x - (rnd (inUnits p x) : ℚ) * 10^(Int.log 10 x + 1 - p)|
      = |(inUnits p x - rnd (inUnits p x)) * 10^(Int.log 10 x + 1 - p)| := by
        congr 1
        rw [sub_mul, ← hx']
    _ = |inUnits p x - rnd (inUnits p x)| * 10^(Int.log 10 x + 1 - p) := by rw [abs_mul, abs_of_pos hpos]
    _ ≤ 1 / 2 * 10^(Int.log 10 x + 1 - p) := mul_le_mul_of_nonneg_right hnear hpos.le
    _ = 10^Int.log 10 x * 10^(1 - (p : ℤ)) / 2 := by
        rw [← zpow_add₀ (by norm_num), add_sub_assoc]
        ring
    _ ≤ x * 10^(1 - (p : ℤ)) / 2 := by
        have hpos' : (0 : ℚ) < 10^(1 - (p : ℤ)) := zpow_pos (by norm_num) _
        have := mul_le_mul_of_nonneg_right hlo hpos'.le
        linarith

/-- Rounding to as many decimals as the significant digits have gives these digits. -/
theorem significant_fixed (hrnd : IsNearest rnd) (hp : 1 ≤ p) (hx : 0 < x) {d : ℕ}
    (hd : (d : ℤ) = (p : ℤ) - 1 - (significant rnd p x).1) : rnd (x * 10^d) = (significant rnd p x).2 := by
  obtain ⟨-, -, hcast⟩ := rounded_bounds hrnd hp hx
  rw [← zpow_natCast, hd]
  unfold significant
  dsimp only
  split_ifs with h
  · -- a tenth of a number that is rounded to a power of ten
    have hnear := abs_le.mp (hrnd (inUnits p x))
    have hten : (rnd (inUnits p x) : ℚ) = 10^(p : ℤ) := by
      rw [← hcast, h]
      push_cast
      rw [zpow_natCast]
    have hunits : x * 10^((p : ℤ) - 1 - (Int.log 10 x + 1)) = inUnits p x / 10 := by
      unfold inUnits
      rw [← sub_sub, zpow_sub_one₀ (by norm_num)]
      ring
    have hpow : (10 : ℚ)^(p : ℤ) = 10 * ((10^(p - 1) : ℕ) : ℚ) := by
      rw [pow_pred hp, ← zpow_one_add₀ (by norm_num)]
      congr 1
      ring
    apply hrnd.eq
    rw [hunits, Int.cast_natCast, abs_lt]
    constructor <;> linarith
  · exact hcast.symm

/-- Rounding that takes the larger one of two gives the same digits, except at a tie above an even number: there
the last digit is one more. -/
theorem significant_roundUp (hp : 1 ≤ p) (hx : 0 < x) :
    if EvenTie (inUnits p x) then
      Even (significant roundEven p x).2 ∧
        significant roundUp p x = ((significant roundEven p x).1, (significant roundEven p x).2 + 1)
    else significant roundUp p x = significant roundEven p x := by
  split_ifs with htie
  · obtain ⟨heven, hup⟩ := roundUp_of_tie htie
    obtain ⟨-, hle, hcast⟩ := rounded_bounds isNearest_roundUp hp hx
    obtain ⟨-, -, hcast'⟩ := rounded_bounds isNearest_roundEven hp hx
    have hfloor : Even (roundEven (inUnits p x)).toNat := by
      have h := htie.2
      rw [← heven, ← hcast', Int.even_coe_nat] at h
      exact h
    -- neither is the next power of ten: one is less than the other, and the other is odd
    have hten : Even (10^p) := (by decide : Even 10).pow_of_ne_zero (by omega)
    have hsucc : (roundUp (inUnits p x)).toNat = (roundEven (inUnits p x)).toNat + 1 := by omega
    have hne : (roundUp (inUnits p x)).toNat ≠ 10^p := by
      intro h
      rw [← h, hsucc, Nat.even_add_one] at hten
      exact hten hfloor
    have hne' : (roundEven (inUnits p x)).toNat ≠ 10^p := by omega
    unfold significant
    rw [if_neg hne, if_neg hne', hsucc]
    exact ⟨hfloor, rfl⟩
  · unfold significant
    rw [roundUp_of_not_tie htie]

end

end Rounding
