import Mathlib

/-!
# Rounding half to even

`roundEven r` is the integer nearest to the rational number `r`, and the even one of the two when they are equally
near (`roundEven_near`, `roundEven_tie`, `roundEven_unique`). `roundEven_div` is the form in which it is computed
from the quotient and the remainder of a division.
-/

namespace Rounding

/-- The nearest integer, and the even one of two. -/
def roundEven (r : ℚ) : ℤ :=
  if Int.fract r < 1 / 2 then ⌊r⌋
  else if 1 / 2 < Int.fract r then ⌊r⌋ + 1
  else if Even ⌊r⌋ then ⌊r⌋ else ⌊r⌋ + 1

variable {r : ℚ} {n d : ℕ} {z : ℤ}

theorem roundEven_cases (r : ℚ) : roundEven r = ⌊r⌋ ∨ roundEven r = ⌊r⌋ + 1 := by
  unfold roundEven
  split_ifs
  · exact Or.inl rfl
  · exact Or.inr rfl
  · exact Or.inl rfl
  · exact Or.inr rfl

/-- No integer is nearer. -/
theorem roundEven_near (r : ℚ) : |r - roundEven r| ≤ 1 / 2 := by
  have hfract := Int.self_sub_floor r
  have hlo := Int.fract_nonneg r
  have hhi := Int.fract_lt_one r
  have hup : r - ((⌊r⌋ + 1 : ℤ) : ℚ) = Int.fract r - 1 := by
    push_cast
    linarith
  unfold roundEven
  split_ifs with h₁ h₂
  · rw [hfract, abs_of_nonneg hlo]
    exact h₁.le
  · rw [hup, abs_of_nonpos (by linarith)]
    linarith
  · rw [hfract, abs_of_nonneg hlo]
    linarith
  · rw [hup, abs_of_nonpos (by linarith)]
    linarith

/-- Of two that are equally near, it is the even one. -/
theorem roundEven_tie (h : |r - roundEven r| = 1 / 2) : Even (roundEven r) := by
  have hfract := Int.self_sub_floor r
  have hlo := Int.fract_nonneg r
  have hhi := Int.fract_lt_one r
  have hup : r - ((⌊r⌋ + 1 : ℤ) : ℚ) = Int.fract r - 1 := by
    push_cast
    linarith
  unfold roundEven at h ⊢
  split_ifs at h ⊢ with h₁ h₂ heven
  · rw [hfract, abs_of_nonneg hlo] at h
    linarith
  · rw [hup, abs_of_nonpos (by linarith)] at h
    linarith
  · exact heven
  · exact Int.even_add_one.mpr heven

/-- Nothing else is like that. -/
theorem roundEven_unique (hnear : |r - z| ≤ 1 / 2) (htie : |r - z| = 1 / 2 → Even z) : roundEven r = z := by
  have hnear' := abs_le.mp (roundEven_near r)
  have hbounds := abs_le.mp hnear
  by_contra hne
  obtain hlt | hgt := lt_or_gt_of_ne hne
  · -- both are half a unit away, and neighbours
    have hstep : ((roundEven r : ℤ) : ℚ) + 1 ≤ z := by exact_mod_cast hlt
    have h₁ : |r - roundEven r| = 1 / 2 := by
      rw [abs_of_nonneg (by linarith)]
      linarith
    have h₂ : |r - z| = 1 / 2 := by
      rw [abs_of_nonpos (by linarith)]
      linarith
    have hnext : z = roundEven r + 1 := by
      have hle : (z : ℚ) ≤ roundEven r + 1 := by linarith
      have hle' : z ≤ roundEven r + 1 := by exact_mod_cast hle
      omega
    have heven := roundEven_tie h₁
    have hodd := htie h₂
    rw [hnext, Int.even_add_one] at hodd
    exact hodd heven
  · have hstep : (z : ℚ) + 1 ≤ (roundEven r : ℤ) := by exact_mod_cast hgt
    have h₁ : |r - roundEven r| = 1 / 2 := by
      rw [abs_of_nonpos (by linarith)]
      linarith
    have h₂ : |r - z| = 1 / 2 := by
      rw [abs_of_nonneg (by linarith)]
      linarith
    have hnext : roundEven r = z + 1 := by
      have hle : ((roundEven r : ℤ) : ℚ) ≤ z + 1 := by linarith
      have hle' : roundEven r ≤ z + 1 := by exact_mod_cast hle
      omega
    have heven := roundEven_tie h₁
    have hodd := htie h₂
    rw [hnext, Int.even_add_one] at heven
    exact heven hodd

@[simp] theorem roundEven_intCast (z : ℤ) : roundEven z = z := by
  apply roundEven_unique
  · rw [sub_self, abs_zero]
    norm_num
  · rw [sub_self, abs_zero]
    norm_num

@[simp] theorem roundEven_natCast (n : ℕ) : roundEven n = n := roundEven_intCast n

theorem roundEven_nonneg (h : 0 ≤ r) : 0 ≤ roundEven r := by
  have hfloor := Int.floor_nonneg.mpr h
  obtain heq | heq := roundEven_cases r
  · rw [heq]
    exact hfloor
  · rw [heq]
    omega

/-- From the quotient and the remainder. -/
theorem roundEven_div (hd : 0 < d) :
    roundEven ((n : ℚ) / d) =
      if d < 2 * (n % d) ∨ 2 * (n % d) = d ∧ n / d % 2 = 1 then (n / d + 1 : ℕ) else (n / d : ℕ) := by
  have hd' : (0 : ℚ) < d := by exact_mod_cast hd
  have hdiv : (n : ℚ) = d * (n / d : ℕ) + (n % d : ℕ) := by exact_mod_cast (Nat.div_add_mod n d).symm
  have hmod : n % d < d := Nat.mod_lt n hd
  have hsub : ∀ q : ℕ, (n : ℚ) / d - (q : ℤ) = ((d : ℚ) * ((n / d : ℕ) - q) + (n % d : ℕ)) / d := by
    intro q
    rw [eq_div_iff hd'.ne', sub_mul, div_mul_cancel₀ _ hd'.ne']
    rw [hdiv]
    push_cast
    ring
  -- the remainder is compared with half of the divisor
  have hhalf : ∀ x : ℚ, |x / d| ≤ 1 / 2 ↔ 2 * |x| ≤ d := by
    intro x
    rw [abs_div, abs_of_pos hd', div_le_iff₀ hd']
    constructor <;> intro h <;> linarith
  have hhalf' : ∀ x : ℚ, |x / d| = 1 / 2 ↔ 2 * |x| = d := by
    intro x
    rw [abs_div, abs_of_pos hd', div_eq_iff hd'.ne']
    constructor <;> intro h <;> linarith
  split_ifs with hup
  · have heq : (n : ℚ) / d - ((n / d + 1 : ℕ) : ℤ) = -((d - n % d : ℕ) : ℚ) / d := by
      rw [hsub, Nat.cast_sub hmod.le]
      push_cast
      ring
    apply roundEven_unique
    · rw [heq, hhalf, abs_neg, Nat.abs_cast]
      have hle : 2 * (d - n % d) ≤ d := by omega
      exact_mod_cast hle
    · rw [heq, hhalf', abs_neg, Nat.abs_cast]
      intro htie
      have htie' : 2 * (d - n % d) = d := by exact_mod_cast htie
      rw [Int.even_coe_nat, Nat.even_add_one, Nat.even_iff]
      omega
  · have heq : (n : ℚ) / d - ((n / d : ℕ) : ℤ) = ((n % d : ℕ) : ℚ) / d := by
      rw [hsub]
      ring
    apply roundEven_unique
    · rw [heq, hhalf, Nat.abs_cast]
      have hle : 2 * (n % d) ≤ d := by omega
      exact_mod_cast hle
    · rw [heq, hhalf', Nat.abs_cast]
      intro htie
      have htie' : 2 * (n % d) = d := by exact_mod_cast htie
      rw [Int.even_coe_nat, Nat.even_iff]
      omega

end Rounding
