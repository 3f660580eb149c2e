import Lua2wasm.Format.HostCorrect

/-!
# Ties

Where a double lies half way between two decimals. Its exact value is `M / 2^k` with an odd `M`, where `-k` is
`lowBitExp` (`lowBitExp_spec`). With a number of decimals it is half way when it has one decimal more, and with a
number of significant digits when it has one more of these. The guard `tieFree` takes every `k` from 27 on for too
many, and that is right up to 17 significant digits only.

`host_prints_c` says for which doubles and precisions the host does not print what C prints.
-/

namespace Lua2wasm.Format

open Rounding

/-! ## The lowest bit -/

section

variable {w : UInt32} {k j : ℕ}

theorem clz32_two_pow (hk : k < 32) (hw : w.toNat = 2^k) : clz32 w ^^^ 31 = k := by
  have hne : w ≠ 0 := by
    rintro rfl
    exact (Nat.two_pow_pos k).ne hw
  unfold clz32
  rw [if_neg hne, hw, Nat.log2_two_pow]
  interval_cases k <;> rfl

/-- A word and its negation have the lowest bit in common, and no other. -/
theorem and_neg_toNat (hw : w.toNat = 2^k * (2 * j + 1)) : (w &&& -w).toNat = 2^k := by
  have hlt := w.toNat_lt
  have hpos := Nat.two_pow_pos k
  have hk : k < 32 := by
    by_contra hge
    have hpow : 2^32 ≤ 2^k := Nat.pow_le_pow_right (by norm_num) (by omega)
    have hle : 2^k * 1 ≤ 2^k * (2 * j + 1) := Nat.mul_le_mul_left _ (by omega)
    omega
  have hsplit : 2^32 = 2^k * (2 * 2^(31 - k)) := by
    rw [← Nat.pow_succ', ← Nat.pow_add]
    congr 1
    omega
  have hj : j < 2^(31 - k) := by
    rw [hw, hsplit] at hlt
    have := Nat.lt_of_mul_lt_mul_left hlt
    omega
  have hneg : (-w).toNat = 2^k * (2 * (2^(31 - k) - (j + 1)) + 1) := by
    have hrest : 2 * (2^(31 - k) - (j + 1)) + 1 = 2 * 2^(31 - k) - (2 * j + 1) := by omega
    rw [UInt32.toNat_neg, show UInt32.size = 2^32 from rfl, hrest, Nat.mul_sub, ← hsplit, ← hw]
    apply Nat.mod_eq_of_lt
    have : 0 < 2^k * (2 * j + 1) := Nat.mul_pos hpos (by omega)
    omega
  have hodd : ∀ a i : ℕ, (2 * a + 1).testBit i = if i = 0 then true else a.testBit (i - 1) := by
    intro a i
    cases i with
    | zero => simp
    | succ i =>
      rw [Nat.testBit_succ, if_neg (Nat.succ_ne_zero i), Nat.add_sub_cancel]
      congr 1
      omega
  rw [UInt32.toNat_and, hneg, hw]
  apply Nat.eq_of_testBit_eq
  intro i
  rw [Nat.testBit_and, Nat.testBit_two_pow_mul, Nat.testBit_two_pow_mul, Nat.testBit_two_pow, hodd, hodd]
  by_cases hi : k ≤ i
  · by_cases heq : i - k = 0
    · have : k = i := by omega
      simp [this]
    · have : ¬k = i := by omega
      rw [if_neg heq, if_neg heq, Nat.testBit_two_pow_sub_succ hj]
      cases j.testBit (i - k - 1) <;> simp [this]
  · have : ¬k = i := by omega
    simp [hi, this]

theorem lowBit_spec (hw : w ≠ 0) : ∃ j, w.toNat = 2^lowBit w * (2 * j + 1) ∧ lowBit w < 32 := by
  have hne : w.toNat ≠ 0 := fun h => hw (UInt32.toNat_inj.mp h)
  obtain ⟨k, m, ⟨j, rfl⟩, hval⟩ := Nat.exists_eq_two_pow_mul_odd hne
  have hlt := w.toNat_lt
  have hk : k < 32 := by
    by_contra hge
    have hpow : 2^32 ≤ 2^k := Nat.pow_le_pow_right (by norm_num) (by omega)
    have hle : 2^k * 1 ≤ 2^k * (2 * j + 1) := Nat.mul_le_mul_left _ (by omega)
    omega
  have hlow : lowBit w = k := clz32_two_pow hk (and_neg_toNat hval)
  rw [hlow]
  exact ⟨j, hval, hk⟩

end

section

variable {x : F64}

/-- The double is an odd number of units of its lowest bit. -/
theorem lowBitExp_spec (hx : ¬x.isZero = true) : ∃ M : ℕ, M % 2 = 1 ∧ M < 2^53 ∧
    x.magnitude = M * (2 : ℚ)^lowBitExp x := by
  have hfrac := x.fracField_lt
  have hpos := decomposeAbs_pos hx
  have hlo : (UInt32.ofNat (x.bits.toNat % 2^32)).toNat = x.bits.toNat % 2^32 := by
    rw [UInt32.toNat_ofNat']
    exact Nat.mod_eq_of_lt (Nat.mod_lt _ (by norm_num))
  have hhi : (UInt32.ofNat (x.bits.toNat / 2^32)).toNat = x.bits.toNat / 2^32 := by
    rw [UInt32.toNat_ofNat']
    exact Nat.mod_eq_of_lt (by omega)
  generalize hlow : UInt32.ofNat (x.bits.toNat % 2^32) = lo at hlo
  generalize hhigh : UInt32.ofNat (x.bits.toNat / 2^32) = hi at hhi
  -- the fields of the higher word
  have hexp : (hi >>> 20 &&& 0x7ff).toNat = x.expField := by
    rw [UInt32.toNat_and, UInt32.toNat_shiftRight, hhi, show (20 : UInt32).toNat % 32 = 20 from rfl,
      show (0x7ff : UInt32).toNat = 2^11 - 1 from rfl, Nat.and_two_pow_sub_one_eq_mod, Nat.shiftRight_eq_div_pow]
    unfold F64.expField
    omega
  have hmask : (hi &&& 0xfffff).toNat = x.fracField / 2^32 := by
    rw [UInt32.toNat_and, hhi, show (0xfffff : UInt32).toNat = 2^20 - 1 from rfl, Nat.and_two_pow_sub_one_eq_mod]
    unfold F64.fracField
    omega
  have hnormal : (hi &&& 0xfffff ||| 0x100000).toNat = x.fracField / 2^32 + 2^20 := by
    rw [UInt32.toNat_or, hmask, show (0x100000 : UInt32).toNat = 2^20 * 1 from rfl, Nat.or_comm,
      ← Nat.two_pow_add_eq_or_of_lt (by omega), Nat.mul_one, Nat.add_comm]
  have hzero : hi >>> 20 &&& 0x7ff = 0 ↔ x.expField = 0 := by
    rw [← UInt32.toNat_inj, hexp]
    rfl
  have hmhi : (if hi >>> 20 &&& 0x7ff ≠ 0 then hi &&& 0xfffff ||| 0x100000 else hi &&& 0xfffff).toNat =
      x.significand / 2^32 := by
    unfold F64.significand
    by_cases h0 : x.expField = 0
    · rw [if_neg (not_not_intro (hzero.mpr h0)), if_pos h0, hmask]
    · rw [if_pos (fun h => h0 (hzero.mp h)), if_neg h0, hnormal]
      omega
  have hlo' : lo.toNat = x.significand % 2^32 := by
    rw [hlo]
    unfold F64.significand F64.fracField
    split_ifs <;> omega
  have he : (if hi >>> 20 &&& 0x7ff = 0 then -1074 else ((hi >>> 20 &&& 0x7ff).toNat : ℤ) - 1075) =
      (decomposeAbs x).2 := by
    rw [hexp]
    unfold decomposeAbs
    by_cases h0 : x.expField = 0
    · rw [if_pos (hzero.mpr h0), if_pos h0]
    · rw [if_neg (fun h => h0 (hzero.mp h)), if_neg h0]
  -- the position of the lowest bit of the two words
  have hlowest : ∃ j, x.significand = 2^(if lo ≠ 0 then lowBit lo else 32 + lowBit
      (if hi >>> 20 &&& 0x7ff ≠ 0 then hi &&& 0xfffff ||| 0x100000 else hi &&& 0xfffff)) * (2 * j + 1) := by
    by_cases h0 : lo = 0
    · have hmod : x.significand % 2^32 = 0 := by
        rw [← hlo', h0]
        rfl
      have hne : (if hi >>> 20 &&& 0x7ff ≠ 0 then hi &&& 0xfffff ||| 0x100000 else hi &&& 0xfffff) ≠ 0 := by
        intro h
        rw [h] at hmhi
        rw [decomposeAbs_fst] at hpos
        change 0 = _ at hmhi
        omega
      obtain ⟨j, hj, -⟩ := lowBit_spec hne
      rw [if_neg (not_not_intro h0)]
      refine ⟨j, ?_⟩
      rw [Nat.pow_add, Nat.mul_assoc, ← hj, hmhi]
      omega
    · obtain ⟨j, hj, hlt⟩ := lowBit_spec h0
      rw [if_pos h0]
      refine ⟨x.significand / 2^32 * 2^(31 - lowBit lo) + j, ?_⟩
      have hpow : 2^32 = 2^lowBit lo * (2 * 2^(31 - lowBit lo)) := by
        rw [← Nat.pow_succ', ← Nat.pow_add]
        congr 1
        omega
      calc x.significand = 2^32 * (x.significand / 2^32) + x.significand % 2^32 := (Nat.div_add_mod _ _).symm
        _ = 2^32 * (x.significand / 2^32) + 2^lowBit lo * (2 * j + 1) := by rw [← hlo', hj]
        _ = 2^lowBit lo * (2 * 2^(31 - lowBit lo)) * (x.significand / 2^32) + 2^lowBit lo * (2 * j + 1) := by
          rw [← hpow]
        _ = 2^lowBit lo * (2 * (x.significand / 2^32 * 2^(31 - lowBit lo) + j) + 1) := by ring
  unfold lowBitExp
  dsimp only
  rw [hlow, hhigh, he]
  obtain ⟨j, hj⟩ := hlowest
  generalize (if lo ≠ 0 then lowBit lo else 32 + lowBit
      (if hi >>> 20 &&& 0x7ff ≠ 0 then hi &&& 0xfffff ||| 0x100000 else hi &&& 0xfffff)) = t at hj ⊢
  refine ⟨2 * j + 1, by omega, ?_, ?_⟩
  · calc 2 * j + 1 = 1 * (2 * j + 1) := (Nat.one_mul _).symm
      _ ≤ 2^t * (2 * j + 1) := Nat.mul_le_mul_right _ (Nat.two_pow_pos t)
      _ < 2^53 := by
        rw [← hj]
        exact x.significand_lt
  · rw [magnitude_eq_decomposed, decomposeAbs_fst, hj, zpow_add₀ (by norm_num), zpow_natCast]
    push_cast
    ring

end

/-! ## Half way -/

section

variable {N M k j p d n prec : ℕ} {x : F64}

/-- A quotient is half way above an even number. -/
theorem evenTie_div (hd : 0 < d) : EvenTie ((N : ℚ) / d) ↔ 2 * (N % d) = d ∧ N / d % 2 = 0 := by
  have hd' : (d : ℚ) ≠ 0 := Nat.cast_ne_zero.mpr hd.ne'
  unfold EvenTie
  rw [Int.fract_div_natCast_eq_div_natCast_mod, Rat.floor_natCast_div_natCast, div_eq_div_iff hd' (by norm_num)]
  constructor
  · rintro ⟨hhalf, heven⟩
    have hhalf' : N % d * 2 = 1 * d := by exact_mod_cast hhalf
    have heven' : Even (N / d) := by exact_mod_cast heven
    exact ⟨by omega, Nat.even_iff.mp heven'⟩
  · rintro ⟨hhalf, heven⟩
    have hhalf' : N % d * 2 = 1 * d := by omega
    have heven' : Even (N / d) := Nat.even_iff.mpr heven
    exact ⟨by exact_mod_cast hhalf', by exact_mod_cast heven'⟩

theorem not_evenTie_natCast (n : ℕ) : ¬EvenTie (n : ℚ) := by
  rintro ⟨h, -⟩
  rw [Int.fract_natCast] at h
  norm_num at h

/-- An odd number is half way only when a single digit is cut off. -/
theorem evenTie_odd {c : ℕ} (hc : 2 ∣ c) (hc0 : 0 < c) (hN : N % 2 = 1) (hj : 0 < j)
    (h : EvenTie ((N : ℚ) / ((c^j : ℕ) : ℚ))) : j = 1 := by
  rw [evenTie_div (by positivity)] at h
  obtain ⟨i, rfl⟩ : ∃ i, j = i + 1 := ⟨j - 1, by omega⟩
  obtain ⟨b, rfl⟩ := hc
  by_contra hne
  obtain ⟨i, rfl⟩ : ∃ i', i = i' + 1 := ⟨i - 1, by omega⟩
  -- half of the divisor is even, and so would be the number
  have hpow : (2 * b)^(i + 1 + 1) = 2 * (2 * (b * (b * (2 * b)^i))) := by ring
  have hdiv := Nat.div_add_mod N ((2 * b)^(i + 1 + 1))
  have hprod : (2 * b)^(i + 1 + 1) * (N / (2 * b)^(i + 1 + 1)) =
      2 * (2 * (b * (b * (2 * b)^i)) * (N / (2 * b)^(i + 1 + 1))) := by
    rw [hpow]
    ring
  omega

/-- One odd number of units determines the unit. -/
theorem odd_unit_unique {a b : ℤ} (hM : M % 2 = 1) (hN : N % 2 = 1) (h : (M : ℚ) * 2^a = N * 2^b) : a = b := by
  have hle : ∀ {a b : ℤ} {M N : ℕ}, M % 2 = 1 → (M : ℚ) * 2^a = N * 2^b → b ≤ a := by
    intro a b M N hM h
    by_contra hlt
    obtain ⟨c, hc⟩ := Int.eq_ofNat_of_zero_le (show 0 ≤ b - a - 1 by omega)
    have hb : (2 : ℚ)^b = 2^c * 2 * 2^a := by
      rw [← zpow_natCast, ← zpow_add_one₀ (by norm_num), ← zpow_add₀ (by norm_num)]
      congr 1
      omega
    rw [hb, ← mul_assoc] at h
    have hcancel := mul_right_cancel₀ (zpow_ne_zero a (by norm_num : (2 : ℚ) ≠ 0)) h
    have hnat : M = N * (2^c * 2) := by exact_mod_cast hcancel
    rw [← Nat.mul_assoc] at hnat
    omega
  have h₁ := hle hM h
  have h₂ := hle hN h.symm
  omega

end

/-! ## Which doubles are missed -/

/-- `%.{prec}f` misses a double that has one decimal more, 27 of them or more, when the last digit that C prints is
even. -/
def FixedMiss (x : F64) (prec : ℕ) : Prop := 26 ≤ prec ∧ ∃ M : ℕ, M % 4 = 1 ∧ x.magnitude = M / 2^(prec + 1)

/-- `p` digits miss a double that has one significant digit more and 27 decimals or more, when the last digit that C
prints is even. -/
def DigitsMiss (x : F64) (p : ℕ) : Prop :=
  ∃ M k : ℕ, 27 ≤ k ∧ M % 4 = 1 ∧ x.magnitude = M / 2^k ∧ HasDigits10 (p + 1) (M * 5^k)

section

variable {N M k p d n prec : ℕ} {x : F64} {guess : F64 → ℤ} {s : ℤ × ℕ} {strip : Bool}

theorem five_pow_mod (k : ℕ) : 5^k % 4 = 1 := by
  rw [Nat.pow_mod]
  exact (Nat.one_pow k).symm ▸ rfl

theorem mul_five_pow_mod (M k : ℕ) : M * 5^k % 4 = M % 4 := by
  rw [Nat.mul_mod, five_pow_mod, Nat.mul_one, Nat.mod_mod]

theorem tieFree_iff (hx : x.expField ≠ 2047) (hzero : ¬x.isZero = true) : tieFree x = true ↔ lowBitExp x ≤ -27 := by
  unfold tieFree
  rw [Bool.eq_false_of_not_eq_true hzero]
  simp [hx]

/-- The double as an odd number of `2^(-k)`, when the guard holds. -/
theorem tieFree_spec (h : tieFree x = true) :
    ∃ M k : ℕ, M % 2 = 1 ∧ M < 2^53 ∧ 27 ≤ k ∧ x.magnitude = M / 2^k := by
  have hzero := not_isZero_of_tieFree h
  obtain ⟨M, hodd, hlt, hval⟩ := lowBitExp_spec hzero
  have hlow : lowBitExp x ≤ -27 := by
    unfold tieFree at h
    rw [Bool.and_eq_true, decide_eq_true_iff] at h
    exact h.2
  obtain ⟨k, hk⟩ := Int.eq_ofNat_of_zero_le (show 0 ≤ -lowBitExp x by omega)
  refine ⟨M, k, hodd, hlt, by omega, ?_⟩
  rw [hval, show lowBitExp x = -(k : ℤ) by omega, zpow_neg, zpow_natCast, div_eq_mul_inv]

/-- The other way round. -/
theorem tieFree_of (hx : x.expField ≠ 2047) (hodd : M % 2 = 1) (hk : 27 ≤ k) (hval : x.magnitude = M / 2^k) :
    tieFree x = true := by
  have hpos : 0 < x.magnitude := by
    have hM : (0 : ℚ) < M := by exact_mod_cast (show 0 < M by omega)
    rw [hval]
    positivity
  have hzero : ¬x.isZero = true := fun h => hpos.ne' (F64.isZero_iff_magnitude.mp h)
  obtain ⟨M', hodd', -, hval'⟩ := lowBitExp_spec hzero
  rw [hval', div_eq_mul_inv, ← zpow_natCast, ← zpow_neg] at hval
  have := odd_unit_unique hodd' hodd hval
  rw [tieFree_iff hx hzero]
  omega

theorem small_of_tieFree (h : tieFree x = true) : x.magnitude < 10^21 := by
  obtain ⟨M, k, -, hlt, -, hval⟩ := tieFree_spec h
  have hM : (M : ℚ) < 2^53 := by exact_mod_cast hlt
  have hone : (1 : ℚ) ≤ 2^k := one_le_pow₀ (by norm_num)
  rw [hval]
  calc (M : ℚ) / 2^k ≤ M := div_le_self (Nat.cast_nonneg M) hone
    _ < 2^53 := hM
    _ < 10^21 := by norm_num

theorem fixedMiss_iff (hx : x.expField ≠ 2047) :
    tieFree x = true ∧ EvenTie (x.magnitude * 10^prec) ↔ FixedMiss x prec := by
  have hten : (10 : ℚ)^prec = 5^prec * 2^prec := by
    rw [← mul_pow]
    norm_num
  constructor
  · rintro ⟨hfree, htie⟩
    obtain ⟨M, k, hodd, -, hk, hval⟩ := tieFree_spec hfree
    obtain hle | hlt := le_or_gt k prec
    · -- there are no more decimals than that
      exfalso
      obtain ⟨i, rfl⟩ := Nat.exists_eq_add_of_le hle
      have hnat : x.magnitude * 10^(k + i) = ((M * 5^(k + i) * 2^i : ℕ) : ℚ) := by
        rw [hval, hten]
        push_cast
        rw [pow_add (2 : ℚ)]
        field_simp
      rw [hnat] at htie
      exact not_evenTie_natCast _ htie
    · obtain ⟨i, rfl⟩ := Nat.exists_eq_add_of_lt hlt
      have hdiv : x.magnitude * 10^prec = ((M * 5^prec : ℕ) : ℚ) / ((2^(i + 1) : ℕ) : ℚ) := by
        rw [hval, hten]
        push_cast
        rw [Nat.add_assoc prec, pow_add (2 : ℚ) prec]
        field_simp
      have hNodd : M * 5^prec % 2 = 1 := by
        have := mul_five_pow_mod M prec
        omega
      rw [hdiv] at htie
      have hi : i = 0 := by
        have := evenTie_odd (dvd_refl 2) (by norm_num) hNodd (Nat.succ_pos i) htie
        omega
      subst hi
      rw [evenTie_div (by norm_num)] at htie
      have hmod := mul_five_pow_mod M prec
      exact ⟨by omega, M, by omega, hval⟩
  · rintro ⟨hprec, M, hM, hval⟩
    have hdiv : x.magnitude * 10^prec = ((M * 5^prec : ℕ) : ℚ) / ((2 : ℕ) : ℚ) := by
      rw [hval, hten]
      push_cast
      rw [pow_succ]
      field_simp
    refine ⟨tieFree_of hx (by omega) (by omega) hval, ?_⟩
    have hmod := mul_five_pow_mod M prec
    rw [hdiv, evenTie_div (by norm_num)]
    omega

theorem exists_hasDigits10 (hn : 0 < n) : ∃ p, HasDigits10 p n := by
  have hpos : 0 < (Nat.toDigits 10 n).length := Nat.length_toDigits_pos
  refine ⟨(Nat.toDigits 10 n).length, hpos, ?_, (Nat.length_toDigits_le_iff (by norm_num) hpos).mp le_rfl⟩
  by_cases h1 : (Nat.toDigits 10 n).length = 1
  · rw [h1]
    exact hn
  · have h := mt (Nat.length_toDigits_le_iff (b := 10) (n := n) (k := (Nat.toDigits 10 n).length - 1) (by norm_num)
      (by omega)).mpr (by omega)
    omega

/-- The exponent of the first digit, from the number of digits and of decimals. -/
theorem log_of_digits (h : HasDigits10 d N) : Int.log 10 ((N : ℚ) / 10^k) = d - 1 - k := by
  have hpos : 0 < N := (Nat.pow_pos (by norm_num)).trans_le h.le
  have hpos' : (0 : ℚ) < (N : ℚ) / 10^k := by positivity
  have hlo : (10 : ℚ)^((d : ℤ) - 1) ≤ N := by
    rw [← pow_pred h.pos]
    exact_mod_cast h.le
  have hhi : (N : ℚ) < 10^(d : ℤ) := by
    rw [zpow_natCast]
    exact_mod_cast h.lt
  have h₁ : (10 : ℚ)^((d : ℤ) - 1 - k) ≤ N / 10^k := by
    rw [zpow_sub₀ (by norm_num), zpow_natCast]
    exact div_le_div_of_nonneg_right hlo (by positivity)
  have h₂ : (N : ℚ) / 10^k < 10^((d : ℤ) - 1 - k + 1) := by
    rw [show (d : ℤ) - 1 - k + 1 = d - k by ring, zpow_sub₀ (by norm_num), zpow_natCast _ k]
    exact div_lt_div_of_pos_right hhi (by positivity)
  have h₁' := (Int.zpow_le_iff_le_log (by norm_num : 1 < 10) hpos').mp (by rw [Nat.cast_ofNat]; exact h₁)
  have h₂' := (Int.lt_zpow_iff_log_lt (by norm_num : 1 < 10) hpos').mp (by rw [Nat.cast_ofNat]; exact h₂)
  omega

/-- A number in units of one of its digits. -/
theorem inUnits_of_digits (h : HasDigits10 d N) :
    inUnits p ((N : ℚ) / 10^k) = N * 10^((p : ℤ) - d) := by
  unfold inUnits
  rw [log_of_digits h, div_mul_eq_mul_div, mul_div_assoc, ← zpow_natCast, ← zpow_sub₀ (by norm_num)]
  congr 2
  ring

theorem digitsMiss_iff (hx : x.expField ≠ 2047) :
    tieFree x = true ∧ EvenTie (inUnits p x.magnitude) ↔ DigitsMiss x p := by
  have hdecimal : ∀ M k : ℕ, (M : ℚ) / 2^k = ((M * 5^k : ℕ) : ℚ) / 10^k := by
    intro M k
    have hten : (10 : ℚ)^k = 5^k * 2^k := by
      rw [← mul_pow]
      norm_num
    rw [hten]
    push_cast
    field_simp
  constructor
  · rintro ⟨hfree, htie⟩
    obtain ⟨M, k, hodd, -, hk, hval⟩ := tieFree_spec hfree
    have hNodd : M * 5^k % 2 = 1 := by
      have := mul_five_pow_mod M k
      omega
    obtain ⟨d, hd⟩ := exists_hasDigits10 (show 0 < M * 5^k by omega)
    rw [hval, hdecimal, inUnits_of_digits hd] at htie
    -- with at most `p` decimals the value is a number of units, and no tie
    obtain hle | hlt := le_or_gt d p
    · exfalso
      obtain ⟨i, rfl⟩ := Nat.exists_eq_add_of_le hle
      have hnat : ((M * 5^k : ℕ) : ℚ) * 10^(((d + i : ℕ) : ℤ) - d) = ((M * 5^k * 10^i : ℕ) : ℚ) := by
        rw [Nat.cast_add, add_sub_cancel_left, zpow_natCast]
        push_cast
        rfl
      rw [hnat] at htie
      exact not_evenTie_natCast _ htie
    · obtain ⟨i, rfl⟩ := Nat.exists_eq_add_of_lt hlt
      have hdiv : ((M * 5^k : ℕ) : ℚ) * 10^((p : ℤ) - ((p + i + 1 : ℕ) : ℤ)) =
          ((M * 5^k : ℕ) : ℚ) / ((10^(i + 1) : ℕ) : ℚ) := by
        rw [show (p : ℤ) - ((p + i + 1 : ℕ) : ℤ) = -((i + 1 : ℕ) : ℤ) by omega, zpow_neg, zpow_natCast, div_eq_mul_inv]
        push_cast
        rfl
      rw [hdiv] at htie
      -- an odd numerator makes a tie of the first decimal beyond `p` only
      have hi : i = 0 := by
        have := evenTie_odd (show 2 ∣ 10 by norm_num) (by norm_num) hNodd (Nat.succ_pos i) htie
        omega
      subst hi
      rw [evenTie_div (by norm_num)] at htie
      have hmod := mul_five_pow_mod M k
      exact ⟨M, k, hk, by omega, hval, hd⟩
  · rintro ⟨M, k, hk, hM, hval, hd⟩
    have hdiv : inUnits p x.magnitude = ((M * 5^k : ℕ) : ℚ) / ((10 : ℕ) : ℚ) := by
      rw [hval, hdecimal, inUnits_of_digits hd, show (p : ℤ) - ((p + 1 : ℕ) : ℤ) = -1 by omega, zpow_neg_one,
        div_eq_mul_inv]
      norm_cast
    refine ⟨tieFree_of hx (by omega) hk hval, ?_⟩
    have hmod := mul_five_pow_mod M k
    have hfive : M * 5^k % 5 = 0 := by
      obtain ⟨i, rfl⟩ : ∃ i, k = i + 1 := ⟨k - 1, by omega⟩
      rw [Nat.pow_succ, ← Nat.mul_assoc, Nat.mul_mod_left]
    rw [hdiv, evenTie_div (by norm_num)]
    omega

end

/-! ## A different last digit shows -/

section

variable {p d n prec : ℕ} {x : F64} {guess : F64 → ℤ} {strip : Bool}

theorem digitChar_inj {a b : ℕ} (ha : a < 10) (hb : b < 10) (h : Nat.digitChar a = Nat.digitChar b) : a = b := by
  have h' := congrArg (fun c : Char => Nat.ofDigitChars 10 [c] 0) h
  have hread : ∀ {a : ℕ}, a < 10 → Nat.ofDigitChars 10 [Nat.digitChar a] 0 = a := fun ha => by
    rw [← Nat.toDigits_of_lt_base ha]
    exact Nat.ofDigitChars_ten_toDigits
  rwa [hread ha, hread hb] at h'

/-- The last digit is at the end. -/
theorem withPoint_last (d n : ℕ) : ∃ u, withPoint false d n = u ++ [Nat.digitChar (n % 10)] := by
  unfold withPoint
  cases d with
  | zero =>
    rw [Nat.pow_zero, Nat.div_one]
    obtain hlt | hge := Nat.lt_or_ge n 10
    · exact ⟨[], by rw [Nat.toDigits_of_lt_base hlt, Nat.mod_eq_of_lt hlt]; rfl⟩
    · exact ⟨Nat.toDigits 10 (n / 10), by rw [Nat.toDigits_of_base_le (by norm_num) hge]; simp [decimals]⟩
  | succ d =>
    unfold decimals
    exact ⟨_, (List.append_assoc _ _ _).symm⟩

theorem withPoint_succ_ne (d n : ℕ) : withPoint false d n ≠ withPoint false d (n + 1) := by
  intro h
  obtain ⟨u, hu⟩ := withPoint_last d n
  obtain ⟨v, hv⟩ := withPoint_last d (n + 1)
  rw [hu, hv] at h
  have hlast := (List.append_inj' h rfl).2
  have := digitChar_inj (Nat.mod_lt _ (by norm_num)) (Nat.mod_lt _ (by norm_num)) (List.cons.inj hlast).1
  omega

/-- A last digit that is not zero is not stripped. -/
theorem trimmed_of_nonzero (h : n % 10 ≠ 0) : trimmed d n = withPoint false d n := by
  cases d with
  | zero => exact trimmed_zero
  | succ d =>
    have hc : Nat.digitChar (n % 10) ≠ '0' := fun h0 => h (digitChar_inj (Nat.mod_lt _ (by norm_num)) (by norm_num) h0)
    obtain ⟨u, hu⟩ := withPoint_last (d + 1) n
    have hstrip := @stripZeros_withPoint [] (d + 1) n (Nat.succ_pos d)
    rw [List.nil_append, List.nil_append] at hstrip
    rw [← hstrip, hu, stripZeros_last hc]

theorem trimmed_succ_ne (heven : n % 2 = 0) : trimmed d n ≠ trimmed d (n + 1) := by
  have hodd : (n + 1) % 10 ≠ 0 := by omega
  by_cases hzero : n % 10 = 0
  · cases d with
    | zero =>
      rw [trimmed_zero, trimmed_zero]
      exact withPoint_succ_ne 0 n
    | succ d =>
      -- the one is stripped of a zero that the other does not have
      intro h
      rw [trimmed_of_nonzero hodd] at h
      have hsame : (n + 1) / 10^(d + 1) = n / 10^(d + 1) := by
        rw [Nat.pow_succ', ← Nat.div_div_eq_div_mul, ← Nat.div_div_eq_div_mul, show (n + 1) / 10 = n / 10 by omega]
      unfold trimmed withPoint at h
      rw [if_pos (Or.inl (Nat.succ_pos d)), hsame, List.append_assoc, List.append_cancel_left_eq] at h
      have hlen := congrArg List.length h
      rw [List.length_append, length_decimals, List.length_singleton] at hlen
      have hshort : ((decimals (d + 1) n).rdropWhile (· = '0')).length ≤ d := by
        unfold decimals
        rw [hzero, List.rdropWhile_concat_pos _ _ _ (by decide)]
        calc ((decimals d (n / 10)).rdropWhile (· = '0')).length ≤ (decimals d (n / 10)).length :=
              (List.rdropWhile_prefix _ _).length_le
          _ = d := length_decimals d _
      split_ifs at hlen
      rw [List.length_cons] at hlen
      omega
  · rw [trimmed_of_nonzero hzero, trimmed_of_nonzero hodd]
    exact withPoint_succ_ne d n

theorem gNumber_succ_ne (heven : n % 2 = 0) : gNumber strip d n ≠ gNumber strip d (n + 1) := by
  unfold gNumber
  cases strip
  · rw [if_neg Bool.false_ne_true, if_neg Bool.false_ne_true, withPoint_true, withPoint_true]
    split_ifs
    · exact withPoint_succ_ne d n
    · exact fun h => withPoint_succ_ne d n (List.append_cancel_right h)
  · exact trimmed_succ_ne heven

theorem eForm_succ_ne (x : F64) (p : ℕ) (e : ℤ) (n : ℕ) : eForm x p (e, n) ≠ eForm x p (e, n + 1) := by
  unfold eForm
  intro h
  exact withPoint_succ_ne _ _ (List.append_cancel_left (List.append_cancel_right h))

theorem gForm_succ_ne (x : F64) (p : ℕ) (e : ℤ) (heven : n % 2 = 0) :
    gForm x p strip (e, n) ≠ gForm x p strip (e, n + 1) := by
  unfold gForm
  split_ifs
  · exact fun h => gNumber_succ_ne heven (List.append_cancel_left (List.append_cancel_right h))
  · exact fun h => gNumber_succ_ne heven (List.append_cancel_left h)

/-! ## The host and C -/

theorem not_digitsMiss_zero (h : x.isZero = true) : ¬DigitsMiss x p := by
  rintro ⟨M, k, -, hM, hval, -⟩
  rw [F64.isZero_iff_magnitude.mp h] at hval
  have hpos : (0 : ℚ) < M / 2^k := by
    have : (0 : ℚ) < M := by exact_mod_cast (show 0 < M by omega)
    positivity
  linarith

theorem cFormatF_iff (hx : x.expField ≠ 2047) (hprec : prec ≤ 99) :
    cFormatF x prec = cF x prec ↔ ¬FixedMiss x prec := by
  rw [cFormatF_eq hprec, ← fixedMiss_iff hx]
  unfold cF
  by_cases hfree : tieFree x = true
  · rw [if_pos ⟨hfree, small_of_tieFree hfree⟩]
    have hcast : ((roundEven (x.magnitude * 10^prec)).toNat : ℤ) = roundEven (x.magnitude * 10^prec) :=
      Int.toNat_of_nonneg (roundEven_nonneg (mul_nonneg x.magnitude_nonneg (by positivity)))
    by_cases htie : EvenTie (x.magnitude * 10^prec)
    · obtain ⟨heven, hup⟩ := roundUp_of_tie htie
      have hsucc : (roundUp (x.magnitude * 10^prec)).toNat = cUnits x prec + 1 := by
        unfold cUnits
        omega
      rw [hsucc]
      exact iff_of_false (fun h => withPoint_succ_ne prec _ (List.append_cancel_left h).symm)
        (not_not_intro ⟨hfree, htie⟩)
    · rw [roundUp_of_not_tie htie]
      exact iff_of_true rfl (fun h => htie h.2)
  · rw [if_neg (fun h => hfree h.1)]
    exact iff_of_true rfl (fun h => hfree h.1)

/-- The digits of the host are those of C, or one more in the last place. -/
theorem host_digits (hzero : ¬x.isZero = true) (hp : 1 ≤ p) :
    if tieFree x = true ∧ EvenTie (inUnits p x.magnitude) then
      (significant roundEven p x.magnitude).2 % 2 = 0 ∧ significant (hostRound x) p x.magnitude =
        ((significant roundEven p x.magnitude).1, (significant roundEven p x.magnitude).2 + 1)
    else significant (hostRound x) p x.magnitude = significant roundEven p x.magnitude := by
  have hup := significant_roundUp hp (magnitude_pos hzero)
  unfold hostRound
  by_cases hfree : tieFree x = true
  · rw [if_pos hfree]
    by_cases htie : EvenTie (inUnits p x.magnitude)
    · rw [if_pos htie] at hup
      rw [if_pos ⟨hfree, htie⟩]
      exact ⟨Nat.even_iff.mp hup.1, hup.2⟩
    · rw [if_neg htie] at hup
      rw [if_neg (fun h => htie h.2)]
      exact hup
  · rw [if_neg (fun h => hfree h.1), if_neg hfree]

theorem cFormatE_iff (hx : x.expField ≠ 2047) (hprec : prec ≤ 99) :
    cFormatE guess x prec = cE x prec ↔ ¬DigitsMiss x (prec + 1) := by
  by_cases hzero : x.isZero = true
  · exact iff_of_true (cFormatE_zero hzero prec) (not_digitsMiss_zero hzero)
  · have hspec : cE x prec = eForm x (prec + 1) (significant roundEven (prec + 1) x.magnitude) := by
      unfold cE eForm cSignificant
      rw [if_neg hzero, Nat.add_sub_cancel]
    have hdigits := host_digits hzero (Nat.le_add_left 1 prec)
    rw [cFormatE_eq hzero hprec, hspec, ← digitsMiss_iff hx]
    split_ifs at hdigits with htie
    · rw [hdigits.2]
      exact iff_of_false (fun h => eForm_succ_ne x _ _ _ h.symm) (not_not_intro htie)
    · rw [hdigits]
      exact iff_of_true rfl htie

/-- The fixed form of `%g` has the digits that decide about it. -/
theorem cG_eq (hzero : ¬x.isZero = true) (prec : ℕ) :
    cG x prec strip = gForm x (max prec 1) strip (significant roundEven (max prec 1) x.magnitude) := by
  have hp : 1 ≤ max prec 1 := le_max_right _ _
  unfold cG gForm cSignificant gNumber
  dsimp only
  rw [if_neg hzero]
  by_cases hform : (significant roundEven (max prec 1) x.magnitude).1 < -4 ∨
      (max prec 1 : ℕ) ≤ (significant roundEven (max prec 1) x.magnitude).1
  · rw [if_pos hform, if_pos hform]
  · have hd : (((max prec 1 : ℕ) - 1 - (significant roundEven (max prec 1) x.magnitude).1).toNat : ℤ) =
        ((max prec 1 : ℕ) : ℤ) - 1 - (significant roundEven (max prec 1) x.magnitude).1 := by
      apply Int.toNat_of_nonneg
      omega
    have hunits : cUnits x ((max prec 1 : ℕ) - 1 - (significant roundEven (max prec 1) x.magnitude).1).toNat =
        (significant roundEven (max prec 1) x.magnitude).2 := by
      unfold cUnits
      rw [significant_fixed isNearest_roundEven hp (magnitude_pos hzero) hd]
      exact Int.toNat_natCast _
    rw [if_neg hform, if_neg hform, hunits]

theorem cFormatG_max (prec : ℕ) : cFormatG guess x prec strip = cFormatG guess x (max prec 1) strip := by
  have hmax : (if prec < 1 then 1 else prec) = max prec 1 := by
    split_ifs <;> omega
  have hmax' : (if max prec 1 < 1 then 1 else max prec 1) = max prec 1 := if_neg (by omega)
  unfold cFormatG
  rw [hmax, hmax']

theorem cFormatG_zero (h : x.isZero = true) (prec : ℕ) : cFormatG guess x prec strip = some (cG x prec strip) := by
  have hmax : (if prec < 1 then 1 else prec) = max prec 1 := by
    split_ifs <;> omega
  have htoNat : (((max prec 1 : ℕ) : ℤ) - 1 - 0).toNat = max prec 1 - 1 := by omega
  unfold cFormatG cG cSignificant
  dsimp only
  rw [hmax, if_pos h, if_pos h, if_neg (show ¬((0 : ℤ) < -4 ∨ ((max prec 1 : ℕ) : ℤ) ≤ 0) by omega),
    htoNat, cUnits_zero h, zero_text]
  unfold trimmed cMinus
  have hall : (decimals (max prec 1 - 1) 0).rdropWhile (· = '0') = [] := by
    rw [decimals_zero, List.rdropWhile_eq_nil_iff]
    intro c hc
    rw [(List.mem_replicate.mp hc).2]
    rfl
  dsimp only
  rw [hall, if_pos rfl, Nat.zero_div]
  cases strip <;> cases x.negative <;> simp [Nat.toDigits_zero]

theorem cFormatG_iff (hx : x.expField ≠ 2047) (hprec : prec ≤ 99) :
    cFormatG guess x prec strip = some (cG x prec strip) ↔ ¬DigitsMiss x (max prec 1) := by
  by_cases hzero : x.isZero = true
  · exact iff_of_true (cFormatG_zero hzero prec) (not_digitsMiss_zero hzero)
  · have hdigits := host_digits hzero (le_max_right prec 1)
    rw [cFormatG_max, cFormatG_eq hzero (le_max_right _ _) (by omega), cG_eq hzero, Option.some_inj,
      ← digitsMiss_iff hx]
    split_ifs at hdigits with htie
    · rw [hdigits.2]
      exact iff_of_false (fun h => gForm_succ_ne x _ _ hdigits.1 h.symm) (not_not_intro htie)
    · rw [hdigits]
      exact iff_of_true rfl htie

end

/-- The guard is right up to 17 significant digits: 27 decimals that end with a 5 have 19. -/
theorem not_digitsMiss (x : F64) {p : ℕ} (hp : p ≤ 17) : ¬DigitsMiss x p := by
  rintro ⟨M, k, hk, hM, -, hd⟩
  have hlt := hd.lt
  have hfive : 5^27 ≤ 5^k := Nat.pow_le_pow_right (by norm_num) hk
  have hten : 10^(p + 1) ≤ 10^18 := Nat.pow_le_pow_right (by norm_num) (by omega)
  have hle : 1 * 5^k ≤ M * 5^k := Nat.mul_le_mul_right _ (by omega)
  omega

/-- For a finite double and a precision that `string.format` admits, each function prints what C prints except for
the doubles that the guard wrongly takes for free of ties. -/
theorem host_prints_c (guess : F64 → ℤ) (x : F64) (prec : ℕ) (strip : Bool) (hx : x.expField ≠ 2047)
    (hprec : prec ≤ 99) :
    (cFormatF x prec = cF x prec ↔ ¬FixedMiss x prec) ∧
      (cFormatE guess x prec = cE x prec ↔ ¬DigitsMiss x (prec + 1)) ∧
      (cFormatG guess x prec strip = some (cG x prec strip) ↔ ¬DigitsMiss x (max prec 1)) :=
  ⟨cFormatF_iff hx hprec, cFormatE_iff hx hprec, cFormatG_iff hx hprec⟩

/-- The double 0.1. -/
theorem host_prints_c_tenth :
    (cFormatF ⟨0x3FB999999999999A⟩ 20 = cF ⟨0x3FB999999999999A⟩ 20 ↔ ¬FixedMiss ⟨0x3FB999999999999A⟩ 20) ∧
      (cFormatE (fun _ => 0) ⟨0x3FB999999999999A⟩ 20 = cE ⟨0x3FB999999999999A⟩ 20 ↔
        ¬DigitsMiss ⟨0x3FB999999999999A⟩ 21) ∧
      (cFormatG (fun _ => 0) ⟨0x3FB999999999999A⟩ 20 true = some (cG ⟨0x3FB999999999999A⟩ 20 true) ↔
        ¬DigitsMiss ⟨0x3FB999999999999A⟩ 20) :=
  host_prints_c _ _ _ _ (by decide) (by norm_num)

/-- `2^(-31)` has 31 decimals, and the 30th of them is even before a 5. -/
theorem cFormatF_misses : (⟨0x3E00000000000000⟩ : F64).expField ≠ 2047 ∧
    cFormatF ⟨0x3E00000000000000⟩ 30 ≠ cF ⟨0x3E00000000000000⟩ 30 := by
  have hx : (⟨0x3E00000000000000⟩ : F64).expField ≠ 2047 := by decide
  refine ⟨hx, fun h => (cFormatF_iff hx (by norm_num : 30 ≤ 99)).mp h ⟨by norm_num, 1, rfl, ?_⟩⟩
  obtain ⟨k, n, hk, hkn, hn⟩ : ∃ k n, (⟨0x3E00000000000000⟩ : F64).expField = k ∧ k + n = 1075 ∧ n = 83 :=
    ⟨992, 83, by decide, by norm_num, rfl⟩
  have hsig : (⟨0x3E00000000000000⟩ : F64).significand = 2^52 := by decide
  unfold F64.magnitude
  rw [F64.scale_eq hkn, hk, hsig, max_eq_left (by omega), hn]
  push_cast
  rw [mul_comm ((2 : ℚ)^k), mul_div_mul_right _ _ (pow_ne_zero _ (by norm_num))]
  norm_num

end Lua2wasm.Format
