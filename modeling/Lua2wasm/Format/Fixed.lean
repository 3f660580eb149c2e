import Lua2wasm.Arith.Float
import Lua2wasm.Format.Int
import Lua2wasm.Lib.RoundEven

/-!
# Fixed-point numbers in `string.format`

`$fmt_fixed` of `runtime/prelude/string.wat`, which renders `%f` without the host where it can: for a double of the
significand `m` and the exponent `e`, `m * 5^prec` has two words, and one shift by `e + prec` with rounding gives
the digits. It gives up, and leaves the directive to the host, for infinities and NaN, for a precision above 13
and when the digits do not fit a word.

`cFixed` is what C prints, written from the rules of C with the exact value of the double. `fmtFixed_spec` says
that `$fmt_fixed` appends exactly that, or gives up and appends nothing.
-/

namespace Lua2wasm.Format

open Table (Fault setAt)
open Pack (orTrap ok_bind)
open Rounding

/-! ## The digits as a number -/

/-- The loop that computes a power of 5. -/
def pow5 : ℕ → UInt64
  | 0 => 1
  | n + 1 => pow5 n * 5

/-- `m * 5^prec` in two words, the higher one first, from two partial products. -/
def mulPow5 (m p5 : UInt64) : UInt64 × UInt64 :=
  let t1 := (m &&& 0xffffffff) * p5
  let t2 := (m >>> 32) * p5
  let lo := t1 + t2 <<< 32
  (t2 >>> 32 + (if lo < t1 then 1 else 0), lo)

/-- The remainder, of two words, asks for rounding up: it is more than half, or it is half and `q` is odd. -/
def roundsUp (q remhi remlo halfhi halflo : UInt64) : Bool :=
  if halfhi < remhi then true
  else if remhi = halfhi then
    if halflo < remlo then true
    else if remlo = halflo then q &&& 1 ≠ 0
    else false
  else false

/-- Rounding up, unless the sum does not fit. -/
def roundedUp (q : UInt64) (up : Bool) : Option UInt64 :=
  if up then if q + 1 = 0 then none else some (q + 1) else some q

/-- The shift to the left, unless the result does not fit. -/
def shiftUp (hi lo : UInt64) (s : ℕ) : Option UInt64 :=
  if hi ≠ 0 ∨ 64 ≤ s then none
  else if 0 < s ∧ lo >>> UInt64.ofNat (64 - s) ≠ 0 then none
  else some (lo <<< UInt64.ofNat s)

/-- The shift to the right, with rounding, unless the result does not fit. -/
def shiftDown (hi lo : UInt64) (t : ℕ) : Option UInt64 :=
  if t < 64 then
    if hi >>> UInt64.ofNat t ≠ 0 then none
    else
      let q := lo >>> UInt64.ofNat t ||| hi <<< UInt64.ofNat (64 - t)
      roundedUp q (roundsUp q 0 (lo &&& (1 <<< UInt64.ofNat t - 1)) 0 (1 <<< UInt64.ofNat (t - 1)))
  else if t < 128 then
    let q := hi >>> UInt64.ofNat (t - 64)
    roundedUp q (roundsUp q (hi &&& (1 <<< UInt64.ofNat (t - 64) - 1)) lo
      (if t = 64 then 0 else 1 <<< UInt64.ofNat (t - 65)) (if t = 64 then 0x8000000000000000 else 0))
  else some 0

/-- The digits of `$fmt_fixed`, as one number, unless it gives up. -/
def fixedDigits (x : F64) (prec : ℕ) : Option UInt64 :=
  if 13 < prec then none
  else if x.expField = 2047 then none
  else
    let e : ℤ := if x.expField ≠ 0 then x.expField - 1075 else -1074
    let (hi, lo) := mulPow5 (UInt64.ofNat x.significand) (pow5 prec)
    let s := e + prec
    if 0 ≤ s then shiftUp hi lo s.toNat else shiftDown hi lo (-s).toNat

/-- The loop that writes zeros above the digits. -/
def writeZeros : ℕ → List UInt8 → ℕ → Except Fault (List UInt8 × ℕ)
  | 0, tmp, n => .ok (tmp, n)
  | count + 1, tmp, n => do
    let tmp ← orTrap (setAt tmp n 48)
    writeZeros count tmp (n + 1)

/-- The end of `$fmt_fixed`, from where the number of its digits is known. -/
def putFixed (b : Builder) (tmp : List UInt8) (nd : ℕ) (neg : Bool) (prec : ℕ) (flags : Flags) (width : ℕ) :
    Except Fault Builder := do
  let dot := 0 < prec || flags.alt
  let signch := signByte neg true flags
  let body := (if signch ≠ 0 then 1 else 0) + nd + (if dot then 1 else 0)
  let pad := width - body
  let b ← (if !flags.left && !flags.zero then fmtFill b 32 pad else .ok b)
  let b ← (if signch ≠ 0 then b.append [signch] else .ok b)
  let b ← (if !flags.left && flags.zero then fmtFill b 48 pad else .ok b)
  let b ← putDigits tmp prec (nd - prec) b
  let b ← (if dot then b.append [46] else .ok b)
  let b ← putDigits tmp 0 prec b
  if flags.left then fmtFill b 32 pad else .ok b

/-- `$fmt_fixed`: whether it has rendered the directive, and the builder. -/
def fmtFixed (b : Builder) (scratch : Scratch) (x : F64) (prec : ℕ) (flags : Flags) (width : ℕ) :
    Except Fault (Bool × Builder) :=
  match fixedDigits x prec with
  | none => .ok (false, b)
  | some q => do
    let (tmp, nd) ← writeDigits 10 false 64 scratch.val 0 q
    let (tmp, nd) ← writeZeros (prec + 1 - nd) tmp nd
    let b ← putFixed b tmp nd x.negative prec flags width
    .ok (true, b)

/-! ## What C prints -/

/-- The double in units of the last decimal, rounded half to even from its exact value. -/
def cUnits (x : F64) (prec : ℕ) : ℕ := (roundEven (x.magnitude * 10^prec)).toNat

/-- The last decimals of a number, with the zeros in front. -/
def decimals : ℕ → ℕ → List Char
  | 0, _ => []
  | prec + 1, n => decimals prec (n / 10) ++ [Nat.digitChar (n % 10)]

/-- The digits that are printed. There is a point before the decimals, and with `#` even without them. -/
def cFixedDigits (flags : Flags) (prec : ℕ) (x : F64) : List Char :=
  Nat.toDigits 10 (cUnits x prec / 10^prec) ++ (if 0 < prec ∨ flags.alt then ['.'] else []) ++
    decimals prec (cUnits x prec)

/-- The sign, which is that of the double, even if all digits are zeros. -/
def cFixedSign (flags : Flags) (x : F64) : List Char :=
  if x.negative then ['-'] else if flags.plus then ['+'] else if flags.space then [' '] else []

/-- What C prints for `%f` with a precision. A result shorter than the width is filled up: with spaces behind it
for `-`, else with zeros behind the sign for `0`, else with spaces before it. -/
def cFixed (flags : Flags) (width prec : ℕ) (x : F64) : List Char :=
  let pad := width - (cFixedSign flags x ++ cFixedDigits flags prec x).length
  if flags.left then cFixedSign flags x ++ cFixedDigits flags prec x ++ List.replicate pad ' '
  else if flags.zero then cFixedSign flags x ++ List.replicate pad '0' ++ cFixedDigits flags prec x
  else List.replicate pad ' ' ++ (cFixedSign flags x ++ cFixedDigits flags prec x)

/-! ## Two words -/

section

variable {m p5 hi lo q : UInt64} {n t s P : ℕ}

theorem pow5_toNat (hn : n ≤ 13) : (pow5 n).toNat = 5^n := by
  induction n with
  | zero => rfl
  | succ n ih =>
    have hpow : 5^(n + 1) ≤ 5^13 := Nat.pow_le_pow_right (by norm_num) hn
    unfold pow5
    rw [UInt64.toNat_mul, ih (by omega), show (5 : UInt64).toNat = 5 from rfl, ← Nat.pow_succ]
    exact Nat.mod_eq_of_lt (by omega)

/-- Where the sum of the lower words has a carry, it goes to the upper one. -/
theorem add_words {a b c : ℕ} (ha : a < 2^63) (hb : b < 2^52)
    (hc : c = if 2^64 ≤ a + b * 2^32 % 2^64 then 1 else 0) :
    (b / 2^32 + c) % 2^64 * 2^64 + (a + b * 2^32 % 2^64) % 2^64 = b * 2^32 + a := by
  split_ifs at hc <;> omega

/-- The two words are the product. -/
theorem mulPow5_spec (hm : m.toNat < 2^53) (hp : p5.toNat < 2^31) :
    (mulPow5 m p5).1.toNat * 2^64 + (mulPow5 m p5).2.toNat = m.toNat * p5.toNat := by
  have hlow : (m &&& 0xffffffff).toNat = m.toNat % 2^32 := by
    rw [UInt64.toNat_and]
    exact Nat.and_two_pow_sub_one_eq_mod m.toNat 32
  have hhigh : (m >>> 32).toNat = m.toNat / 2^32 := by
    rw [UInt64.toNat_shiftRight]
    exact Nat.shiftRight_eq_div_pow _ _
  have hb₁ : m.toNat % 2^32 * p5.toNat < 2^32 * 2^31 :=
    Nat.mul_lt_mul'' (Nat.mod_lt _ (by norm_num)) hp
  have hb₂ : m.toNat / 2^32 * p5.toNat < 2^21 * 2^31 :=
    Nat.mul_lt_mul'' (by omega) hp
  have ht₁ : ((m &&& 0xffffffff) * p5).toNat = m.toNat % 2^32 * p5.toNat := by
    rw [UInt64.toNat_mul, hlow]
    exact Nat.mod_eq_of_lt (by omega)
  have ht₂ : ((m >>> 32) * p5).toNat = m.toNat / 2^32 * p5.toNat := by
    rw [UInt64.toNat_mul, hhigh]
    exact Nat.mod_eq_of_lt (by omega)
  have hsum : m.toNat * p5.toNat = m.toNat / 2^32 * p5.toNat * 2^32 + m.toNat % 2^32 * p5.toNat := by
    calc m.toNat * p5.toNat = (m.toNat / 2^32 * 2^32 + m.toNat % 2^32) * p5.toNat := by
          rw [Nat.div_add_mod']
      _ = m.toNat / 2^32 * p5.toNat * 2^32 + m.toNat % 2^32 * p5.toNat := by ring
  unfold mulPow5
  rw [hsum, ← ht₁, ← ht₂]
  rw [← ht₁] at hb₁
  rw [← ht₂] at hb₂
  generalize (m &&& 0xffffffff) * p5 = t₁ at *
  generalize (m >>> 32) * p5 = t₂ at *
  have hshl : (t₂ <<< 32).toNat = t₂.toNat * 2^32 % 2^64 := by
    rw [UInt64.toNat_shiftLeft]
    exact congrArg (· % 2^64) (Nat.shiftLeft_eq _ _)
  have hshr : (t₂ >>> 32).toNat = t₂.toNat / 2^32 := by
    rw [UInt64.toNat_shiftRight]
    exact Nat.shiftRight_eq_div_pow _ _
  have hlo : (t₁ + t₂ <<< 32).toNat = (t₁.toNat + t₂.toNat * 2^32 % 2^64) % 2^64 := by
    rw [UInt64.toNat_add, hshl]
  -- the sum of the lower words has a carry when it is below a summand
  have hcarry : t₁ + t₂ <<< 32 < t₁ ↔ 2^64 ≤ t₁.toNat + t₂.toNat * 2^32 % 2^64 := by
    rw [UInt64.lt_iff_toNat_lt, hlo]
    omega
  have hcarry' : (if t₁ + t₂ <<< 32 < t₁ then 1 else 0 : UInt64).toNat =
      if 2^64 ≤ t₁.toNat + t₂.toNat * 2^32 % 2^64 then 1 else 0 := by
    rw [← if_congr hcarry rfl rfl]
    split_ifs <;> rfl
  rw [UInt64.toNat_add, hshr, hlo]
  exact add_words hb₁ hb₂ hcarry'

theorem toNat_shiftRight_ofNat (u : UInt64) (ht : t < 64) : (u >>> UInt64.ofNat t).toNat = u.toNat / 2^t := by
  rw [UInt64.toNat_shiftRight, UInt64.toNat_ofNat', Nat.shiftRight_eq_div_pow]
  congr 2
  omega

theorem toNat_shiftLeft_ofNat (u : UInt64) (ht : t < 64) :
    (u <<< UInt64.ofNat t).toNat = u.toNat * 2^t % 2^64 := by
  rw [UInt64.toNat_shiftLeft, UInt64.toNat_ofNat', Nat.shiftLeft_eq]
  congr 3
  omega

theorem toNat_one_shiftLeft (ht : t < 64) : ((1 : UInt64) <<< UInt64.ofNat t).toNat = 2^t := by
  have hpow : 2^t < 2^64 := Nat.pow_lt_pow_right (by norm_num) ht
  rw [toNat_shiftLeft_ofNat 1 ht, show (1 : UInt64).toNat = 1 from rfl, Nat.one_mul]
  exact Nat.mod_eq_of_lt hpow

/-- The low bits of a word. -/
theorem toNat_lowBits (u : UInt64) (ht : t < 64) : (u &&& (1 <<< UInt64.ofNat t - 1)).toNat = u.toNat % 2^t := by
  have hone := toNat_one_shiftLeft ht
  have hpos : 0 < 2^t := Nat.two_pow_pos t
  have hsub : ((1 : UInt64) <<< UInt64.ofNat t - 1).toNat = 2^t - 1 := by
    rw [UInt64.toNat_sub_of_le, hone]
    · rfl
    · rw [UInt64.le_iff_toNat_le, hone]
      exact hpos
  rw [UInt64.toNat_and, hsub]
  exact Nat.and_two_pow_sub_one_eq_mod _ _

theorem ne_zero_iff_toNat (u : UInt64) : u ≠ 0 ↔ u.toNat ≠ 0 := by
  rw [Ne, ← UInt64.toNat_inj]
  rfl

/-- A result that fits a word is one, and any other is none. -/
def Fits (o : Option UInt64) (n : ℕ) : Prop := o = if n < 2^64 then some (UInt64.ofNat n) else none

theorem fits_some (h : q.toNat = n) : Fits (some q) n := by
  have hlt := q.toNat_lt
  unfold Fits
  rw [← h, if_pos hlt, UInt64.ofNat_toNat]

theorem fits_none (h : 2^64 ≤ n) : Fits none n := by
  unfold Fits
  rw [if_neg (by omega)]

/-- The shift to the left is exact. -/
theorem shiftUp_spec (hP : hi.toNat * 2^64 + lo.toNat = P) (hpos : 64 ≤ s → P ≠ 0) :
    Fits (shiftUp hi lo s) (P * 2^s) := by
  have hlo := lo.toNat_lt
  unfold shiftUp
  by_cases hout : hi ≠ 0 ∨ 64 ≤ s
  · rw [if_pos hout]
    apply fits_none
    obtain hhi | hs := hout
    · rw [ne_zero_iff_toNat] at hhi
      have hone : 1 ≤ 2^s := Nat.one_le_two_pow
      calc 2^64 ≤ P := by omega
        _ = P * 1 := (Nat.mul_one P).symm
        _ ≤ P * 2^s := Nat.mul_le_mul_left P hone
    · have hP0 := hpos hs
      calc 2^64 ≤ 2^s := Nat.pow_le_pow_right (by norm_num) hs
        _ = 1 * 2^s := (Nat.one_mul _).symm
        _ ≤ P * 2^s := Nat.mul_le_mul_right _ (by omega)
  · rw [if_neg hout]
    rw [not_or, not_not, not_le] at hout
    obtain ⟨rfl, hs⟩ := hout
    have hP' : P = lo.toNat := by
      rw [← hP]
      simp
    rw [hP']
    have hsplit : 2^64 = 2^(64 - s) * 2^s := by
      rw [← Nat.pow_add]
      congr 1
      omega
    -- bits are shifted out, or the product fits
    by_cases hover : 0 < s ∧ lo >>> UInt64.ofNat (64 - s) ≠ 0
    · rw [if_pos hover]
      apply fits_none
      obtain ⟨hs0, hne⟩ := hover
      rw [ne_zero_iff_toNat, toNat_shiftRight_ofNat lo (by omega)] at hne
      have hle : 2^(64 - s) ≤ lo.toNat := by
        by_contra hlt
        exact hne (Nat.div_eq_of_lt (by omega))
      rw [hsplit]
      exact Nat.mul_le_mul_right _ hle
    · rw [if_neg hover]
      apply fits_some
      rw [toNat_shiftLeft_ofNat lo hs]
      apply Nat.mod_eq_of_lt
      by_cases hs0 : s = 0
      · rw [hs0, Nat.pow_zero, Nat.mul_one]
        exact hlo
      · have hz : lo.toNat / 2^(64 - s) = 0 := by
          by_contra hne
          apply hover
          refine ⟨by omega, ?_⟩
          rw [ne_zero_iff_toNat, toNat_shiftRight_ofNat lo (by omega)]
          exact hne
        have hlt : lo.toNat < 2^(64 - s) := by
          rw [Nat.div_eq_zero_iff] at hz
          obtain h | h := hz
          · exact absurd h (Nat.two_pow_pos _).ne'
          · exact h
        rw [hsplit]
        exact Nat.mul_lt_mul_of_pos_right hlt (Nat.two_pow_pos s)

/-- Two words are compared as one number. -/
theorem roundsUp_iff {remhi remlo halfhi halflo : UInt64} {a h : ℕ}
    (ha : remhi.toNat * 2^64 + remlo.toNat = a) (hh : halfhi.toNat * 2^64 + halflo.toNat = h) :
    roundsUp q remhi remlo halfhi halflo = true ↔ h < a ∨ a = h ∧ q.toNat % 2 = 1 := by
  have h₁ := remlo.toNat_lt
  have h₂ := halflo.toNat_lt
  have hodd : q &&& 1 ≠ 0 ↔ q.toNat % 2 = 1 := by
    rw [ne_zero_iff_toNat, UInt64.toNat_and, show (1 : UInt64).toNat = 1 from rfl, Nat.and_one_is_mod]
    omega
  have hlt₁ : halfhi < remhi ↔ halfhi.toNat < remhi.toNat := UInt64.lt_iff_toNat_lt
  have hlt₂ : halflo < remlo ↔ halflo.toNat < remlo.toNat := UInt64.lt_iff_toNat_lt
  have heq₁ : remhi = halfhi ↔ remhi.toNat = halfhi.toNat := UInt64.toNat_inj.symm
  have heq₂ : remlo = halflo ↔ remlo.toNat = halflo.toNat := UInt64.toNat_inj.symm
  unfold roundsUp
  split_ifs with hhigh hsame hlow hhalf
  · rw [hlt₁] at hhigh
    exact iff_of_true rfl (Or.inl (by omega))
  · rw [heq₁] at hsame
    rw [hlt₂] at hlow
    exact iff_of_true rfl (Or.inl (by omega))
  · rw [heq₁] at hsame
    rw [heq₂] at hhalf
    rw [decide_eq_true_iff, hodd]
    constructor
    · exact fun hq => Or.inr ⟨by omega, hq⟩
    · rintro (hlt | ⟨-, hq⟩)
      · omega
      · exact hq
  · rw [heq₁] at hsame
    rw [hlt₂] at hlow
    rw [heq₂] at hhalf
    exact iff_of_false id (by omega)
  · rw [hlt₁] at hhigh
    rw [heq₁] at hsame
    exact iff_of_false id (by omega)

/-- A quotient, rounded by its remainder. -/
theorem roundedUp_spec {up : Bool} {d : ℕ} (hq : q.toNat = P / d)
    (hup : up = true ↔ d < 2 * (P % d) ∨ 2 * (P % d) = d ∧ P / d % 2 = 1) :
    Fits (roundedUp q up)
      (if d < 2 * (P % d) ∨ 2 * (P % d) = d ∧ P / d % 2 = 1 then P / d + 1 else P / d) := by
  have hlt := q.toNat_lt
  unfold roundedUp
  by_cases h : up = true
  · rw [if_pos h, if_pos (hup.mp h), ← hq]
    have hsum : (q + 1).toNat = (q.toNat + 1) % 2^64 := UInt64.toNat_add q 1
    split_ifs with hz
    · apply fits_none
      have hz' : (q + 1).toNat = 0 := by
        rw [hz]
        rfl
      omega
    · apply fits_some
      rw [← Ne, ne_zero_iff_toNat] at hz
      omega
  · rw [if_neg h, if_neg (fun h' => h (hup.mpr h')), ← hq]
    exact fits_some rfl

/-- The quotient by a power of two, rounded half to even. -/
def shifted (P t : ℕ) : ℕ :=
  if 2^t < 2 * (P % 2^t) ∨ 2 * (P % 2^t) = 2^t ∧ P / 2^t % 2 = 1 then P / 2^t + 1 else P / 2^t

/-- The remainder is in the lower word. -/
theorem shiftDown_low (hP : hi.toNat * 2^64 + lo.toNat = P) (ht : 0 < t) (h64 : t < 64) :
    Fits (shiftDown hi lo t) (shifted P t) := by
  have hlo := lo.toNat_lt
  unfold shiftDown
  rw [if_pos h64]
  by_cases hover : hi >>> UInt64.ofNat t ≠ 0
  · -- the quotient does not fit
    rw [if_pos hover]
    apply fits_none
    rw [ne_zero_iff_toNat, toNat_shiftRight_ofNat hi h64] at hover
    have hle : 2^t ≤ hi.toNat := by
      by_contra hlt
      exact hover (Nat.div_eq_of_lt (by omega))
    have hquot : 2^64 ≤ P / 2^t := by
      rw [Nat.le_div_iff_mul_le (Nat.two_pow_pos t)]
      calc 2^64 * 2^t = 2^t * 2^64 := Nat.mul_comm _ _
        _ ≤ hi.toNat * 2^64 := Nat.mul_le_mul_right _ hle
        _ ≤ P := by omega
    unfold shifted
    split_ifs <;> omega
  · rw [if_neg hover]
    rw [not_not] at hover
    have hhi : hi.toNat < 2^t := by
      have hz : hi.toNat / 2^t = 0 := by
        rw [← toNat_shiftRight_ofNat hi h64, hover]
        rfl
      rw [Nat.div_eq_zero_iff] at hz
      obtain h | h := hz
      · exact absurd h (Nat.two_pow_pos _).ne'
      · exact h
    have hsplit : 2^64 = 2^t * 2^(64 - t) := by
      rw [← Nat.pow_add]
      congr 1
      omega
    have hpos := Nat.two_pow_pos t
    have hshift : hi.toNat * 2^64 = 2^t * (hi.toNat * 2^(64 - t)) := by
      rw [hsplit]
      ring
    -- the lower `t` bits of the product are those of the lower word
    have hmod : P % 2^t = lo.toNat % 2^t := by
      rw [← hP, hshift, Nat.mul_add_mod]
    have hdiv : P / 2^t = hi.toNat * 2^(64 - t) + lo.toNat / 2^t := by
      rw [← hP, hshift, Nat.mul_add_div hpos]
    have hq : (lo >>> UInt64.ofNat t ||| hi <<< UInt64.ofNat (64 - t)).toNat = P / 2^t := by
      have hlow : lo.toNat / 2^t < 2^(64 - t) := by
        rw [Nat.div_lt_iff_lt_mul hpos, Nat.mul_comm, ← hsplit]
        exact hlo
      have hfit : hi.toNat * 2^(64 - t) < 2^64 := by
        rw [hsplit]
        exact Nat.mul_lt_mul_of_pos_right hhi (Nat.two_pow_pos _)
      rw [UInt64.toNat_or, toNat_shiftRight_ofNat lo h64, toNat_shiftLeft_ofNat hi (by omega),
        Nat.mod_eq_of_lt hfit, hdiv, Nat.or_comm, Nat.mul_comm hi.toNat]
      exact (Nat.two_pow_add_eq_or_of_lt hlow hi.toNat).symm
    have hhalf : 2^t = 2 * 2^(t - 1) := by
      rw [← Nat.pow_succ']
      congr 1
      omega
    apply roundedUp_spec hq
    rw [roundsUp_iff (a := P % 2^t) (h := 2^(t - 1)), hq, hhalf]
    · constructor
      · rintro (h | ⟨h, h'⟩)
        · exact Or.inl (by omega)
        · exact Or.inr ⟨by omega, h'⟩
      · rintro (h | ⟨h, h'⟩)
        · exact Or.inl (by omega)
        · exact Or.inr ⟨by omega, h'⟩
    · rw [show (0 : UInt64).toNat = 0 from rfl, Nat.zero_mul, Nat.zero_add, toNat_lowBits lo h64, hmod]
    · rw [show (0 : UInt64).toNat = 0 from rfl, Nat.zero_mul, Nat.zero_add, toNat_one_shiftLeft (by omega)]

/-- The remainder has both words. -/
theorem shiftDown_high (hP : hi.toNat * 2^64 + lo.toNat = P) (h64 : 64 ≤ t) (h128 : t < 128) :
    Fits (shiftDown hi lo t) (shifted P t) := by
  have hlo := lo.toNat_lt
  unfold shiftDown
  rw [if_neg (by omega), if_pos h128]
  obtain ⟨j, rfl⟩ : ∃ j, t = 64 + j := ⟨t - 64, by omega⟩
  have hj : j < 64 := by omega
  have hsub : 64 + j - 64 = j := by omega
  have hpow : 2^(64 + j) = 2^64 * 2^j := Nat.pow_add 2 64 j
  have hdiv : P / 2^(64 + j) = hi.toNat / 2^j := by
    have hword : P / 2^64 = hi.toNat := by omega
    rw [hpow, ← Nat.div_div_eq_div_mul, hword]
  have hmod : P % 2^(64 + j) = hi.toNat % 2^j * 2^64 + lo.toNat := by
    have hword : P / 2^64 = hi.toNat := by omega
    have hrest : P % 2^64 = lo.toNat := by omega
    rw [hpow, Nat.mod_mul, hword, hrest]
    ring
  rw [hsub]
  have hq : (hi >>> UInt64.ofNat j).toNat = P / 2^(64 + j) := by
    rw [toNat_shiftRight_ofNat hi hj, hdiv]
  apply roundedUp_spec hq
  rw [roundsUp_iff (a := P % 2^(64 + j)) (h := 2^(63 + j)), hq, show 64 + j = 63 + j + 1 by omega, Nat.pow_succ]
  · constructor
    · rintro (h | ⟨h, h'⟩)
      · exact Or.inl (by omega)
      · exact Or.inr ⟨by omega, h'⟩
    · rintro (h | ⟨h, h'⟩)
      · exact Or.inl (by omega)
      · exact Or.inr ⟨by omega, h'⟩
  · rw [toNat_lowBits hi hj, hmod]
  · by_cases hzero : j = 0
    · subst hzero
      rfl
    · rw [if_neg (by omega), if_neg (by omega), show 64 + j - 65 = j - 1 by omega, toNat_one_shiftLeft (by omega),
        show (0 : UInt64).toNat = 0 from rfl, Nat.add_zero, ← Nat.pow_add]
      congr 1
      omega

/-- All that is left is less than half a unit. -/
theorem shiftDown_far (hsmall : P < 2^84) (h128 : 128 ≤ t) : Fits (shiftDown hi lo t) (shifted P t) := by
  unfold shiftDown
  rw [if_neg (by omega), if_neg (by omega)]
  have hbig : 2 * P < 2^t := by
    calc 2 * P < 2^128 := by omega
      _ ≤ 2^t := Nat.pow_le_pow_right (by norm_num) (by omega)
  have hdiv : P / 2^t = 0 := Nat.div_eq_of_lt (by omega)
  have hmod : P % 2^t = P := Nat.mod_eq_of_lt (by omega)
  unfold shifted
  rw [hdiv, hmod, if_neg (by omega)]
  exact fits_some rfl

/-- The shift to the right rounds half to even. -/
theorem shiftDown_spec (hP : hi.toNat * 2^64 + lo.toNat = P) (hsmall : P < 2^84) (ht : 0 < t) :
    Fits (shiftDown hi lo t) (shifted P t) := by
  obtain h64 | h64 := Nat.lt_or_ge t 64
  · exact shiftDown_low hP ht h64
  · obtain h128 | h128 := Nat.lt_or_ge t 128
    · exact shiftDown_high hP h64 h128
    · exact shiftDown_far hsmall h128

end

/-! ## The rounding -/

section

variable {x : F64} {prec : ℕ}

/-- The exponent of two of the double in units of its last bit, from 1075 on. -/
theorem units_eq (x : F64) (prec : ℕ) :
    x.magnitude * 10^prec =
      ((x.significand * 5^prec * 2^(max x.expField 1 + prec) : ℕ) : ℚ) / (F64.scale : ℚ) := by
  have hten : (10 : ℚ)^prec = 5^prec * 2^prec := by
    rw [← mul_pow]
    norm_num
  unfold F64.magnitude
  rw [div_mul_eq_mul_div, hten]
  push_cast
  ring

/-- The shift to the left gives the units. -/
theorem cUnits_of_shiftUp {s : ℕ} (hs : max x.expField 1 + prec = 1075 + s) :
    cUnits x prec = x.significand * 5^prec * 2^s := by
  obtain ⟨n, hn⟩ : ∃ n, 0 + n = 1075 := ⟨1075, by norm_num⟩
  have hscale := F64.scale_eq hn
  rw [pow_zero, Nat.one_mul] at hscale
  have hval : x.magnitude * 10^prec = ((x.significand * 5^prec * 2^s : ℕ) : ℚ) := by
    rw [units_eq, div_eq_iff F64.scale_pos.ne', hscale, show max x.expField 1 + prec = s + n by omega, Nat.pow_add]
    push_cast
    ring
  unfold cUnits
  rw [hval, roundEven_natCast]
  exact Int.toNat_natCast _

/-- The shift to the right, with its rounding, gives the units. -/
theorem cUnits_of_shiftDown {t : ℕ} (ht : max x.expField 1 + prec + t = 1075) :
    cUnits x prec = shifted (x.significand * 5^prec) t := by
  have hpos : 0 < 2^t := Nat.two_pow_pos t
  have hval : x.magnitude * 10^prec = ((x.significand * 5^prec : ℕ) : ℚ) / ((2^t : ℕ) : ℚ) := by
    have hne : ((2^t : ℕ) : ℚ) ≠ 0 := by exact_mod_cast hpos.ne'
    rw [units_eq, div_eq_div_iff F64.scale_pos.ne' hne, F64.scale_eq ht]
    push_cast
    ring
  unfold cUnits shifted
  rw [hval, roundEven_div hpos]
  split_ifs
  · exact Int.toNat_natCast _
  · exact Int.toNat_natCast _

/-- The digits are the units, whenever these fit a word. -/
theorem fixedDigits_spec (hprec : prec ≤ 13) (hfinite : x.expField ≠ 2047) :
    Fits (fixedDigits x prec) (cUnits x prec) := by
  have hsig := x.significand_lt
  have hp5 : (pow5 prec).toNat = 5^prec := pow5_toNat hprec
  have h5 : 5^prec < 2^31 := by
    calc 5^prec ≤ 5^13 := Nat.pow_le_pow_right (by norm_num) hprec
      _ < 2^31 := by norm_num
  have hm : (UInt64.ofNat x.significand).toNat = x.significand := by
    rw [UInt64.toNat_ofNat']
    exact Nat.mod_eq_of_lt (by omega)
  have hP : (mulPow5 (UInt64.ofNat x.significand) (pow5 prec)).1.toNat * 2^64 +
      (mulPow5 (UInt64.ofNat x.significand) (pow5 prec)).2.toNat = x.significand * 5^prec := by
    rw [mulPow5_spec (by rw [hm]; exact hsig) (by rw [hp5]; exact h5), hm, hp5]
  have hsmall : x.significand * 5^prec < 2^84 := by
    calc x.significand * 5^prec < 2^53 * 2^31 := Nat.mul_lt_mul'' hsig h5
      _ = 2^84 := by norm_num
  have he : (if x.expField ≠ 0 then (x.expField : ℤ) - 1075 else -1074) = (max x.expField 1 : ℕ) - 1075 := by
    split_ifs with h
    · omega
    · omega
  unfold fixedDigits
  rw [if_neg (by omega), if_neg hfinite]
  dsimp only
  rw [he]
  generalize mulPow5 (UInt64.ofNat x.significand) (pow5 prec) = words at *
  by_cases hs : 0 ≤ ((max x.expField 1 : ℕ) : ℤ) - 1075 + prec
  · rw [if_pos hs]
    obtain ⟨s, hs'⟩ := Int.eq_ofNat_of_zero_le hs
    rw [hs', Int.toNat_natCast, cUnits_of_shiftUp (s := s) (by omega)]
    apply shiftUp_spec hP
    -- the shift is far only for a normal double
    intro h64 hzero
    obtain h | h := Nat.mul_eq_zero.mp hzero
    · have hzero' := F64.significand_eq_zero.mp h
      unfold F64.isZero at hzero'
      rw [Bool.and_eq_true, decide_eq_true_iff] at hzero'
      omega
    · exact (Nat.pow_pos (by norm_num : 0 < 5)).ne' h
  · rw [if_neg hs]
    obtain ⟨t, ht⟩ := Int.eq_ofNat_of_zero_le (show 0 ≤ -(((max x.expField 1 : ℕ) : ℤ) - 1075 + prec) by omega)
    rw [ht, Int.toNat_natCast, cUnits_of_shiftDown (t := t) (by omega)]
    exact shiftDown_spec hP hsmall (by omega)

end

/-! ## The digits -/

section

variable {prec q : ℕ}

theorem length_decimals (prec q : ℕ) : (decimals prec q).length = prec := by
  induction prec generalizing q with
  | zero => rfl
  | succ prec ih =>
    unfold decimals
    rw [List.length_append, ih]
    rfl

/-- The digits of a number, with zeros for missing ones, are those before the point and the decimals. -/
theorem padded_digits (prec q : ℕ) :
    List.replicate (prec + 1 - (Nat.toDigits 10 q).length) '0' ++ Nat.toDigits 10 q =
      Nat.toDigits 10 (q / 10^prec) ++ decimals prec q := by
  induction prec generalizing q with
  | zero =>
    have hpos : 0 < (Nat.toDigits 10 q).length := Nat.length_toDigits_pos
    rw [show 0 + 1 - (Nat.toDigits 10 q).length = 0 by omega, Nat.pow_zero, Nat.div_one]
    exact (List.append_nil _).symm
  | succ prec ih =>
    have hdiv : q / 10^(prec + 1) = q / 10 / 10^prec := by
      rw [Nat.pow_succ', Nat.div_div_eq_div_mul]
    unfold decimals
    rw [hdiv, ← List.append_assoc, ← ih (q / 10)]
    obtain hlt | hge := Nat.lt_or_ge q 10
    · -- a single digit: one zero becomes the digit of 0
      rw [Nat.div_eq_of_lt hlt, Nat.mod_eq_of_lt hlt, Nat.toDigits_of_lt_base hlt,
        show Nat.toDigits 10 0 = ['0'] from rfl]
      rw [List.length_singleton, List.length_singleton, Nat.add_sub_cancel, Nat.add_sub_cancel,
        ← List.replicate_succ']
    · rw [Nat.toDigits_of_base_le (by norm_num) hge, List.length_append, List.length_singleton,
        Nat.add_sub_add_right, List.append_assoc]

theorem writeZeros_spec {count : ℕ} : ∀ {tmp : List UInt8} {n : ℕ}, n + count ≤ tmp.length →
    ∃ tmp', writeZeros count tmp n = .ok (tmp', n + count) ∧ tmp'.length = tmp.length ∧
      tmp'.take (n + count) = tmp.take n ++ List.replicate count 48 := by
  induction count with
  | zero =>
    intro tmp n h
    exact ⟨tmp, rfl, rfl, (List.append_nil _).symm⟩
  | succ count ih =>
    intro tmp n h
    have hset : setAt tmp n 48 = some (tmp.set n 48) := by
      unfold setAt
      rw [if_pos (by omega)]
    obtain ⟨tmp', hrun, hlen, htake⟩ := @ih (tmp.set n 48) (n + 1) (by rw [List.length_set]; omega)
    refine ⟨tmp', ?_, ?_, ?_⟩
    · unfold writeZeros
      rw [hset]
      show writeZeros count (tmp.set n 48) (n + 1) = _
      rw [hrun, show n + 1 + count = n + (count + 1) by omega]
    · rw [hlen, List.length_set]
    · rw [show n + (count + 1) = n + 1 + count by omega, htake, List.replicate_succ,
        List.take_succ_eq_append_getElem (by rw [List.length_set]; omega), List.getElem_set_self,
        List.take_set_of_le le_rfl, List.append_assoc]
      rfl

end

/-! ## The directive -/

section

variable {x : F64} {prec : ℕ} {flags : Flags} {tmp : List UInt8} {whole dec : List Char}

/-- The scratch array holds the digits in reverse: the decimals, and above them those before the point. -/
structure HasFixed (tmp : List UInt8) (whole dec : List Char) : Prop where
  le : (dec.length + whole.length) ≤ tmp.length
  take_eq : tmp.take (dec.length + whole.length) = (ascii dec).reverse ++ (ascii whole).reverse

/-- The digits fit the scratch array. -/
theorem digits_written (scratch : Scratch) (u : UInt64) (hprec : prec ≤ 13) :
    ∃ tmp nd tmp', writeDigits 10 false 64 scratch.val 0 u = .ok (tmp, nd) ∧
      writeZeros (prec + 1 - nd) tmp nd =
        .ok (tmp', (decimals prec u.toNat).length + (Nat.toDigits 10 (u.toNat / 10^prec)).length) ∧
      HasFixed tmp' (Nat.toDigits 10 (u.toNat / 10^prec)) (decimals prec u.toNat) := by
  have hnum : numeral 10 false u.toNat = Nat.toDigits 10 u.toNat := List.map_id _
  have hle : (Nat.toDigits 10 u.toNat).length ≤ 22 := by
    rw [← hnum]
    exact length_numeral_le (by decide : 8 ≤ (10 : UInt64).toNat) u
  have hfit : u.toNat < (10 : UInt64).toNat^64 := by
    calc u.toNat < 2^64 := u.toNat_lt
      _ ≤ 10^64 := by norm_num
  have hspec := writeDigits_spec false (by decide : 8 ≤ (10 : UInt64).toNat) (by decide) 64 scratch.val 0 u hfit
  rw [show (10 : UInt64).toNat = 10 from rfl, hnum, Nat.zero_add] at hspec
  obtain ⟨tmp, hrun, hlen, htake⟩ := hspec (by omega) (by norm_num)
  have hroom : (Nat.toDigits 10 u.toNat).length + (prec + 1 - (Nat.toDigits 10 u.toNat).length) ≤ tmp.length := by
    omega
  obtain ⟨tmp', hrun', hlen', htake'⟩ := writeZeros_spec hroom
  -- the zeros and the digits, read from the other end
  have hpad := padded_digits prec u.toNat
  have hcount : (Nat.toDigits 10 u.toNat).length + (prec + 1 - (Nat.toDigits 10 u.toNat).length) =
      (decimals prec u.toNat).length + (Nat.toDigits 10 (u.toNat / 10^prec)).length := by
    have hlengths := congrArg List.length hpad
    rw [List.length_append, List.length_append, List.length_replicate] at hlengths
    omega
  have hall : (ascii (decimals prec u.toNat)).reverse ++ (ascii (Nat.toDigits 10 (u.toNat / 10^prec))).reverse =
      (ascii (Nat.toDigits 10 u.toNat)).reverse ++
        List.replicate (prec + 1 - (Nat.toDigits 10 u.toNat).length) 48 := by
    rw [← List.reverse_append, ← ascii_append, ← hpad, ascii_append, List.reverse_append, ascii_replicate,
      List.reverse_replicate]
    rfl
  rw [hcount] at hrun' htake'
  refine ⟨tmp, _, tmp', hrun, hrun', ?_, ?_⟩
  · rw [← hcount, hlen', hlen]
    omega
  · rw [htake', htake, hall]
    rfl

theorem HasFixed.whole_eq (h : HasFixed tmp whole dec) (b : Builder) :
    putDigits tmp dec.length whole.length b = b.append (ascii whole) := by
  have hlen : (ascii dec).reverse.length = dec.length := by
    rw [List.length_reverse, length_ascii]
  rw [putDigits_eq b h.le, List.take_drop, h.take_eq, List.drop_left' hlen, List.reverse_reverse]

theorem HasFixed.dec_eq (h : HasFixed tmp whole dec) (b : Builder) :
    putDigits tmp 0 dec.length b = b.append (ascii dec) := by
  have hle := h.le
  have hlen : (ascii dec).reverse.length = dec.length := by
    rw [List.length_reverse, length_ascii]
  have htake : tmp.take dec.length = (tmp.take (dec.length + whole.length)).take dec.length := by
    rw [List.take_take, Nat.min_eq_left (by omega)]
  rw [putDigits_eq b (by omega), List.drop_zero, htake, h.take_eq, List.take_left' hlen, List.reverse_reverse]

/-- The byte of the sign. -/
theorem fixedSign_eq (flags : Flags) (x : F64) :
    (if signByte x.negative true flags ≠ 0 then [signByte x.negative true flags] else []) =
      ascii (cFixedSign flags x) := by
  unfold signByte cFixedSign
  split_ifs <;> simp_all [ascii]

/-- The byte of the point. -/
theorem dot_eq (prec : ℕ) (flags : Flags) :
    (if (decide (0 < prec) || flags.alt) = true then [46] else []) =
      ascii (if 0 < prec ∨ flags.alt = true then ['.'] else []) := by
  have hiff : (decide (0 < prec) || flags.alt) = true ↔ 0 < prec ∨ flags.alt = true := by
    rw [Bool.or_eq_true, decide_eq_true_iff]
  by_cases h : 0 < prec ∨ flags.alt = true
  · rw [if_pos (hiff.mpr h), if_pos h]
    rfl
  · rw [if_neg (fun h' => h (hiff.mp h')), if_neg h]
    rfl

/-- The pieces in the order of the source: the padding is in one of three places. -/
theorem fixed_arranged (flags : Flags) (sign whole dot dec : List Char) (pad : ℕ) :
    (if (!flags.left && !flags.zero) = true then List.replicate pad 32 else []) ++ (ascii sign ++
        ((if (!flags.left && flags.zero) = true then List.replicate pad 48 else []) ++ (ascii whole ++ (ascii dot ++
          (ascii dec ++ if flags.left = true then List.replicate pad 32 else []))))) =
      ascii (if flags.left = true then sign ++ (whole ++ dot ++ dec) ++ List.replicate pad ' '
        else if flags.zero = true then sign ++ List.replicate pad '0' ++ (whole ++ dot ++ dec)
        else List.replicate pad ' ' ++ (sign ++ (whole ++ dot ++ dec))) := by
  cases flags.left <;> cases flags.zero
  · simp [ascii_append, ascii_replicate]
  · simp [ascii_append, ascii_replicate]
  · simp [ascii_append, ascii_replicate]
  · simp [ascii_append, ascii_replicate]

/-- The directive is put together from the digits. -/
theorem putFixed_spec (b : Builder) (x : F64) (prec : ℕ) (flags : Flags) (width : ℕ)
    (h : HasFixed tmp (Nat.toDigits 10 (cUnits x prec / 10^prec)) (decimals prec (cUnits x prec))) :
    putFixed b tmp ((decimals prec (cUnits x prec)).length + (Nat.toDigits 10 (cUnits x prec / 10^prec)).length)
        x.negative prec flags width = b.append (ascii (cFixed flags width prec x)) := by
  have hwhole := h.whole_eq
  have hdec := h.dec_eq
  rw [length_decimals] at hwhole hdec
  have hpad : width - ((if signByte x.negative true flags ≠ 0 then 1 else 0) +
      (prec + (Nat.toDigits 10 (cUnits x prec / 10^prec)).length) +
        if (decide (0 < prec) || flags.alt) = true then 1 else 0) =
      width - (cFixedSign flags x ++ cFixedDigits flags prec x).length := by
    have hsign := congrArg List.length (fixedSign_eq flags x)
    have hdot := congrArg List.length (dot_eq prec flags)
    rw [length_ascii, apply_ite List.length] at hsign hdot
    unfold cFixedDigits
    rw [List.length_append, List.length_append, List.length_append, length_decimals, ← hsign, ← hdot]
    simp only [List.length_singleton, List.length_nil]
    omega
  unfold putFixed
  dsimp only
  rw [length_decimals, hpad, Nat.add_sub_cancel_left]
  unfold cFixed
  generalize width - (cFixedSign flags x ++ cFixedDigits flags prec x).length = pad
  simp only [fmtFill_eq, hwhole, hdec, append_if, Builder.append_append, fixedSign_eq, dot_eq]
  unfold cFixedDigits
  exact congrArg b.append (fixed_arranged flags _ _ _ _ pad)

/-- For every double, precision, flags and width, `$fmt_fixed` appends what C prints, or gives up and appends
nothing: for infinities and NaN, for a precision above 13, and when the digits do not fit 64 bits. The scratch array
is large enough: out of it the digits would trap. -/
theorem fmtFixed_spec (b : Builder) (scratch : Scratch) (x : F64) (prec : ℕ) (flags : Flags) (width : ℕ) :
    fmtFixed b scratch x prec flags width =
      if 13 < prec ∨ x.expField = 2047 ∨ 2^64 ≤ cUnits x prec then .ok (false, b)
      else (b.append (ascii (cFixed flags width prec x))).map fun b => (true, b) := by
  unfold fmtFixed
  by_cases hprec : 13 < prec
  · rw [if_pos (Or.inl hprec), fixedDigits, if_pos hprec]
  · by_cases hfinite : x.expField = 2047
    · rw [if_pos (Or.inr (Or.inl hfinite)), fixedDigits, if_neg hprec, if_pos hfinite]
    · have hdigits := fixedDigits_spec (by omega : prec ≤ 13) hfinite
      unfold Fits at hdigits
      by_cases hfits : cUnits x prec < 2^64
      · rw [if_neg (by omega), hdigits, if_pos hfits]
        have hnat : (UInt64.ofNat (cUnits x prec)).toNat = cUnits x prec := by
          rw [UInt64.toNat_ofNat']
          exact Nat.mod_eq_of_lt hfits
        obtain ⟨tmp, nd, tmp', hwrite, hzeros, hhas⟩ :=
          digits_written scratch (UInt64.ofNat (cUnits x prec)) (by omega : prec ≤ 13)
        rw [hnat] at hzeros hhas
        dsimp only
        rw [hwrite, ok_bind]
        rw [hzeros, ok_bind]
        rw [putFixed_spec b x prec flags width hhas]
        cases b.append (ascii (cFixed flags width prec x)) with
        | ok b' => rfl
        | error e => rfl
      · rw [if_pos (Or.inr (Or.inr (by omega))), hdigits, if_neg hfits]

end

end Lua2wasm.Format
