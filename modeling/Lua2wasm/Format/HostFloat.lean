import Lua2wasm.Arith.Float
import Lua2wasm.Lib.Significant

/-!
# Doubles as text on the host

`cFormatF`, `cFormatE` and `cFormatG` of `runtime/format.mjs`, which print a double like C. A double whose lowest
bit is far below the point goes to the methods of JavaScript, on the ground that no tie is possible there, and any
other one is rounded with integers of any size.

The methods are those of ECMAScript (`toFixed`, `toExponential`, `toPrecision`), which take the larger of two
nearest decimals. Texts are lists of characters. `Math.log10` is only a first guess at the exponent, which is
corrected, and can be anything.
-/

namespace Lua2wasm.Format

open Rounding

/-! ## ECMAScript -/

/-- The minus sign of the methods, which zero does not get. -/
def jsSign (x : F64) : List Char := if x.negative && !x.isZero then ['-'] else []

/-- `String` of an exponent, with its sign. -/
def jsExponent (e : ℤ) : List Char := (if 0 ≤ e then '+' else '-') :: Nat.toDigits 10 e.natAbs

/-- The first digits, a point and the others. -/
def pointAfter (k : ℕ) (m : List Char) : List Char := m.take k ++ '.' :: m.drop k

/-- `Number.prototype.toFixed`, of a finite number below `10^21`. -/
def toFixed (x : F64) (f : ℕ) : List Char :=
  let m := Nat.toDigits 10 (roundUp (x.magnitude * 10^f)).toNat
  if f = 0 then jsSign x ++ m
  else
    let m := List.replicate (f + 1 - m.length) '0' ++ m
    jsSign x ++ pointAfter (m.length - f) m

/-- `Number.prototype.toExponential`, of a finite number. -/
def toExponential (x : F64) (f : ℕ) : List Char :=
  let (e, m) := if x.isZero then (0, List.replicate (f + 1) '0')
    else ((significant roundUp (f + 1) x.magnitude).1,
      Nat.toDigits 10 (significant roundUp (f + 1) x.magnitude).2)
  jsSign x ++ (if f = 0 then m else pointAfter 1 m) ++ 'e' :: jsExponent e

/-- `Number.prototype.toPrecision`, of a finite number. -/
def toPrecision (x : F64) (p : ℕ) : List Char :=
  let (e, m) := if x.isZero then (0, List.replicate p '0')
    else ((significant roundUp p x.magnitude).1, Nat.toDigits 10 (significant roundUp p x.magnitude).2)
  if e < -6 ∨ p ≤ e then jsSign x ++ (if p = 1 then m else pointAfter 1 m) ++ 'e' :: jsExponent e
  else if e = p - 1 then jsSign x ++ m
  else if 0 ≤ e then jsSign x ++ pointAfter (e + 1).toNat m
  else jsSign x ++ (['0', '.'] ++ List.replicate (-(e + 1)).toNat '0' ++ m)

/-- `Math.clz32`. -/
def clz32 (w : UInt32) : ℕ := if w = 0 then 32 else 31 - Nat.log2 w.toNat

/-- `parseInt` of decimal digits that may have a sign. -/
def parseInt : List Char → ℤ
  | '-' :: s => -Nat.ofDigitChars 10 s 0
  | '+' :: s => Nat.ofDigitChars 10 s 0
  | s => Nat.ofDigitChars 10 s 0

/-! ## The double -/

/-- `decomposeAbs`: the integers `m` and `e` with `|x| = m * 2^e`. -/
def decomposeAbs (x : F64) : ℕ × ℤ :=
  if x.expField = 0 then (x.fracField, -1074) else (x.fracField ||| 2^52, x.expField - 1075)

/-- `Math.clz32(w & -w) ^ 31`, the position of the lowest bit. -/
def lowBit (w : UInt32) : ℕ := clz32 (w &&& -w) ^^^ 31

/-- `lowBitExp`. -/
def lowBitExp (x : F64) : ℤ :=
  let lo := UInt32.ofNat (x.bits.toNat % 2^32)
  let hi := UInt32.ofNat (x.bits.toNat / 2^32)
  let expBits := hi >>> 20 &&& 0x7ff
  let mhi := if expBits ≠ 0 then hi &&& 0xfffff ||| 0x100000 else hi &&& 0xfffff
  let e : ℤ := if expBits = 0 then -1074 else expBits.toNat - 1075
  let tz := if lo ≠ 0 then lowBit lo else 32 + lowBit mhi
  e + tz

/-- `tieFree`. -/
def tieFree (x : F64) : Bool := !x.isZero && x.expField ≠ 2047 && lowBitExp x ≤ -27

/-- `geqPow10`. -/
def geqPow10 (m : ℕ) (e k : ℤ) : Bool :=
  let (a, b) := if 0 ≤ e then (m <<< e.toNat, 1) else (m, 1 <<< (-e).toNat)
  let (a, b) := if 0 ≤ k then (a, b * 10^k.toNat) else (a * 10^(-k).toNat, b)
  b ≤ a

/-- `scaledRoundEven`. -/
def scaledRoundEven (m : ℕ) (e k : ℤ) : ℕ :=
  let (num, den) := if 0 ≤ k then (m * 10^k.toNat, 1) else (m, 10^(-k).toNat)
  let (num, den) := if 0 ≤ e then (num <<< e.toNat, den) else (num, den <<< (-e).toNat)
  let q := num / den
  let r := num % den
  let twice := 2 * r
  if twice < den then q else if den < twice then q + 1 else if q % 2 = 0 then q else q + 1

section

variable {m : ℕ} {e k : ℤ}

/-- A power, as the quotient of two natural numbers of which one is 1. -/
theorem zpow_eq_div {c : ℕ} (hc : c ≠ 0) (z : ℤ) : (c : ℚ)^z = ((c^z.toNat : ℕ) : ℚ) / ((c^(-z).toNat : ℕ) : ℚ) := by
  have hc' : (c : ℚ) ≠ 0 := Nat.cast_ne_zero.mpr hc
  push_cast
  rw [← zpow_natCast, ← zpow_natCast, ← zpow_sub₀ hc']
  congr 1
  omega

/-- The comparison is exact. -/
theorem geqPow10_iff : geqPow10 m e k = true ↔ (10 : ℚ)^k ≤ m * 2^e := by
  have hplain : geqPow10 m e k =
      decide (2^(-e).toNat * 10^k.toNat ≤ m * 2^e.toNat * 10^(-k).toNat) := by
    unfold geqPow10
    split_ifs with he hk hk
    · simp [Int.toNat_of_nonpos (show -e ≤ 0 by omega), Int.toNat_of_nonpos (show -k ≤ 0 by omega), Nat.shiftLeft_eq]
    · simp [Int.toNat_of_nonpos (show -e ≤ 0 by omega), Int.toNat_of_nonpos (show k ≤ 0 by omega), Nat.shiftLeft_eq]
    · simp [Int.toNat_of_nonpos (show e ≤ 0 by omega), Int.toNat_of_nonpos (show -k ≤ 0 by omega), Nat.shiftLeft_eq]
    · simp [Int.toNat_of_nonpos (show e ≤ 0 by omega), Int.toNat_of_nonpos (show k ≤ 0 by omega), Nat.shiftLeft_eq]
  have h2 := zpow_eq_div (show 2 ≠ 0 by norm_num) e
  have h10 := zpow_eq_div (show 10 ≠ 0 by norm_num) k
  have hpos : (0 : ℚ) < ((10^(-k).toNat : ℕ) : ℚ) := by positivity
  have hpos' : (0 : ℚ) < ((2^(-e).toNat : ℕ) : ℚ) := by positivity
  rw [hplain, decide_eq_true_iff, show (10 : ℚ) = ((10 : ℕ) : ℚ) by norm_num, h10,
    show (2 : ℚ) = ((2 : ℕ) : ℚ) by norm_num, h2, ← mul_div_assoc, div_le_div_iff₀ hpos hpos']
  constructor
  · intro h
    have h' : ((2^(-e).toNat * 10^k.toNat : ℕ) : ℚ) ≤ ((m * 2^e.toNat * 10^(-k).toNat : ℕ) : ℚ) := by exact_mod_cast h
    push_cast at h' ⊢
    linarith
  · intro h
    have h' : ((2^(-e).toNat * 10^k.toNat : ℕ) : ℚ) ≤ ((m * 2^e.toNat * 10^(-k).toNat : ℕ) : ℚ) := by
      push_cast at h ⊢
      linarith
    exact_mod_cast h'

/-- The number is less than a power of ten, whatever the scale. -/
theorem le_of_geqPow10 (h : geqPow10 m e k = true) : k ≤ m + e.natAbs := by
  rw [geqPow10_iff] at h
  by_contra hlt
  have hm : (m : ℚ) < 10^(m : ℤ) := by
    rw [zpow_natCast]
    exact_mod_cast Nat.lt_pow_self (by norm_num : 1 < 10)
  have he : (2 : ℚ)^e ≤ 10^(e.natAbs : ℤ) := by
    calc (2 : ℚ)^e ≤ 2^(e.natAbs : ℤ) := zpow_le_zpow_right₀ (by norm_num) Int.le_natAbs
      _ ≤ 10^(e.natAbs : ℤ) := by
        rw [zpow_natCast, zpow_natCast]
        exact pow_le_pow_left₀ (by norm_num) (by norm_num) _
  have hpow : (10 : ℚ)^((m : ℤ) + e.natAbs) ≤ 10^k := zpow_le_zpow_right₀ (by norm_num) (by omega)
  have hprod : (m : ℚ) * 2^e < 10^(m : ℤ) * 10^(e.natAbs : ℤ) :=
    mul_lt_mul hm he (zpow_pos (by norm_num) _) (zpow_pos (by norm_num) _).le
  rw [zpow_add₀ (by norm_num)] at hpow
  linarith

theorem lt_of_not_geqPow10 (hm : 0 < m) (h : ¬geqPow10 m e k = true) : -(e.natAbs : ℤ) < k := by
  rw [geqPow10_iff] at h
  by_contra hle
  apply h
  have hm' : (1 : ℚ) ≤ m := by exact_mod_cast hm
  calc (10 : ℚ)^k ≤ 10^(-(e.natAbs : ℤ)) := zpow_le_zpow_right₀ (by norm_num) (by omega)
    _ ≤ 2^(-(e.natAbs : ℤ)) := by
      rw [zpow_neg, zpow_neg, zpow_natCast, zpow_natCast]
      exact inv_anti₀ (by positivity) (pow_le_pow_left₀ (by norm_num) (by norm_num) _)
    _ ≤ 2^e := zpow_le_zpow_right₀ (by norm_num) (by omega)
    _ = 1 * 2^e := (one_mul _).symm
    _ ≤ m * 2^e := mul_le_mul_of_nonneg_right hm' (zpow_pos (by norm_num) _).le

end

/-- The loop that raises the exponent. -/
def pinUp (m : ℕ) (e k : ℤ) : ℤ :=
  if h : geqPow10 m e (k + 1) then pinUp m e (k + 1) else k
termination_by (m + e.natAbs - k).toNat
decreasing_by
  have := le_of_geqPow10 h
  omega

/-- The loop that lowers the exponent. For zero it would not end. -/
def pinDown (m : ℕ) (hm : 0 < m) (e k : ℤ) : ℤ :=
  if h : geqPow10 m e k then k else pinDown m hm e (k - 1)
termination_by (k + e.natAbs).toNat
decreasing_by
  have := lt_of_not_geqPow10 hm h
  omega

theorem decomposeAbs_fst (x : F64) : (decomposeAbs x).1 = x.significand := by
  unfold decomposeAbs F64.significand
  split_ifs
  · rfl
  · rw [Nat.lor_comm, ← Nat.mul_one (2^52), ← Nat.two_pow_add_eq_or_of_lt x.fracField_lt, Nat.mul_one]
    exact Nat.add_comm _ _

theorem decomposeAbs_pos {x : F64} (h : ¬x.isZero = true) : 0 < (decomposeAbs x).1 := by
  rw [decomposeAbs_fst]
  exact Nat.pos_of_ne_zero (fun h' => h (F64.significand_eq_zero.mp h'))

/-! ## The functions -/

/-- `cFormatF`. -/
def cFormatF (x : F64) (prec : ℕ) : List Char :=
  if prec ≤ 100 ∧ x.magnitude < 10^21 ∧ tieFree x then toFixed x prec
  else
    let sign := if x.negative then ['-'] else []
    if x.isZero then sign ++ (if 0 < prec then ['0', '.'] ++ List.replicate prec '0' else ['0'])
    else
      let (m, e) := decomposeAbs x
      let s := Nat.toDigits 10 (scaledRoundEven m e prec)
      if prec = 0 then sign ++ s
      else
        let s := if s.length ≤ prec then List.replicate (prec - s.length + 1) '0' ++ s else s
        sign ++ s.take (s.length - prec) ++ ['.'] ++ s.drop (s.length - prec)

/-- The exponent of C, with at least two digits: `padStart(2, "0")`. -/
def expStr (e : ℤ) : List Char :=
  'e' :: (if e < 0 then '-' else '+') ::
    (List.replicate (2 - (Nat.toDigits 10 e.natAbs).length) '0' ++ Nat.toDigits 10 e.natAbs)

/-- `s.replace(/e([+-])(\d)$/, "e$10$2")`. -/
def padExponent (s : List Char) : List Char :=
  match s.reverse with
  | d :: c :: 'e' :: rest => if d.isDigit ∧ (c = '+' ∨ c = '-') then rest.reverse ++ ['e', c, '0', d] else s
  | _ => s

/-- `cFormatE`, with the first guess at the exponent. -/
def cFormatE (guess : F64 → ℤ) (x : F64) (prec : ℕ) : List Char :=
  if prec ≤ 100 ∧ tieFree x then padExponent (toExponential x prec)
  else
    let sign := if x.negative then ['-'] else []
    if h : x.isZero then
      sign ++ (if 0 < prec then ['0', '.'] ++ List.replicate prec '0' else ['0']) ++ expStr 0
    else
      let m := (decomposeAbs x).1
      let e := (decomposeAbs x).2
      let k := pinDown m (decomposeAbs_pos h) e (pinUp m e (guess x))
      let n := scaledRoundEven m e (prec - k)
      let (n, k) := if 10^(prec + 1) ≤ n then (n / 10, k + 1) else (n, k)
      let s := Nat.toDigits 10 n
      let mant := if 0 < prec then s.take 1 ++ ['.'] ++ s.drop 1 else s
      sign ++ mant ++ expStr k

/-- The groups of `/^(-?)(\d)(?:\.(\d+))?e([+-]\d+)$/`. -/
structure ExpGroups where
  sign : List Char
  first : Char
  rest : List Char
  exponent : List Char

/-- The match of the expression, if there is one. -/
def matchExp (s : List Char) : Option ExpGroups := do
  let (sign, s) := if s.head? = some '-' then (['-'], s.tail) else ([], s)
  let first ← s.head?
  let s := s.tail
  let (rest, s) ← (if s.head? = some '.' then
      if s.tail.takeWhile Char.isDigit = [] then none
      else some (s.tail.takeWhile Char.isDigit, s.tail.dropWhile Char.isDigit)
    else some ([], s))
  let exponent := s.tail.tail
  if first.isDigit ∧ s.head? = some 'e' ∧ (s.tail.head? = some '+' ∨ s.tail.head? = some '-') ∧ exponent ≠ [] ∧
      exponent.all Char.isDigit then some ⟨sign, first, rest, s.tail⟩ else none

/-- `s.replace(/\.?0+$/, "")`. -/
def stripZeros (s : List Char) : List Char :=
  let t := s.reverse.dropWhile (· = '0')
  if t.length = s.length then s else if t.head? = some '.' then t.tail.reverse else t.reverse

/-- The double `1e-4`. -/
def tenThousandth : F64 := ⟨0x3F1A36E2EB1C432D⟩

/-- `cFormatG`. Without a match it would throw an error. -/
def cFormatG (guess : F64 → ℤ) (x : F64) (prec : ℕ) (strip : Bool) : Option (List Char) :=
  let prec := if prec < 1 then 1 else prec
  if x.isZero then
    let body := if x.negative then ['-', '0'] else ['0']
    some (if strip then body else body ++ ['.'] ++ List.replicate (prec - 1) '0')
  else if prec ≤ 100 ∧ tenThousandth.magnitude ≤ x.magnitude ∧ tieFree x then
    let s := toPrecision x prec
    if 'e' ∉ s then
      some (if strip then (if '.' ∉ s then s else stripZeros s) else if '.' ∉ s then s ++ ['.'] else s)
    else
      let ei := s.idxOf 'e'
      let mant := s.take ei
      let mant := if strip then stripZeros mant else if '.' ∉ mant then mant ++ ['.'] else mant
      some (mant ++ expStr (parseInt (s.drop (ei + 1))))
  else do
    let m ← matchExp (cFormatE guess x (prec - 1))
    let digits := m.first :: m.rest
    let exp := parseInt m.exponent
    if exp < -4 ∨ prec ≤ exp then
      let mant := m.first :: if m.rest ≠ [] then '.' :: m.rest else []
      let mant := if strip then stripZeros mant else if '.' ∉ mant then mant ++ ['.'] else mant
      some (m.sign ++ mant ++ expStr exp)
    else
      let intLen := (exp + 1).toNat
      let body := if 0 ≤ exp then
          if digits.length ≤ intLen then digits ++ List.replicate (intLen - digits.length) '0'
          else digits.take intLen ++ ['.'] ++ digits.drop intLen
        else ['0', '.'] ++ List.replicate (-exp - 1).toNat '0' ++ digits
      let body := if strip && '.' ∈ body then stripZeros body
        else if !strip && '.' ∉ body then body ++ ['.'] else body
      some (m.sign ++ body)

end Lua2wasm.Format
