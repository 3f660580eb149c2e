import Lua2wasm.Format.HostCorrect

/-!
# `%a` on the host

`splitDouble` and `formatHexFloat` of `runtime/host-bindings.mjs`, which print a double with hexadecimal digits, exactly
or rounded to a number of them. What a text stands for is what `readHexFloat` reads, apart from how it is printed.

Without a precision the text is read as the double. With one it has the digits of the significand, rounded half to even
(`hexFormatted_iff`), but for one significand and one precision: `1.5` without digits behind the point is half way
between 1 and 2 and should be 2, but of the digit in front of the point only the fraction's part of it, 0, is looked at.
-/

namespace Lua2wasm.Format.Hex

open Rounding

/-! ## The printer -/

/-- `splitDouble`, of the magnitude. It reads the same fields as `decomposeAbs`. -/
def splitDouble (x : F64) : ℕ × ℤ := decomposeAbs x

/-- The digits of the whole fraction, up to the last one that is not zero. -/
def exactHex (frac fracBits : ℕ) : List Char :=
  let pad := (4 - fracBits % 4) % 4
  let hex := if 0 < fracBits + pad then (Nat.toDigits 16 (frac <<< pad)).leftpad ((fracBits + pad) / 4) '0' else []
  hex.rdropWhile (· = '0')

/-- The integer part and the fraction, with so many hexadecimal digits. -/
def roundHex (frac fracBits prec : ℕ) : ℕ × ℕ :=
  let keep := 4 * prec
  if keep < fracBits then
    let drop := fracBits - keep
    let q := frac >>> drop
    let r := frac &&& (1 <<< drop - 1)
    let half := 1 <<< (drop - 1)
    let q := if half < r ∨ r = half ∧ q &&& 1 = 1 then q + 1 else q
    if q = 1 <<< keep then (2, 0) else (1, q)
  else (1, frac <<< (keep - fracBits))

/-- `0x`, the digits and the exponent. -/
def hexText (intPart : ℕ) (hex : List Char) (exp : ℤ) : List Char :=
  ['0', 'x'] ++ Nat.toDigits 16 intPart ++ (if hex = [] then [] else '.' :: hex) ++ 'p' :: jsExponent exp

/-- `formatHexFloat` of a finite number, without its sign and in lower case. -/
def hexMagnitude (v : F64) (prec : ℤ) : List Char :=
  if v.isZero then ['0', 'x', '0'] ++ (if 0 < prec then '.' :: List.replicate prec.toNat '0' else []) ++ ['p', '+', '0']
  else
    let (m, e) := splitDouble v
    let bits := (Nat.toDigits 2 m).length
    let frac := m - 1 <<< (bits - 1)
    let fracBits := bits - 1
    let exp := e + bits - 1
    if prec < 0 then hexText 1 (exactHex frac fracBits) exp
    else
      let (intPart, frac) := roundHex frac fracBits prec.toNat
      hexText intPart (if 0 < prec then (Nat.toDigits 16 frac).leftpad prec.toNat '0' else []) exp

/-- `formatHexFloat`. A negative precision is none. -/
def formatHexFloat (v : F64) (upper : Bool) (prec : ℤ) : List Char :=
  if v.expField = 2047 then
    if v.isNaN then (if upper then ['N', 'A', 'N'] else ['n', 'a', 'n'])
    else (if v.negative then ['-'] else []) ++ if upper then ['I', 'N', 'F'] else ['i', 'n', 'f']
  else
    let out := hexMagnitude v prec
    (if v.negative then ['-'] else []) ++ if upper then out.map Char.toUpper else out

/-! ## What a text stands for -/

/-- A hexadecimal floating-point number as it is written. -/
structure HexFloat where
  /-- It has a minus sign. -/
  negative : Bool
  /-- The number that all its digits spell, without the point. -/
  digits : ℕ
  /-- The number of digits behind the point. -/
  places : ℕ
  /-- The exponent, of two. -/
  exponent : ℤ

/-- The magnitude. -/
def HexFloat.magnitude (t : HexFloat) : ℚ := t.digits / 16^t.places * 2^t.exponent

/-- The value of a hexadecimal digit. -/
def hexDigit (c : Char) : Option ℕ := (List.range 16).find? fun d => Nat.digitChar d = c

/-- The character is a hexadecimal digit. -/
def isHexDigit (c : Char) : Bool := (hexDigit c).isSome

/-- The number that digits spell. -/
def hexNumber (s : List Char) : ℕ := s.foldl (fun n c => 16 * n + (hexDigit c).getD 0) 0

/-- The exponent, a decimal number with a sign. -/
def readExponent (s : List Char) : Option ℤ :=
  if s.tail ≠ [] ∧ s.tail.all Char.isDigit then some (parseInt s) else none

/-- What follows the digits, of which `places` are behind the point. -/
def readAfterDigits (negative : Bool) (ds : List Char) (places : ℕ) : List Char → Option HexFloat
  | 'p' :: s => (readExponent s).map fun e => ⟨negative, hexNumber ds, places, e⟩
  | _ => none

/-- What follows the prefix. -/
def readDigits (negative : Bool) (s : List Char) : Option HexFloat :=
  let whole := s.takeWhile isHexDigit
  match s.dropWhile isHexDigit with
  | '.' :: s =>
    let frac := s.takeWhile isHexDigit
    readAfterDigits negative (whole ++ frac) frac.length (s.dropWhile isHexDigit)
  | s => readAfterDigits negative whole 0 s

/-- What follows the sign. -/
def readMagnitude (negative : Bool) : List Char → Option HexFloat
  | '0' :: 'x' :: s => readDigits negative s
  | _ => none

/-- The number that a text stands for, in upper or lower case. -/
def readHexFloat (s : List Char) : Option HexFloat :=
  match s.map Char.toLower with
  | '-' :: s => readMagnitude true s
  | s => readMagnitude false s

/-- The magnitude `x` with its significand, between 1 and 2, rounded to `p` hexadecimal digits behind the point. -/
def hexRounded (p : ℕ) (x : ℚ) : ℚ := roundEven (x / 2^Int.log 2 x * 16^p) / 16^p * 2^Int.log 2 x

/-- The number `x` with so many places is the magnitude, or with a precision that many digits of it. These are then
within half a unit of the last one. -/
def HexCorrect (v : F64) (prec : ℤ) (x : ℚ) (places : ℕ) : Prop :=
  if prec < 0 then x = v.magnitude
  else places = prec.toNat ∧ x = hexRounded prec.toNat v.magnitude ∧
    |x - v.magnitude| ≤ 2^Int.log 2 v.magnitude / 16^prec.toNat / 2

/-- The text is read with the sign of the double, and a correct magnitude. -/
def HexFormatted (v : F64) (prec : ℤ) (s : List Char) : Prop :=
  ∃ t, readHexFloat s = some t ∧ t.negative = v.negative ∧ HexCorrect v prec t.magnitude t.places

/-! ## Reading digits -/

/-- Hexadecimal digits as they are printed. -/
def AreHex (s : List Char) : Prop := ∀ c ∈ s, ∃ d < 16, c = Nat.digitChar d

section

variable {s t : List Char} {n k : ℕ} {e : ℤ} {negative : Bool}

theorem hexDigit_digitChar : ∀ d < 16, hexDigit (Nat.digitChar d) = some d := by decide

theorem AreHex.isHexDigit (h : AreHex s) : ∀ c ∈ s, isHexDigit c = true := by
  intro c hc
  obtain ⟨d, hd, rfl⟩ := h c hc
  unfold Hex.isHexDigit
  rw [hexDigit_digitChar d hd]
  rfl

theorem AreHex.append (hs : AreHex s) (ht : AreHex t) : AreHex (s ++ t) := fun c hc =>
  (List.mem_append.mp hc).elim (hs c) (ht c)

theorem areHex_zeros (k : ℕ) : AreHex (List.replicate k '0') := fun _ hc =>
  ⟨0, by decide, (List.mem_replicate.mp hc).2⟩

theorem areHex_toDigits {b : ℕ} (hb : 1 < b) (hb' : b ≤ 16) (n : ℕ) : AreHex (Nat.toDigits b n) := by
  induction n using Nat.strong_induction_on with
  | _ n ih =>
    by_cases hn : n < b
    · rw [Nat.toDigits_of_lt_base hn]
      exact fun c hc => ⟨n, by omega, List.mem_singleton.mp hc⟩
    · rw [Nat.toDigits_of_base_le hb (not_lt.mp hn)]
      refine (ih (n / b) (Nat.div_lt_self (by omega) hb)).append fun c hc => ?_
      exact ⟨n % b, (Nat.mod_lt n (by omega)).trans_le hb', List.mem_singleton.mp hc⟩

theorem areHex_hex (n : ℕ) : AreHex (Nat.toDigits 16 n) := areHex_toDigits (by decide) (by decide) n

theorem areHex_leftpad (h : AreHex s) : AreHex (s.leftpad k '0') := (areHex_zeros _).append h

theorem hexNumber_append (s t : List Char) : hexNumber (s ++ t) = hexNumber s * 16^t.length + hexNumber t := by
  have hstart : ∀ (t : List Char) (n : ℕ), t.foldl (fun n c => 16 * n + (hexDigit c).getD 0) n =
      n * 16^t.length + hexNumber t := by
    intro t
    induction t with
    | nil => simp [hexNumber]
    | cons c t ih =>
      intro n
      unfold hexNumber
      rw [List.foldl_cons, List.foldl_cons, ih, ih, List.length_cons]
      ring
  unfold hexNumber
  rw [List.foldl_append, hstart]
  rfl

theorem hexNumber_zeros (k : ℕ) : hexNumber (List.replicate k '0') = 0 := by
  induction k with
  | zero => rfl
  | succ k ih =>
    rw [List.replicate_succ', hexNumber_append, ih]
    rfl

theorem hexNumber_toDigits (n : ℕ) : hexNumber (Nat.toDigits 16 n) = n := by
  have hone : ∀ d < 16, hexNumber [Nat.digitChar d] = d := by decide
  induction n using Nat.strong_induction_on with
  | _ n ih =>
    by_cases hn : n < 16
    · rw [Nat.toDigits_of_lt_base hn, hone n hn]
    · rw [Nat.toDigits_of_base_le (by decide) (not_lt.mp hn), hexNumber_append, ih (n / 16) (by omega),
        hone _ (Nat.mod_lt n (by decide)), List.length_singleton]
      omega

theorem hexNumber_leftpad (n k : ℕ) : hexNumber ((Nat.toDigits 16 n).leftpad k '0') = n := by
  rw [List.leftpad, hexNumber_append, hexNumber_zeros, hexNumber_toDigits, Nat.zero_mul, Nat.zero_add]

/-- A number that has no more digits is as long as it is made. -/
theorem length_leftpad_hex (hn : n < 16^k) (hk : 0 < k) : ((Nat.toDigits 16 n).leftpad k '0').length = k := by
  have hle := (Nat.length_toDigits_le_iff (by decide) hk).mpr hn
  rw [List.length_leftpad]
  omega

/-! ## Reading a text -/

theorem readExponent_jsExponent (e : ℤ) : readExponent (jsExponent e) = some e := by
  have hdigits : (jsExponent e).tail = Nat.toDigits 10 e.natAbs := rfl
  unfold readExponent
  rw [hdigits, if_pos, parseInt_jsExponent]
  refine ⟨Nat.toDigits_ne_nil, List.all_eq_true.mpr fun c hc => ?_⟩
  exact Nat.isDigit_of_mem_toDigits (by decide) (by decide) hc

theorem takeWhile_hex {c : Char} (hs : AreHex s) (hc : isHexDigit c = false) :
    (s ++ c :: t).takeWhile isHexDigit = s ∧ (s ++ c :: t).dropWhile isHexDigit = c :: t := by
  rw [List.takeWhile_append_of_pos hs.isHexDigit, List.dropWhile_append_of_pos hs.isHexDigit, List.takeWhile_cons, hc,
    List.dropWhile_cons, hc]
  simp

/-- The text is read as its parts. -/
theorem readMagnitude_hexText {hex : List Char} (h : AreHex hex) (negative : Bool) (n : ℕ) (e : ℤ) :
    readMagnitude negative (hexText n hex e) =
      some ⟨negative, n * 16^hex.length + hexNumber hex, hex.length, e⟩ := by
  have hp : isHexDigit 'p' = false := by decide
  have hdot : isHexDigit '.' = false := by decide
  have hexp := readExponent_jsExponent e
  cases hex with
  | nil =>
    have hread : readMagnitude negative (hexText n [] e) = readDigits negative (Nat.toDigits 16 n ++ 'p' :: jsExponent e) := by
      unfold hexText
      simp only [if_true, List.append_nil, List.cons_append, List.nil_append]
      rfl
    obtain ⟨htake, hdrop⟩ := takeWhile_hex (t := jsExponent e) (areHex_hex n) hp
    rw [hread]
    unfold readDigits
    rw [htake, hdrop]
    change (readExponent (jsExponent e)).map _ = _
    rw [hexp, hexNumber_toDigits]
    simp [hexNumber]
  | cons c hex =>
    have hread : readMagnitude negative (hexText n (c :: hex) e) =
        readDigits negative (Nat.toDigits 16 n ++ '.' :: (c :: hex ++ 'p' :: jsExponent e)) := by
      unfold hexText
      rw [if_neg (List.cons_ne_nil c hex)]
      simp only [List.append_assoc, List.cons_append, List.nil_append]
      rfl
    obtain ⟨htake, hdrop⟩ := takeWhile_hex (t := c :: hex ++ 'p' :: jsExponent e) (areHex_hex n) hdot
    obtain ⟨htake', hdrop'⟩ := takeWhile_hex (t := jsExponent e) h hp
    rw [hread]
    unfold readDigits
    rw [htake, hdrop]
    change readAfterDigits negative (Nat.toDigits 16 n ++ (c :: hex ++ 'p' :: jsExponent e).takeWhile isHexDigit)
      ((c :: hex ++ 'p' :: jsExponent e).takeWhile isHexDigit).length
      ((c :: hex ++ 'p' :: jsExponent e).dropWhile isHexDigit) = _
    rw [htake', hdrop']
    change (readExponent (jsExponent e)).map _ = _
    rw [hexp, hexNumber_append, hexNumber_toDigits]
    rfl

/-- The character is in lower case, and goes to upper case and back. -/
def Lower (c : Char) : Prop := c.toLower = c ∧ c.toUpper.toLower = c

theorem AreHex.lower (h : AreHex s) : ∀ c ∈ s, Lower c := by
  have hdigit : ∀ d < 16, (Nat.digitChar d).toLower = Nat.digitChar d ∧
      (Nat.digitChar d).toUpper.toLower = Nat.digitChar d := by decide
  intro c hc
  obtain ⟨d, hd, rfl⟩ := h c hc
  exact hdigit d hd

theorem lower_jsExponent (e : ℤ) : ∀ c ∈ jsExponent e, Lower c := by
  intro c hc
  obtain rfl | hc := List.mem_cons.mp hc
  · split_ifs
    · exact ⟨rfl, rfl⟩
    · exact ⟨rfl, rfl⟩
  · exact (areHex_toDigits (by decide) (by decide) e.natAbs).lower c hc

theorem lower_hexText {hex : List Char} (h : AreHex hex) (n : ℕ) (e : ℤ) : ∀ c ∈ hexText n hex e, Lower c := by
  intro c hc
  obtain hc | hc := List.mem_append.mp hc
  · obtain hc | hc := List.mem_append.mp hc
    · obtain hc | hc := List.mem_append.mp hc
      · obtain rfl | hc := List.mem_cons.mp hc
        · exact ⟨rfl, rfl⟩
        · obtain rfl := List.mem_singleton.mp hc
          exact ⟨rfl, rfl⟩
      · exact (areHex_hex n).lower c hc
    · split_ifs at hc
      · cases hc
      · obtain rfl | hc := List.mem_cons.mp hc
        · exact ⟨rfl, rfl⟩
        · exact h.lower c hc
  · obtain rfl | hc := List.mem_cons.mp hc
    · exact ⟨rfl, rfl⟩
    · exact lower_jsExponent e c hc

/-- A text with its sign, in either case. -/
theorem readHexFloat_signed (h : ∀ c ∈ s, Lower c) (hs : s.head? = some '0') (negative upper : Bool) :
    readHexFloat ((if negative then ['-'] else []) ++ if upper then s.map Char.toUpper else s) =
      readMagnitude negative s := by
  have hcase : (if upper then s.map Char.toUpper else s).map Char.toLower = s := by
    cases upper
    · exact List.map_congr_left (fun c hc => (h c hc).1) |>.trans (List.map_id s)
    · rw [if_pos rfl, List.map_map]
      exact List.map_congr_left (fun c hc => (h c hc).2) |>.trans (List.map_id s)
  unfold readHexFloat
  rw [List.map_append, hcase]
  cases negative with
  | true => rfl
  | false =>
    obtain ⟨s', rfl⟩ := List.head?_eq_some_iff.mp hs
    rfl

end

/-! ## The digits -/

section

variable {m L frac p : ℕ} {e : ℤ}

/-- The last zeros do not change the fraction. -/
theorem stripped_value (s : List Char) :
    (hexNumber (s.rdropWhile (· = '0')) : ℚ) / 16^(s.rdropWhile (· = '0')).length = hexNumber s / 16^s.length := by
  have hzeros : s.rtakeWhile (· = '0') = List.replicate (s.rtakeWhile (· = '0')).length '0' :=
    List.eq_replicate_of_mem fun c hc => by simpa using List.mem_rtakeWhile_imp hc
  have hsplit := List.rdropWhile_append_rtakeWhile (p := fun c => decide (c = '0')) (l := s)
  have hnumber : hexNumber s = hexNumber (s.rdropWhile (· = '0')) * 16^(s.rtakeWhile (· = '0')).length := by
    conv_lhs => rw [← hsplit, hexNumber_append, hzeros, hexNumber_zeros, Nat.add_zero, List.length_replicate]
  have hlength : s.length = (s.rdropWhile (· = '0')).length + (s.rtakeWhile (· = '0')).length := by
    conv_lhs => rw [← hsplit, List.length_append]
  rw [hnumber, hlength, pow_add]
  push_cast
  field_simp

/-- The exact digits are those of the fraction. -/
theorem exactHex_value (hfrac : frac < 2^L) :
    AreHex (exactHex frac L) ∧ (hexNumber (exactHex frac L) : ℚ) / 16^(exactHex frac L).length = frac / 2^L := by
  obtain ⟨k, hk⟩ : ∃ k, L + (4 - L % 4) % 4 = 4 * k := ⟨(L + (4 - L % 4) % 4) / 4, by omega⟩
  unfold exactHex
  generalize (4 - L % 4) % 4 = pad at hk ⊢
  dsimp only
  rw [hk, Nat.mul_div_cancel_left k (by decide)]
  split_ifs with hpos
  · have h16 : 16^k = 2^L * 2^pad := by
      rw [← pow_add, hk, pow_mul]
      norm_num
    have hroom : frac <<< pad < 16^k := by
      rw [Nat.shiftLeft_eq, h16]
      exact Nat.mul_lt_mul_of_pos_right hfrac (by positivity)
    have hhex := areHex_leftpad (k := k) (areHex_hex (frac <<< pad))
    refine ⟨fun c hc => hhex c ((List.rdropWhile_prefix _ _).mem hc), ?_⟩
    rw [stripped_value, hexNumber_leftpad, length_leftpad_hex hroom (by omega), Nat.shiftLeft_eq]
    have h16' : (16 : ℚ)^k = 2^L * 2^pad := by exact_mod_cast h16
    push_cast
    rw [h16', mul_div_mul_right _ _ (by positivity)]
  · obtain rfl : L = 0 := by omega
    obtain rfl : frac = 0 := by omega
    exact ⟨fun c hc => (List.not_mem_nil hc).elim, by simp [hexNumber]⟩

/-- How the rounding decides between the quotient of the fraction and the next number. -/
def hexQuotient (q r half : ℕ) : ℕ := if half < r ∨ r = half ∧ q &&& 1 = 1 then q + 1 else q

/-- It is nearest to the significand, and differs from rounding half to even just for a tie without a digit behind the
point: the parity looked at is that of the fraction alone. -/
theorem hexQuotient_spec {q r keep half : ℕ} (hhalf : 0 < half) (hr : r < 2 * half) (hq : q < 2^keep) :
    |((2^keep + hexQuotient q r half : ℕ) : ℚ) - ((2^keep + q) * (2 * half) + r : ℕ) / (2 * half : ℕ)| ≤ 1 / 2 ∧
      (((2^keep + hexQuotient q r half : ℕ) : ℤ) =
        roundEven (((2^keep + q) * (2 * half) + r : ℕ) / (2 * half : ℕ)) ↔ ¬(keep = 0 ∧ r = half)) := by
  have hdiv : ((2^keep + q) * (2 * half) + r) / (2 * half) = 2^keep + q := by
    rw [Nat.add_comm, Nat.add_mul_div_right _ _ (by omega), Nat.div_eq_of_lt hr, Nat.zero_add]
  have hmod : ((2^keep + q) * (2 * half) + r) % (2 * half) = r := by
    rw [Nat.add_comm, Nat.add_mul_mod_self_right, Nat.mod_eq_of_lt hr]
  have hparity : keep = 0 ∧ 2^keep = 1 ∧ q = 0 ∨ keep ≠ 0 ∧ 2^keep % 2 = 0 := by
    obtain rfl | hkeep := Nat.eq_zero_or_pos keep
    · exact Or.inl ⟨rfl, rfl, by omega⟩
    · exact Or.inr ⟨hkeep.ne', Nat.mod_eq_zero_of_dvd (dvd_pow_self 2 hkeep.ne')⟩
  constructor
  · have hhalf' : (0 : ℚ) < half := by exact_mod_cast hhalf
    have hval : ((2^keep + hexQuotient q r half : ℕ) : ℚ) - ((2^keep + q) * (2 * half) + r : ℕ) / (2 * half : ℕ) =
        (2 * half * ((hexQuotient q r half : ℚ) - q) - r) / (2 * half) := by
      push_cast
      field_simp
      ring
    rw [hval, abs_div, abs_of_pos (show (0 : ℚ) < 2 * half by positivity), div_le_iff₀ (by positivity), abs_le]
    unfold hexQuotient
    split_ifs with hup
    · have hle : half ≤ r := by omega
      have hle' : (half : ℚ) ≤ r := by exact_mod_cast hle
      have hlt' : (r : ℚ) < 2 * half := by exact_mod_cast hr
      push_cast
      constructor <;> linarith
    · have hle : r ≤ half := by omega
      have hle' : (r : ℚ) ≤ half := by exact_mod_cast hle
      constructor <;> linarith
  · rw [roundEven_div (by omega), hdiv, hmod]
    unfold hexQuotient
    rw [Nat.and_one_is_mod]
    split_ifs <;> push_cast <;> omega

theorem sixteen_pow (p : ℕ) : 16^p = 2^(4 * p) := by
  rw [pow_mul]
  norm_num

/-- A quotient that fills the digits is carried into the integer part. -/
theorem roundHex_kept (hlt : 4 * p < L) (hfrac : frac < 2^L) :
    let r := roundHex frac L p
    r.1 * 16^p + r.2 =
        2^(4 * p) + hexQuotient (frac / 2^(L - 4 * p)) (frac % 2^(L - 4 * p)) (2^(L - 4 * p - 1)) ∧
      r.2 < 16^p := by
  have hroom : frac / 2^(L - 4 * p) < 2^(4 * p) := by
    rw [Nat.div_lt_iff_lt_mul (by positivity), ← pow_add]
    rwa [show 4 * p + (L - 4 * p) = L by omega]
  have hround : roundHex frac L p =
      let n := hexQuotient (frac / 2^(L - 4 * p)) (frac % 2^(L - 4 * p)) (2^(L - 4 * p - 1))
      if n = 2^(4 * p) then (2, 0) else (1, n) := by
    unfold roundHex hexQuotient
    dsimp only
    rw [if_pos hlt, Nat.shiftRight_eq_div_pow, Nat.one_shiftLeft, Nat.one_shiftLeft, Nat.one_shiftLeft,
      Nat.and_two_pow_sub_one_eq_mod]
  have hle : hexQuotient (frac / 2^(L - 4 * p)) (frac % 2^(L - 4 * p)) (2^(L - 4 * p - 1)) ≤ 2^(4 * p) := by
    unfold hexQuotient
    split_ifs <;> omega
  rw [hround, sixteen_pow]
  dsimp only
  split_ifs with hcarry
  · exact ⟨by omega, by positivity⟩
  · exact ⟨by omega, by omega⟩

/-- The rounded digits, and when they are the nearest to the significand. -/
theorem roundHex_spec (hlo : 2^L ≤ m) (hhi : m < 2^(L + 1)) :
    let r := roundHex (m - 2^L) L p
    r.2 < 16^p ∧ |((r.1 * 16^p + r.2 : ℕ) : ℚ) - (m : ℚ) / 2^L * 16^p| ≤ 1 / 2 ∧
      (((r.1 * 16^p + r.2 : ℕ) : ℤ) = roundEven ((m : ℚ) / 2^L * 16^p) ↔ ¬(p = 0 ∧ 2 * m = 3 * 2^L)) := by
  have hfrac : m - 2^L < 2^L := by
    rw [pow_succ] at hhi
    omega
  have h16 : (16 : ℚ)^p = 2^(4 * p) := by exact_mod_cast sixteen_pow p
  by_cases hlt : 4 * p < L
  · -- some bits are dropped
    obtain ⟨hsum, hroom⟩ := roundHex_kept hlt hfrac
    obtain ⟨drop, rfl⟩ : ∃ drop, L = 4 * p + (drop + 1) := ⟨L - 4 * p - 1, by omega⟩
    rw [Nat.add_sub_cancel_left, Nat.add_sub_cancel, pow_succ' 2 drop] at hsum
    have hpow : 2^(4 * p + (drop + 1)) = 2^(4 * p) * (2 * 2^drop) := by rw [pow_add, pow_succ' 2 drop]
    have hhalf : 0 < 2^drop := by positivity
    have hr : (m - 2^(4 * p + (drop + 1))) % (2 * 2^drop) < 2 * 2^drop := Nat.mod_lt _ (by positivity)
    have hq : (m - 2^(4 * p + (drop + 1))) / (2 * 2^drop) < 2^(4 * p) := by
      rw [Nat.div_lt_iff_lt_mul (by positivity), ← hpow]
      exact hfrac
    have hm : (2^(4 * p) + (m - 2^(4 * p + (drop + 1))) / (2 * 2^drop)) * (2 * 2^drop) +
        (m - 2^(4 * p + (drop + 1))) % (2 * 2^drop) = m := by
      rw [add_mul, ← hpow, add_assoc, Nat.div_add_mod']
      omega
    have hval : (m : ℚ) / 2^(4 * p + (drop + 1)) * 16^p = m / (2 * 2^drop : ℕ) := by
      have hpow' : (2 : ℚ)^(4 * p + (drop + 1)) = 2^(4 * p) * (2 * 2^drop) := by exact_mod_cast hpow
      rw [hpow', h16]
      push_cast
      field_simp
    obtain ⟨hnear, heven⟩ := hexQuotient_spec hhalf hr hq
    rw [hm, ← hval, ← hsum] at hnear heven
    refine ⟨hroom, hnear, heven.trans (not_congr ?_)⟩
    -- the tie is the significand 1.5
    constructor
    · rintro ⟨hkeep, htie⟩
      obtain rfl : p = 0 := by omega
      have hzero := Nat.lt_one_iff.mp hq
      rw [hzero, htie] at hm
      rw [hpow]
      exact ⟨rfl, by omega⟩
    · rintro ⟨rfl, hthree⟩
      have hrest : m - 2^(4 * 0 + (drop + 1)) = 2^drop := by
        rw [hpow] at hthree ⊢
        omega
      rw [hrest]
      exact ⟨rfl, Nat.mod_eq_of_lt (by omega)⟩
  · -- there is room for all bits
    have hround : roundHex (m - 2^L) L p = (1, (m - 2^L) * 2^(4 * p - L)) := by
      unfold roundHex
      rw [if_neg hlt, Nat.shiftLeft_eq]
    have hpow : 2^(4 * p) = 2^L * 2^(4 * p - L) := by
      rw [← pow_add]
      congr 1
      omega
    have hsum : 1 * 16^p + (m - 2^L) * 2^(4 * p - L) = m * 2^(4 * p - L) := by
      rw [Nat.one_mul, sixteen_pow, hpow, ← Nat.add_mul]
      congr 1
      omega
    have hval : (m : ℚ) / 2^L * 16^p = ((m * 2^(4 * p - L) : ℕ) : ℚ) := by
      have hpow' : (2 : ℚ)^(4 * p) = 2^L * 2^(4 * p - L) := by exact_mod_cast hpow
      rw [h16, hpow']
      push_cast
      field_simp
    rw [hround]
    dsimp only
    rw [hsum, hval, roundEven_natCast, sub_self, abs_zero]
    refine ⟨?_, by norm_num, iff_of_true rfl ?_⟩
    · rw [sixteen_pow, hpow]
      exact Nat.mul_lt_mul_of_pos_right hfrac (by positivity)
    · rintro ⟨rfl, hthree⟩
      obtain rfl : L = 0 := by omega
      omega

/-- The number of bits. -/
theorem bits_spec (hm : 0 < m) : let L := (Nat.toDigits 2 m).length - 1
    (Nat.toDigits 2 m).length = L + 1 ∧ 2^L ≤ m ∧ m < 2^(L + 1) := by
  have hpos : 0 < (Nat.toDigits 2 m).length := Nat.length_toDigits_pos
  obtain ⟨L, hL⟩ := Nat.exists_eq_add_of_lt hpos
  rw [Nat.zero_add] at hL
  have hhi := (Nat.length_toDigits_le_iff (by decide) hpos).mp (le_refl (Nat.toDigits 2 m).length)
  have hlo : 2^L ≤ m := by
    obtain rfl | hL0 := Nat.eq_zero_or_pos L
    · exact hm
    · by_contra hlt
      have := (Nat.length_toDigits_le_iff (b := 2) (by decide) hL0).mpr (not_le.mp hlt)
      omega
  rw [hL] at hhi ⊢
  exact ⟨rfl, hlo, hhi⟩

/-- The exponent of the highest bit. -/
theorem log_bits (hlo : 2^L ≤ m) (hhi : m < 2^(L + 1)) (e : ℤ) : Int.log 2 ((m : ℚ) * 2^e) = L + e := by
  have hlo' : (2 : ℚ)^(L : ℤ) ≤ m := by exact_mod_cast hlo
  have hhi' : (m : ℚ) < 2^((L : ℤ) + 1) := by exact_mod_cast hhi
  have hpow : (0 : ℚ) < 2^e := by positivity
  have hpos : (0 : ℚ) < m * 2^e := by
    have : (0 : ℚ) < (2 : ℚ)^(L : ℤ) := by positivity
    exact mul_pos (by linarith) hpow
  apply le_antisymm
  · rw [← Int.lt_add_one_iff, ← Int.lt_zpow_iff_log_lt (by decide) hpos, show ((L : ℤ) + e + 1) = (L + 1) + e by ring]
    rw [zpow_add₀ (by norm_num)]
    exact mul_lt_mul_of_pos_right hhi' hpow
  · rw [← Int.zpow_le_iff_le_log (by decide) hpos]
    rw [zpow_add₀ (by norm_num)]
    exact mul_le_mul_of_nonneg_right hlo' hpow.le

end

/-! ## What is printed -/

/-- The significand is `1.5`. -/
def OneAndHalf (v : F64) : Prop := v.magnitude = 3 / 2 * 2^Int.log 2 v.magnitude

section

variable {v : F64} {prec : ℤ}

/-- The text of zero is made of the same parts. -/
theorem hexMagnitude_zero (h : v.isZero = true) (prec : ℤ) :
    hexMagnitude v prec = hexText 0 (List.replicate prec.toNat '0') 0 := by
  unfold hexMagnitude hexText
  rw [if_pos h]
  split_ifs with hprec hnil hnil
  · have := List.replicate_eq_nil_iff _ |>.mp hnil
    omega
  · rfl
  · rfl
  · exact absurd (by rw [Int.toNat_of_nonpos (not_lt.mp hprec)]; rfl) hnil

theorem hexCorrect_zero (h : v.isZero = true) (prec : ℤ) : HexCorrect v prec 0 prec.toNat := by
  have hmag := F64.isZero_iff_magnitude.mp h
  have hround : roundEven 0 = 0 := roundEven_natCast 0
  unfold HexCorrect hexRounded
  rw [hmag, zero_div, zero_mul, hround]
  split_ifs
  · rfl
  · refine ⟨rfl, by simp, ?_⟩
    rw [sub_self, abs_zero]
    positivity

/-- The text of any other double, from its integers and the number of bits of the first. -/
theorem hexMagnitude_nonzero {m L : ℕ} {e : ℤ} (h : ¬v.isZero = true) (hsplit : decomposeAbs v = (m, e))
    (hbits : (Nat.toDigits 2 m).length = L + 1) : hexMagnitude v prec =
      if prec < 0 then hexText 1 (exactHex (m - 2^L) L) (L + e)
      else hexText (roundHex (m - 2^L) L prec.toNat).1
        (if 0 < prec then (Nat.toDigits 16 (roundHex (m - 2^L) L prec.toNat).2).leftpad prec.toNat '0' else []) (L + e) := by
  have hexp : e + ((L + 1 : ℕ) : ℤ) - 1 = L + e := by
    push_cast
    ring
  unfold hexMagnitude splitDouble
  rw [if_neg h, hsplit]
  dsimp only
  rw [hbits, Nat.add_sub_cancel, Nat.one_shiftLeft, hexp]

/-- The digits behind the point with a precision. -/
theorem roundedHex_value {f : ℕ} (hroom : f < 16^prec.toNat) (hprec : ¬prec < 0) :
    let hex := if 0 < prec then (Nat.toDigits 16 f).leftpad prec.toNat '0' else []
    AreHex hex ∧ hexNumber hex = f ∧ hex.length = prec.toNat := by
  split_ifs with hpos
  · exact ⟨areHex_leftpad (areHex_hex f), hexNumber_leftpad f _, length_leftpad_hex hroom (by omega)⟩
  · have hzero : prec.toNat = 0 := by omega
    rw [hzero, pow_zero, Nat.lt_one_iff] at hroom
    exact ⟨fun c hc => (List.not_mem_nil hc).elim, hroom.symm, hzero.symm⟩

/-- What is printed of the magnitude, and when it is correct. -/
theorem hexMagnitude_spec (v : F64) (prec : ℤ) : ∃ n hex e, hexMagnitude v prec = hexText n hex e ∧ AreHex hex ∧
    (HexCorrect v prec ((n * 16^hex.length + hexNumber hex : ℕ) / 16^hex.length * 2^e) hex.length ↔
      ¬(prec = 0 ∧ OneAndHalf v)) := by
  by_cases hzero : v.isZero = true
  · refine ⟨0, _, 0, hexMagnitude_zero hzero prec, areHex_zeros _, iff_of_true ?_ ?_⟩
    · rw [hexNumber_zeros, List.length_replicate]
      simpa using hexCorrect_zero hzero prec
    · rintro ⟨-, hhalf⟩
      unfold OneAndHalf at hhalf
      rw [F64.isZero_iff_magnitude.mp hzero] at hhalf
      have : (0 : ℚ) < 3 / 2 * 2^Int.log 2 (0 : ℚ) := by positivity
      linarith
  obtain ⟨m, e, hsplit⟩ : ∃ m e, decomposeAbs v = (m, e) := ⟨_, _, rfl⟩
  have hm : 0 < (decomposeAbs v).1 := decomposeAbs_pos hzero
  have hmag := magnitude_eq_decomposed v
  rw [hsplit] at hm hmag
  -- the significand is normalised by its number of bits
  obtain ⟨hbits, hlo, hhi⟩ := bits_spec hm
  have htext := @hexMagnitude_nonzero v prec _ _ _ hzero hsplit hbits
  generalize (Nat.toDigits 2 m).length - 1 = L at hbits hlo hhi htext
  have hlog := log_bits hlo hhi e
  rw [← hmag] at hlog
  have hsig : v.magnitude = m / 2^L * 2^((L : ℤ) + e) := by
    rw [hmag, zpow_add₀ (by norm_num), zpow_natCast]
    field_simp
  by_cases hprec : prec < 0
  · -- all digits
    rw [if_pos hprec] at htext
    obtain ⟨hhex, hval⟩ := exactHex_value (show m - 2^L < 2^L by
      rw [pow_succ] at hhi
      omega)
    refine ⟨1, _, _, htext, hhex, iff_of_true ?_ fun h => by omega⟩
    unfold HexCorrect
    rw [if_pos hprec, hsig]
    congr 1
    push_cast
    rw [one_mul, add_div, div_self (by positivity), hval, Nat.cast_sub hlo]
    push_cast
    field_simp
    ring
  · -- the digits of the rounded significand
    rw [if_neg hprec] at htext
    obtain ⟨hroom, hnear, heven⟩ := roundHex_spec (p := prec.toNat) hlo hhi
    obtain ⟨hhex, hnumber, hlength⟩ := roundedHex_value hroom hprec
    have hunit : (0 : ℚ) < 2^((L : ℤ) + e) := by positivity
    have h16 : (0 : ℚ) < 16^prec.toNat := by positivity
    refine ⟨_, _, _, htext, hhex, ?_⟩
    rw [hnumber, hlength]
    generalize roundHex (m - 2^L) L prec.toNat = r at hnear heven ⊢
    unfold HexCorrect hexRounded
    rw [if_neg hprec, hlog, hsig, mul_div_assoc, div_self hunit.ne', mul_one]
    have hdist : |((r.1 * 16^prec.toNat + r.2 : ℕ) : ℚ) / 16^prec.toNat * 2^((L : ℤ) + e) - m / 2^L * 2^((L : ℤ) + e)| ≤
        2^((L : ℤ) + e) / 16^prec.toNat / 2 := by
      calc |((r.1 * 16^prec.toNat + r.2 : ℕ) : ℚ) / 16^prec.toNat * 2^((L : ℤ) + e) - m / 2^L * 2^((L : ℤ) + e)|
        _ = |((r.1 * 16^prec.toNat + r.2 : ℕ) : ℚ) - m / 2^L * 16^prec.toNat| * (2^((L : ℤ) + e) / 16^prec.toNat) := by
          rw [← abs_of_pos (div_pos hunit h16), ← abs_mul]
          congr 1
          field_simp
        _ ≤ 1 / 2 * (2^((L : ℤ) + e) / 16^prec.toNat) :=
          mul_le_mul_of_nonneg_right hnear (div_pos hunit h16).le
        _ = 2^((L : ℤ) + e) / 16^prec.toNat / 2 := by ring
    have hhalf : OneAndHalf v ↔ 2 * m = 3 * 2^L := by
      unfold OneAndHalf
      rw [hlog, hsig, mul_left_inj' hunit.ne', div_eq_div_iff (by positivity) (by norm_num)]
      constructor
      · intro h
        have h' : m * 2 = 3 * 2^L := by exact_mod_cast h
        omega
      · intro h
        exact_mod_cast show m * 2 = 3 * 2^L by omega
    have hexact : ((r.1 * 16^prec.toNat + r.2 : ℕ) : ℚ) / 16^prec.toNat * 2^((L : ℤ) + e) =
        roundEven ((m : ℚ) / 2^L * 16^prec.toNat) / 16^prec.toNat * 2^((L : ℤ) + e) ↔
        ((r.1 * 16^prec.toNat + r.2 : ℕ) : ℤ) = roundEven ((m : ℚ) / 2^L * 16^prec.toNat) := by
      rw [mul_left_inj' hunit.ne', div_left_inj' h16.ne', ← Int.cast_natCast (R := ℚ), Int.cast_inj]
    rw [hexact, heven, hhalf]
    have hprec_zero : prec.toNat = 0 ↔ prec = 0 := by omega
    rw [hprec_zero]
    exact ⟨fun h => h.2.1, fun h => ⟨rfl, h, hdist⟩⟩

/-- What is read of the text of a finite double, and when it is correct. -/
theorem readHexFloat_format (hfin : v.expField ≠ 2047) (upper : Bool) (prec : ℤ) :
    ∃ t, readHexFloat (formatHexFloat v upper prec) = some t ∧ t.negative = v.negative ∧
      (HexCorrect v prec t.magnitude t.places ↔ ¬(prec = 0 ∧ OneAndHalf v)) := by
  obtain ⟨n, hex, e, htext, hhex, hiff⟩ := hexMagnitude_spec v prec
  refine ⟨⟨v.negative, n * 16^hex.length + hexNumber hex, hex.length, e⟩, ?_, rfl, hiff⟩
  unfold formatHexFloat
  rw [if_neg hfin]
  rw [htext, readHexFloat_signed (lower_hexText hhex n e) rfl, readMagnitude_hexText hhex]

/-- Every finite double is printed as it should be, but for the significand `1.5` without digits behind the point. -/
theorem hexFormatted_iff (hfin : v.expField ≠ 2047) (upper : Bool) (prec : ℤ) :
    HexFormatted v prec (formatHexFloat v upper prec) ↔ ¬(prec = 0 ∧ OneAndHalf v) := by
  obtain ⟨t, hread, hneg, hiff⟩ := readHexFloat_format hfin upper prec
  rw [← hiff]
  unfold HexFormatted
  constructor
  · rintro ⟨t', hread', -, hcorrect⟩
    obtain rfl : t = t' := Option.some.inj (hread.symm.trans hread')
    exact hcorrect
  · exact fun hcorrect => ⟨t, hread, hneg, hcorrect⟩

/-- A tenth to three digits, in upper case. -/
theorem hexFormatted_iff_tenth : (⟨0x3fb999999999999a⟩ : F64).expField ≠ 2047 ∧
    HexFormatted ⟨0x3fb999999999999a⟩ 3 (formatHexFloat ⟨0x3fb999999999999a⟩ true 3) :=
  ⟨by decide, (hexFormatted_iff (by decide) true 3).mpr fun h => absurd h.1 (by decide)⟩

/-- `1.5` without digits behind the point is printed as 1, though 2 is even. -/
theorem not_hexFormatted : ¬∀ (v : F64) (upper : Bool) (prec : ℤ), v.expField ≠ 2047 →
    HexFormatted v prec (formatHexFloat v upper prec) := by
  intro hall
  have hfin : (⟨0x3ff8000000000000⟩ : F64).expField ≠ 2047 := by decide
  have hhalf : OneAndHalf ⟨0x3ff8000000000000⟩ := by
    have hsplit : decomposeAbs ⟨0x3ff8000000000000⟩ = (3 * 2^51, -52) := by decide
    have hmag := magnitude_eq_decomposed ⟨0x3ff8000000000000⟩
    have hlog := @log_bits (3 * 2^51) 52 (by norm_num) (by norm_num) (-52)
    rw [hsplit] at hmag
    unfold OneAndHalf
    rw [hmag, hlog]
    norm_num
  obtain ⟨t, hread, -, hiff⟩ := readHexFloat_format hfin false 0
  obtain ⟨t', hread', -, hcorrect⟩ := hall _ false 0 hfin
  obtain rfl : t = t' := Option.some.inj (hread.symm.trans hread')
  exact hiff.mp hcorrect ⟨rfl, hhalf⟩

end

end Lua2wasm.Format.Hex
