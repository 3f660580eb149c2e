import Lua2wasm.Format.Fixed
import Lua2wasm.Format.HostFloat

/-!
# The host prints doubles like C

What C prints for `%f`, `%e` and `%g` (`cF`, `cE`, `cG`), written from the rules of C with the exact value of the
double, and what the functions of `runtime/format.mjs` make of it.

Both ways through these functions give the same form (`eForm`, `gForm`) to some digits, which are rounded half to
even on one of them and half up on the other. So they print what C prints unless a double that `tieFree` holds for
lies half way above an even number of units.
-/

namespace Lua2wasm.Format

open Rounding

/-! ## What C prints -/

/-- A number with `d` decimals. With `alt` there is a point even before none. -/
def withPoint (alt : Bool) (d n : ℕ) : List Char :=
  Nat.toDigits 10 (n / 10^d) ++ (if 0 < d ∨ alt then ['.'] else []) ++ decimals d n

/-- A number without the trailing zeros of its fraction, and without point when that leaves no fraction. -/
def trimmed (d n : ℕ) : List Char :=
  let fraction := (decimals d n).rdropWhile (· = '0')
  Nat.toDigits 10 (n / 10^d) ++ if fraction = [] then [] else '.' :: fraction

/-- The sign of the double, which a zero has as well. -/
def cMinus (x : F64) : List Char := if x.negative then ['-'] else []

/-- The exponent, with at least two digits. -/
def cExponent (e : ℤ) : List Char :=
  'e' :: (if e < 0 then '-' else '+') ::
    if e.natAbs < 10 then ['0', Nat.digitChar e.natAbs] else Nat.toDigits 10 e.natAbs

/-- `p` digits of the double, rounded half to even from its exact value, and the exponent of the first. -/
def cSignificant (x : F64) (p : ℕ) : ℤ × ℕ :=
  if x.isZero then (0, 0) else significant roundEven p x.magnitude

/-- `%.{prec}f`. -/
def cF (x : F64) (prec : ℕ) : List Char := cMinus x ++ withPoint false prec (cUnits x prec)

/-- `%.{prec}e`. -/
def cE (x : F64) (prec : ℕ) : List Char :=
  cMinus x ++ withPoint false prec (cSignificant x (prec + 1)).2 ++ cExponent (cSignificant x (prec + 1)).1

/-- `%.{prec}g`, or `%#.{prec}g` when zeros are not stripped. The exponent that `%e` would print decides. -/
def cG (x : F64) (prec : ℕ) (strip : Bool) : List Char :=
  let p := max prec 1
  let e := (cSignificant x p).1
  let number d n := if strip then trimmed d n else withPoint true d n
  if e < -4 ∨ p ≤ e then cMinus x ++ number (p - 1) (cSignificant x p).2 ++ cExponent e
  else cMinus x ++ number (p - 1 - e).toNat (cUnits x (p - 1 - e).toNat)

/-! ## Digits and the point -/

section

variable {p d n : ℕ}

/-- The number has `p` digits. -/
structure HasDigits10 (p n : ℕ) : Prop where
  pos : 1 ≤ p
  le : 10^(p - 1) ≤ n
  lt : n < 10^p

theorem HasDigits10.length (h : HasDigits10 p n) : (Nat.toDigits 10 n).length = p := by
  have hpos := h.pos
  have hle : (Nat.toDigits 10 n).length ≤ p := (Nat.length_toDigits_le_iff (by norm_num) (by omega)).mpr h.lt
  have hge : ¬(Nat.toDigits 10 n).length ≤ p - 1 := by
    intro hle'
    by_cases hp : p = 1
    · have := @Nat.length_toDigits_pos 10 n
      omega
    · have := (Nat.length_toDigits_le_iff (by norm_num) (by omega)).mp hle'
      have := h.le
      omega
  omega

theorem significant_hasDigits {rnd : ℚ → ℤ} {x : ℚ} (hrnd : IsNearest rnd) (hp : 1 ≤ p) (hx : 0 < x) :
    HasDigits10 p (significant rnd p x).2 :=
  ⟨hp, (significant_bounds hrnd hp hx).1, (significant_bounds hrnd hp hx).2⟩

/-- The digits, before and behind the point. -/
theorem HasDigits10.split (h : HasDigits10 p n) (hd : d < p) :
    Nat.toDigits 10 n = Nat.toDigits 10 (n / 10^d) ++ decimals d n ∧
      (Nat.toDigits 10 (n / 10^d)).length = p - d := by
  have hpad := padded_digits d n
  rw [h.length, show d + 1 - p = 0 by omega, List.replicate_zero, List.nil_append] at hpad
  have hlengths := congrArg List.length hpad
  rw [h.length, List.length_append, length_decimals] at hlengths
  exact ⟨hpad, by omega⟩

/-- A number below one has zeros before its digits. -/
theorem HasDigits10.below (h : HasDigits10 p n) (hd : p ≤ d) :
    Nat.toDigits 10 (n / 10^d) = ['0'] ∧ decimals d n = List.replicate (d - p) '0' ++ Nat.toDigits 10 n := by
  have hpad := padded_digits d n
  have hzero : n / 10^d = 0 := Nat.div_eq_of_lt (h.lt.trans_le (Nat.pow_le_pow_right (by norm_num) hd))
  have hfront : Nat.toDigits 10 0 = ['0'] := rfl
  rw [h.length, hzero, hfront, show d + 1 - p = d - p + 1 by omega, List.replicate_succ, List.cons_append,
    List.singleton_append, List.cons.injEq] at hpad
  rw [hzero]
  exact ⟨hfront, hpad.2.symm⟩

theorem withPoint_eq_pointAfter (alt : Bool) {m : List Char} {k : ℕ} (hd : 0 < d)
    (hm : m = Nat.toDigits 10 (n / 10^d) ++ decimals d n) (hk : k = (Nat.toDigits 10 (n / 10^d)).length) :
    pointAfter k m = withPoint alt d n := by
  unfold pointAfter withPoint
  rw [hm, hk, List.take_left, List.drop_left, if_pos (Or.inl hd), List.append_assoc, List.singleton_append]

theorem withPoint_zero (n : ℕ) : withPoint false 0 n = Nat.toDigits 10 n := by
  unfold withPoint decimals
  rw [Nat.pow_zero, Nat.div_one, if_neg (by decide), List.append_nil, List.append_nil]

/-- Padded to more digits than there are decimals, and cut before these. -/
theorem withPoint_of_padded (hd : 0 < d) :
    let m := List.replicate (d + 1 - (Nat.toDigits 10 n).length) '0' ++ Nat.toDigits 10 n
    pointAfter (m.length - d) m = withPoint false d n := by
  apply withPoint_eq_pointAfter false hd (padded_digits d n)
  rw [padded_digits, List.length_append, length_decimals, Nat.add_sub_cancel]

end

/-! ## Exact arithmetic -/

section

variable {x : F64} {m : ℕ} {e k : ℤ}

theorem decomposeAbs_snd (x : F64) : (decomposeAbs x).2 = (max x.expField 1 : ℕ) - 1075 := by
  unfold decomposeAbs
  split_ifs with h
  · rw [h]
    rfl
  · dsimp only
    omega

/-- The two integers are the double. -/
theorem magnitude_eq_decomposed (x : F64) :
    x.magnitude = (decomposeAbs x).1 * (2 : ℚ)^(decomposeAbs x).2 := by
  obtain ⟨n, hn⟩ : ∃ n, 0 + n = 1075 := ⟨1075, by norm_num⟩
  have hscale := F64.scale_eq hn
  rw [pow_zero, Nat.one_mul] at hscale
  rw [decomposeAbs_fst, decomposeAbs_snd,
    show ((max x.expField 1 : ℕ) : ℤ) - 1075 = (max x.expField 1 : ℕ) - (n : ℤ) by omega, zpow_sub₀ (by norm_num), zpow_natCast, zpow_natCast]
  unfold F64.magnitude
  rw [hscale]
  push_cast
  rw [mul_div_assoc]

theorem magnitude_pos (h : ¬x.isZero = true) : 0 < x.magnitude := by
  have hne : x.magnitude ≠ 0 := fun h' => h (F64.isZero_iff_magnitude.mpr h')
  exact lt_of_le_of_ne x.magnitude_nonneg hne.symm

/-- The rounding is exact. -/
theorem scaledRoundEven_eq (m : ℕ) (e k : ℤ) :
    scaledRoundEven m e k = (roundEven (m * 2^e * 10^k)).toNat := by
  have hplain : scaledRoundEven m e k =
      let num := m * 10^k.toNat * 2^e.toNat
      let den := 10^(-k).toNat * 2^(-e).toNat
      if den < 2 * (num % den) ∨ 2 * (num % den) = den ∧ num / den % 2 = 1 then num / den + 1 else num / den := by
    have hpair : (if 0 ≤ e then
          ((if 0 ≤ k then (m * 10^k.toNat, 1) else (m, 10^(-k).toNat)).1 <<< e.toNat,
            (if 0 ≤ k then (m * 10^k.toNat, 1) else (m, 10^(-k).toNat)).2)
        else ((if 0 ≤ k then (m * 10^k.toNat, 1) else (m, 10^(-k).toNat)).1,
          (if 0 ≤ k then (m * 10^k.toNat, 1) else (m, 10^(-k).toNat)).2 <<< (-e).toNat)) =
        (m * 10^k.toNat * 2^e.toNat, 10^(-k).toNat * 2^(-e).toNat) := by
      split_ifs with he hk hk
      · simp [Int.toNat_of_nonpos (show -e ≤ 0 by omega), Int.toNat_of_nonpos (show -k ≤ 0 by omega), Nat.shiftLeft_eq]
      · simp [Int.toNat_of_nonpos (show -e ≤ 0 by omega), Int.toNat_of_nonpos (show k ≤ 0 by omega), Nat.shiftLeft_eq]
      · simp [Int.toNat_of_nonpos (show e ≤ 0 by omega), Int.toNat_of_nonpos (show -k ≤ 0 by omega), Nat.shiftLeft_eq]
      · simp [Int.toNat_of_nonpos (show e ≤ 0 by omega), Int.toNat_of_nonpos (show k ≤ 0 by omega), Nat.shiftLeft_eq]
    unfold scaledRoundEven
    dsimp only
    rw [hpair]
    dsimp only
    split_ifs <;> omega
  have hpos : 0 < 10^(-k).toNat * 2^(-e).toNat := by positivity
  have hval : (m : ℚ) * 2^e * 10^k =
      ((m * 10^k.toNat * 2^e.toNat : ℕ) : ℚ) / ((10^(-k).toNat * 2^(-e).toNat : ℕ) : ℚ) := by
    have h2 := zpow_eq_div (show 2 ≠ 0 by norm_num) e
    have h10 := zpow_eq_div (show 10 ≠ 0 by norm_num) k
    push_cast at h2 h10 ⊢
    rw [h2, h10]
    field_simp
  rw [hplain, hval, roundEven_div hpos]
  dsimp only
  split_ifs
  · exact (Int.toNat_natCast _).symm
  · exact (Int.toNat_natCast _).symm

theorem scaledRoundEven_magnitude (x : F64) (k : ℤ) :
    scaledRoundEven (decomposeAbs x).1 (decomposeAbs x).2 k = (roundEven (x.magnitude * 10^k)).toNat := by
  rw [scaledRoundEven_eq, magnitude_eq_decomposed]

/-- The loops end at the exponent of the first digit, wherever they begin. -/
theorem le_pinUp (hm : 0 < m) : ∀ k, Int.log 10 ((m : ℚ) * 2^e) ≤ pinUp m e k := by
  have hpos : (0 : ℚ) < m * 2^e := mul_pos (Nat.cast_pos.mpr hm) (zpow_pos (by norm_num) _)
  intro k
  induction k using pinUp.induct m e with
  | case1 k h ih =>
    unfold pinUp
    rw [dif_pos h]
    exact ih
  | case2 k h =>
    unfold pinUp
    rw [dif_neg h]
    rw [geqPow10_iff, not_le] at h
    have hlog := (Int.lt_zpow_iff_log_lt (by norm_num : 1 < 10) hpos).mp (by exact_mod_cast h)
    omega

/-- The search ends at the decimal exponent. -/
theorem pinDown_eq (hm : 0 < m) : ∀ k, Int.log 10 ((m : ℚ) * 2^e) ≤ k →
    pinDown m hm e k = Int.log 10 ((m : ℚ) * 2^e) := by
  have hpos : (0 : ℚ) < m * 2^e := mul_pos (Nat.cast_pos.mpr hm) (zpow_pos (by norm_num) _)
  intro k
  induction k using pinDown.induct m hm e with
  | case1 k h =>
    intro hle
    unfold pinDown
    rw [dif_pos h]
    rw [geqPow10_iff] at h
    have hlog := (Int.zpow_le_iff_le_log (by norm_num : 1 < 10) hpos).mp (by exact_mod_cast h)
    omega
  | case2 k h ih =>
    intro hle
    unfold pinDown
    rw [dif_neg h]
    apply ih
    rw [geqPow10_iff, not_le] at h
    have hlog := (Int.lt_zpow_iff_log_lt (by norm_num : 1 < 10) hpos).mp (by exact_mod_cast h)
    omega

end

/-! ## The exponent -/

section

variable {e : ℤ}

theorem isDigit_of_mem {n : ℕ} {c : Char} (h : c ∈ Nat.toDigits 10 n) : c.isDigit = true :=
  Nat.isDigit_of_mem_toDigits (by norm_num) (by norm_num) h

theorem ne_of_isDigit {c c' : Char} (h : c.isDigit = true) (h' : c'.isDigit = false) : c ≠ c' := by
  rintro rfl
  rw [h] at h'
  exact Bool.noConfusion h'

/-- The exponent is written as C does. -/
theorem expStr_eq (e : ℤ) : expStr e = cExponent e := by
  unfold expStr cExponent
  by_cases h : e.natAbs < 10
  · rw [if_pos h, Nat.toDigits_of_lt_base h]
    rfl
  · have hlen : ¬(Nat.toDigits 10 e.natAbs).length ≤ 1 := by
      rw [Nat.length_toDigits_le_iff (by norm_num) (by norm_num)]
      omega
    rw [if_neg h, show 2 - (Nat.toDigits 10 e.natAbs).length = 0 by omega, List.replicate_zero, List.nil_append]

/-- A text that does not end with a sign and one digit is left as it is. -/
theorem padExponent_of_digit {u : List Char} {c d : Char} (h : c.isDigit = true) :
    padExponent (u ++ [c, d]) = u ++ [c, d] := by
  have hplus : c ≠ '+' := ne_of_isDigit h (by decide)
  have hminus : c ≠ '-' := ne_of_isDigit h (by decide)
  unfold padExponent
  rw [List.reverse_append, List.reverse_cons, List.reverse_cons, List.reverse_nil, List.nil_append,
    List.singleton_append, List.cons_append, List.singleton_append]
  split
  · next heq =>
    rw [List.cons.injEq, List.cons.injEq] at heq
    rw [← heq.2.1]
    exact if_neg (fun h' => h'.2.elim hplus hminus)
  · rfl

/-- The replacement makes an exponent of ECMAScript one of C. -/
theorem padExponent_eq (s : List Char) (e : ℤ) : padExponent (s ++ 'e' :: jsExponent e) = s ++ cExponent e := by
  have hsign : (if 0 ≤ e then '+' else '-') = if e < 0 then '-' else '+' := by
    split_ifs <;> first | rfl | omega
  unfold jsExponent cExponent
  rw [hsign]
  generalize hc : (if e < 0 then '-' else '+') = c
  have hc' : c = '+' ∨ c = '-' := by
    rw [← hc]
    split_ifs
    · exact Or.inr rfl
    · exact Or.inl rfl
  by_cases h : e.natAbs < 10
  · rw [if_pos h, Nat.toDigits_of_lt_base h]
    have hdigit : (Nat.digitChar e.natAbs).isDigit = true :=
      isDigit_of_mem (n := e.natAbs) (by rw [Nat.toDigits_of_lt_base h]; exact List.mem_singleton_self _)
    unfold padExponent
    rw [List.reverse_append]
    show (if (Nat.digitChar e.natAbs).isDigit = true ∧ (c = '+' ∨ c = '-') then _ else _) = _
    rw [if_pos ⟨hdigit, hc'⟩]
    show s.reverse.reverse ++ _ = _
    rw [List.reverse_reverse]
  · rw [if_neg h]
    have hsplit := Nat.toDigits_of_base_le (by norm_num : 1 < 10) (show 10 ≤ e.natAbs by omega)
    obtain ⟨u, d, hu⟩ := List.eq_nil_or_concat' (Nat.toDigits 10 (e.natAbs / 10)) |>.resolve_left Nat.toDigits_ne_nil
    have hdigit : d.isDigit = true := isDigit_of_mem (n := e.natAbs / 10) (by rw [hu]; simp)
    have hshape : s ++ 'e' :: c :: Nat.toDigits 10 e.natAbs =
        s ++ 'e' :: c :: u ++ [d, Nat.digitChar (e.natAbs % 10)] := by
      rw [hsplit, hu]
      simp
    rw [hshape]
    exact padExponent_of_digit hdigit

theorem parseInt_plus (s : List Char) : parseInt ('+' :: s) = Nat.ofDigitChars 10 s 0 := rfl

theorem parseInt_minus (s : List Char) : parseInt ('-' :: s) = -(Nat.ofDigitChars 10 s 0 : ℤ) := rfl

/-- The digits of an exponent are read back. -/
theorem parseInt_jsExponent (e : ℤ) : parseInt (jsExponent e) = e := by
  unfold jsExponent
  split_ifs with h
  · rw [parseInt_plus, Nat.ofDigitChars_ten_toDigits]
    omega
  · rw [parseInt_minus, Nat.ofDigitChars_ten_toDigits]
    omega

/-- An exponent of C is the letter, a sign and digits that are read back. -/
theorem cExponent_spec (e : ℤ) : ∃ c ds, cExponent e = 'e' :: c :: ds ∧ (c = '+' ∨ c = '-') ∧ ds ≠ [] ∧
    ds.all Char.isDigit = true ∧ parseInt (c :: ds) = e := by
  have hparse : ∀ ds, Nat.ofDigitChars 10 ds 0 = e.natAbs → parseInt ((if e < 0 then '-' else '+') :: ds) = e := by
    intro ds hds
    split_ifs with h
    · rw [parseInt_minus, hds]
      omega
    · rw [parseInt_plus, hds]
      omega
  have hsign : (if e < 0 then '-' else '+') = '+' ∨ (if e < 0 then '-' else '+') = '-' := by
    split_ifs
    · exact Or.inr rfl
    · exact Or.inl rfl
  refine ⟨_, _, rfl, hsign, ?_, ?_, hparse _ ?_⟩
  · split_ifs
    · exact List.cons_ne_nil _ _
    · exact Nat.toDigits_ne_nil
  · rw [List.all_eq_true]
    split_ifs with h
    · intro c hc
      rw [List.mem_cons, List.mem_singleton] at hc
      obtain rfl | rfl := hc
      · rfl
      · exact isDigit_of_mem (n := e.natAbs) (by rw [Nat.toDigits_of_lt_base h]; exact List.mem_singleton_self _)
    · exact fun c hc => isDigit_of_mem hc
  · split_ifs with h
    · rw [Nat.ofDigitChars_cons, ← Nat.toDigits_of_lt_base h]
      exact Nat.ofDigitChars_ten_toDigits
    · exact Nat.ofDigitChars_ten_toDigits

end

/-! ## Trailing zeros -/

section

variable {u f : List Char} {d n p : ℕ}

/-- The expression takes the zeros at the end of a fraction, and the point with the last digit. -/
theorem stripZeros_point (hf : f ≠ []) (hpoint : '.' ∉ f) :
    stripZeros (u ++ '.' :: f) =
      u ++ if f.rdropWhile (· = '0') = [] then [] else '.' :: f.rdropWhile (· = '0') := by
  have hrev : (u ++ '.' :: f).reverse = f.reverse ++ '.' :: u.reverse := by simp
  unfold stripZeros List.rdropWhile
  rw [hrev, List.dropWhile_append]
  cases hg : f.reverse.dropWhile (· = '0') with
  | nil =>
    have hlt : ¬('.' :: u.reverse).length = (u ++ '.' :: f).length := by
      simp
      omega
    rw [if_pos List.isEmpty_nil, List.dropWhile_cons_of_neg (by decide), if_neg hlt,
      if_pos (show ('.' :: u.reverse).head? = some '.' from rfl), if_pos List.reverse_nil]
    simp
  | cons c g =>
    have hmem : c ∈ f := by
      have h : c ∈ f.reverse.dropWhile (· = '0') := by
        rw [hg]
        exact List.mem_cons_self
      exact List.mem_reverse.mp ((List.dropWhile_sublist _).mem h)
    have hc : c ≠ '.' := fun h => hpoint (h ▸ hmem)
    have hne : ¬(c :: g).reverse = [] := by simp
    have hne' : ¬(c :: g).isEmpty = true := by simp
    rw [if_neg hne', if_neg hne]
    by_cases hall : (c :: g).length = f.length
    · -- there are no zeros
      have hsame : c :: g = f.reverse := by
        rw [← hg]
        apply (List.dropWhile_sublist _).eq_of_length
        rw [hg, hall, List.length_reverse]
      rw [if_pos (by simp at hall ⊢; omega), hsame, List.reverse_reverse]
    · rw [if_neg (by simp at hall ⊢; omega), if_neg (by simpa using hc)]
      simp

theorem stripZeros_last {c : Char} (hc : c ≠ '0') : stripZeros (u ++ [c]) = u ++ [c] := by
  unfold stripZeros
  rw [List.reverse_append, List.reverse_singleton, List.singleton_append,
    List.dropWhile_cons_of_neg (by simpa using hc)]
  exact if_pos (by simp)

theorem mem_decimals {c : Char} (h : c ∈ decimals d n) : c.isDigit = true := by
  induction d generalizing n with
  | zero => exact absurd h List.not_mem_nil
  | succ d ih =>
    unfold decimals at h
    rw [List.mem_append, List.mem_singleton] at h
    obtain h | rfl := h
    · exact ih h
    · have hlt : n % 10 < 10 := Nat.mod_lt _ (by norm_num)
      exact isDigit_of_mem (n := n % 10) (by rw [Nat.toDigits_of_lt_base hlt]; exact List.mem_singleton_self _)

theorem decimals_ne_nil (hd : 0 < d) : decimals d n ≠ [] := by
  intro h
  have := length_decimals d n
  rw [h, List.length_nil] at this
  omega

theorem point_not_mem_decimals : '.' ∉ decimals d n := fun h => ne_of_isDigit (mem_decimals h) (by decide) rfl

theorem point_not_mem_digits : '.' ∉ Nat.toDigits 10 n := fun h => ne_of_isDigit (isDigit_of_mem h) (by decide) rfl

/-- There is a point exactly when there are decimals. -/
theorem point_mem_iff : '.' ∈ withPoint false d n ↔ 0 < d := by
  unfold withPoint
  by_cases hd : 0 < d
  · rw [if_pos (Or.inl hd)]
    simp [hd]
  · rw [if_neg (by simp [hd]), List.append_nil, Nat.eq_zero_of_not_pos hd]
    unfold decimals
    rw [List.append_nil]
    exact iff_of_false point_not_mem_digits (lt_irrefl 0)

theorem stripZeros_withPoint (hd : 0 < d) : stripZeros (u ++ withPoint false d n) = u ++ trimmed d n := by
  unfold withPoint trimmed
  rw [if_pos (Or.inl hd), List.append_assoc, List.singleton_append, ← List.append_assoc,
    stripZeros_point (decimals_ne_nil hd) point_not_mem_decimals, List.append_assoc]

theorem trimmed_zero : trimmed 0 n = withPoint false 0 n := by
  unfold trimmed withPoint decimals
  simp

/-- A point is added where there is none. -/
theorem withPoint_true : withPoint true d n = if 0 < d then withPoint false d n else withPoint false d n ++ ['.'] := by
  unfold withPoint
  by_cases hd : 0 < d
  · rw [if_pos hd, if_pos (Or.inl hd), if_pos (Or.inl hd)]
  · rw [if_neg hd, if_pos (Or.inr rfl), if_neg (by simp [hd]), Nat.eq_zero_of_not_pos hd]
    simp [decimals]

/-- The number as `%g` prints it. -/
def gNumber (strip : Bool) (d n : ℕ) : List Char := if strip then trimmed d n else withPoint true d n

/-- Zeros are stripped only where there is a point, and a point is added only where there is none. -/
theorem fixed_adjusted (strip : Bool) :
    (if strip && decide ('.' ∈ withPoint false d n) then stripZeros (withPoint false d n)
      else if !strip && decide ('.' ∉ withPoint false d n) then withPoint false d n ++ ['.'] else withPoint false d n) =
      gNumber strip d n := by
  unfold gNumber
  by_cases hd : 0 < d
  · have hmem : '.' ∈ withPoint false d n := point_mem_iff.mpr hd
    have hstrip := stripZeros_withPoint (u := []) (n := n) hd
    rw [List.nil_append, List.nil_append] at hstrip
    rw [withPoint_true, if_pos hd]
    cases strip
    · simp [hmem]
    · simp [hmem, hstrip]
  · have hmem : '.' ∉ withPoint false d n := fun h => hd (point_mem_iff.mp h)
    rw [withPoint_true, if_neg hd]
    rw [Nat.eq_zero_of_not_pos hd] at hmem ⊢
    rw [trimmed_zero]
    cases strip
    · simp [hmem]
    · simp [hmem]

end

/-! ## The two ways to round -/

section

variable {x : F64} {p d n prec : ℕ} {s : ℤ × ℕ} {guess : F64 → ℤ}

/-- The text of `%e` for some digits. -/
def eForm (x : F64) (p : ℕ) (s : ℤ × ℕ) : List Char := cMinus x ++ withPoint false (p - 1) s.2 ++ cExponent s.1

/-- The text of `%g` for some digits. -/
def gForm (x : F64) (p : ℕ) (strip : Bool) (s : ℤ × ℕ) : List Char :=
  if s.1 < -4 ∨ p ≤ s.1 then cMinus x ++ gNumber strip (p - 1) s.2 ++ cExponent s.1
  else cMinus x ++ gNumber strip (p - 1 - s.1).toNat s.2

/-- How the host rounds a double: the methods take the larger of two. -/
def hostRound (x : F64) : ℚ → ℤ := if tieFree x then roundUp else roundEven

/-- The host rounds to a nearest integer. -/
theorem isNearest_hostRound (x : F64) : IsNearest (hostRound x) := by
  unfold hostRound
  split_ifs
  · exact isNearest_roundUp
  · exact isNearest_roundEven

theorem not_isZero_of_tieFree (h : tieFree x = true) : ¬x.isZero = true := by
  unfold tieFree at h
  simp only [Bool.and_eq_true, Bool.not_eq_true'] at h
  rw [h.1.1]
  exact Bool.false_ne_true

theorem jsSign_eq (h : ¬x.isZero = true) : jsSign x = cMinus x := by
  unfold jsSign cMinus
  rw [Bool.eq_false_of_not_eq_true h, Bool.not_false, Bool.and_true]

theorem decimals_zero (d : ℕ) : decimals d 0 = List.replicate d '0' := by
  induction d with
  | zero => rfl
  | succ d ih =>
    unfold decimals
    rw [Nat.zero_div, ih, List.replicate_succ']
    rfl

/-- Zero with its decimals. -/
theorem zero_text (alt : Bool) (d : ℕ) :
    withPoint alt d 0 = (if 0 < d ∨ alt then ['0', '.'] else ['0']) ++ List.replicate d '0' := by
  unfold withPoint
  rw [Nat.zero_div, decimals_zero]
  split_ifs <;> rfl

theorem zero_text_if (d : ℕ) : (if 0 < d then ['0', '.'] ++ List.replicate d '0' else ['0']) = withPoint false d 0 := by
  rw [zero_text]
  by_cases hd : 0 < d
  · rw [if_pos hd, if_pos (Or.inl hd)]
  · rw [if_neg hd, if_neg (by simp [hd]), Nat.eq_zero_of_not_pos hd]
    rfl

theorem cUnits_zero (h : x.isZero = true) (prec : ℕ) : cUnits x prec = 0 := by
  unfold cUnits
  rw [F64.isZero_iff_magnitude.mp h, zero_mul]
  exact congrArg Int.toNat (roundEven_natCast 0)

/-- `toFixed` rounds ties up. -/
theorem toFixed_eq (h : ¬x.isZero = true) (f : ℕ) :
    toFixed x f = cMinus x ++ withPoint false f (roundUp (x.magnitude * 10^f)).toNat := by
  unfold toFixed
  dsimp only
  rw [jsSign_eq h]
  split_ifs with hf
  · rw [hf, withPoint_zero]
  · rw [withPoint_of_padded (by omega)]

/-- `%f` rounds half up or half to even. -/
theorem cFormatF_eq (hprec : prec ≤ 99) :
    cFormatF x prec = cMinus x ++ withPoint false prec
      (if tieFree x ∧ x.magnitude < 10^21 then (roundUp (x.magnitude * 10^prec)).toNat else cUnits x prec) := by
  unfold cFormatF
  by_cases hfast : tieFree x = true ∧ x.magnitude < 10^21
  · rw [if_pos ⟨by omega, hfast.2, hfast.1⟩, if_pos hfast, toFixed_eq (not_isZero_of_tieFree hfast.1)]
  · rw [if_neg (fun h => hfast ⟨h.2.2, h.2.1⟩), if_neg hfast]
    dsimp only
    by_cases hzero : x.isZero = true
    · rw [if_pos hzero, zero_text_if, cUnits_zero hzero]
      rfl
    · have hunits : scaledRoundEven (decomposeAbs x).1 (decomposeAbs x).2 prec = cUnits x prec := by
        rw [scaledRoundEven_magnitude, zpow_natCast]
        rfl
      rw [if_neg hzero, hunits]
      by_cases hp : prec = 0
      · rw [if_pos hp, hp, withPoint_zero]
        rfl
      · have hpadded : (if (Nat.toDigits 10 (cUnits x prec)).length ≤ prec then
            List.replicate (prec - (Nat.toDigits 10 (cUnits x prec)).length + 1) '0' ++ Nat.toDigits 10 (cUnits x prec)
            else Nat.toDigits 10 (cUnits x prec)) =
            List.replicate (prec + 1 - (Nat.toDigits 10 (cUnits x prec)).length) '0' ++
              Nat.toDigits 10 (cUnits x prec) := by
          split_ifs with hlen
          · congr 2
            omega
          · rw [show prec + 1 - (Nat.toDigits 10 (cUnits x prec)).length = 0 by omega]
            rfl
        have hcut := @withPoint_of_padded prec (cUnits x prec) (by omega)
        unfold pointAfter at hcut
        rw [if_neg hp, hpadded, ← hcut]
        simp only [List.append_assoc, List.singleton_append]
        rfl

/-- The digits of the methods, as `%e` prints them. -/
theorem digits_text (h : HasDigits10 p n) :
    (if p - 1 = 0 then Nat.toDigits 10 n else pointAfter 1 (Nat.toDigits 10 n)) = withPoint false (p - 1) n := by
  split_ifs with hp
  · rw [hp, withPoint_zero]
  · obtain ⟨hsplit, hlen⟩ := h.split (show p - 1 < p by omega)
    exact withPoint_eq_pointAfter false (by omega) hsplit (by omega)

/-- So does `toExponential`. -/
theorem toExponential_eq (h : ¬x.isZero = true) (f : ℕ) :
    toExponential x f = cMinus x ++ withPoint false f (significant roundUp (f + 1) x.magnitude).2 ++
      'e' :: jsExponent (significant roundUp (f + 1) x.magnitude).1 := by
  have htext := digits_text (significant_hasDigits isNearest_roundUp (Nat.le_add_left 1 f) (magnitude_pos h))
  rw [Nat.add_sub_cancel] at htext
  unfold toExponential
  rw [if_neg h]
  dsimp only
  rw [jsSign_eq h, htext]

/-- The exact way: the loops find the exponent, and a number that was rounded to a power of ten loses a zero. -/
theorem exact_digits (h : ¬x.isZero = true) (prec : ℕ) :
    (if 10^(prec + 1) ≤ (roundEven (inUnits (prec + 1) x.magnitude)).toNat
      then ((roundEven (inUnits (prec + 1) x.magnitude)).toNat / 10, Int.log 10 x.magnitude + 1)
      else ((roundEven (inUnits (prec + 1) x.magnitude)).toNat, Int.log 10 x.magnitude)) =
      ((significant roundEven (prec + 1) x.magnitude).2, (significant roundEven (prec + 1) x.magnitude).1) := by
  obtain ⟨-, hle, -⟩ := rounded_bounds isNearest_roundEven (Nat.le_add_left 1 prec) (magnitude_pos h)
  unfold significant
  by_cases hten : (roundEven (inUnits (prec + 1) x.magnitude)).toNat = 10^(prec + 1)
  · rw [if_pos hten, if_pos hten.ge, hten, Nat.pow_succ, Nat.mul_div_cancel _ (by norm_num)]
    rfl
  · rw [if_neg hten, if_neg (by omega)]

/-- `%e` has the digits of the rounding that is used. -/
theorem cFormatE_eq (h : ¬x.isZero = true) (hprec : prec ≤ 99) :
    cFormatE guess x prec = eForm x (prec + 1) (significant (hostRound x) (prec + 1) x.magnitude) := by
  unfold cFormatE eForm hostRound
  rw [Nat.add_sub_cancel]
  by_cases hfree : tieFree x = true
  · rw [if_pos ⟨by omega, hfree⟩, if_pos hfree, toExponential_eq h, padExponent_eq]
  · rw [if_neg (fun h' => hfree h'.2), dif_neg h, if_neg hfree]
    have hvalue := magnitude_eq_decomposed x
    have hlog : pinDown (decomposeAbs x).1 (decomposeAbs_pos h) (decomposeAbs x).2
        (pinUp (decomposeAbs x).1 (decomposeAbs x).2 (guess x)) = Int.log 10 x.magnitude := by
      rw [hvalue]
      exact pinDown_eq (decomposeAbs_pos h) _ (le_pinUp (decomposeAbs_pos h) _)
    have hunits : scaledRoundEven (decomposeAbs x).1 (decomposeAbs x).2 (prec - Int.log 10 x.magnitude) =
        (roundEven (inUnits (prec + 1) x.magnitude)).toNat := by
      rw [scaledRoundEven_magnitude]
      unfold inUnits
      rw [Nat.cast_add, Nat.cast_one, add_sub_cancel_right]
    have hdigits := significant_hasDigits isNearest_roundEven (Nat.le_add_left 1 prec) (magnitude_pos h)
    have htext := digits_text hdigits
    rw [Nat.add_sub_cancel] at htext
    dsimp only
    rw [hlog, hunits, exact_digits h]
    rw [expStr_eq, ← htext]
    by_cases hp : prec = 0
    · rw [if_neg (show ¬0 < prec by omega), if_pos hp]
      rfl
    · rw [if_pos (show 0 < prec by omega), if_neg hp]
      unfold pointAfter
      simp only [List.append_assoc, List.singleton_append]
      rfl

theorem cFormatE_zero (h : x.isZero = true) (prec : ℕ) : cFormatE guess x prec = cE x prec := by
  have hfree : ¬tieFree x = true := fun h' => not_isZero_of_tieFree h' h
  unfold cFormatE cE cSignificant
  rw [if_neg (fun h' => hfree h'.2), dif_pos h, if_pos h]
  rw [zero_text_if, expStr_eq]
  rfl

end

/-! ## The general form -/

section

variable {x : F64} {p d n : ℕ} {s : ℤ × ℕ} {guess : F64 → ℤ}

/-- The mantissa is a digit and, behind a point, the others. -/
theorem mantissa_eq (h : HasDigits10 p n) : ∃ c, c.isDigit = true ∧
    Nat.toDigits 10 n = c :: decimals (p - 1) n ∧
      withPoint false (p - 1) n = c :: if decimals (p - 1) n ≠ [] then '.' :: decimals (p - 1) n else [] := by
  have hpos := h.pos
  obtain ⟨hsplit, hlen⟩ := h.split (show p - 1 < p by omega)
  obtain ⟨c, hc⟩ := List.length_eq_one_iff.mp (show (Nat.toDigits 10 (n / 10^(p - 1))).length = 1 by omega)
  refine ⟨c, isDigit_of_mem (n := n / 10^(p - 1)) (by rw [hc]; exact List.mem_singleton_self c), ?_, ?_⟩
  · rw [hsplit, hc]
    rfl
  · unfold withPoint
    rw [hc]
    by_cases hp : 0 < p - 1
    · rw [if_pos (Or.inl hp), if_pos (decimals_ne_nil hp)]
      rfl
    · rw [if_neg (by simp [hp]), Nat.eq_zero_of_not_pos hp]
      rfl

/-- The expression finds the parts of a text of `%e`. -/
theorem matchExp_eq {sign ds : List Char} {c e : Char} {rest : List Char} (hsign : sign = [] ∨ sign = ['-'])
    (hc : c.isDigit = true) (hrest : ∀ c ∈ rest, c.isDigit = true) (he : e = '+' ∨ e = '-') (hds : ds ≠ [])
    (hall : ds.all Char.isDigit = true) :
    matchExp (sign ++ (c :: if rest ≠ [] then '.' :: rest else []) ++ 'e' :: e :: ds) =
      some ⟨sign, c, rest, e :: ds⟩ := by
  have hminus : ¬(c = '-') := ne_of_isDigit hc (by decide)
  have htake : (rest ++ 'e' :: e :: ds).takeWhile Char.isDigit = rest := by
    rw [List.takeWhile_append_of_pos hrest, List.takeWhile_cons_of_neg (by decide), List.append_nil]
  have hdrop : (rest ++ 'e' :: e :: ds).dropWhile Char.isDigit = 'e' :: e :: ds := by
    rw [List.dropWhile_append_of_pos hrest, List.dropWhile_cons_of_neg (by decide)]
  have hfront : (if (sign ++ (c :: if rest ≠ [] then '.' :: rest else []) ++ 'e' :: e :: ds).head? = some '-'
      then (['-'], (sign ++ (c :: if rest ≠ [] then '.' :: rest else []) ++ 'e' :: e :: ds).tail)
      else ([], sign ++ (c :: if rest ≠ [] then '.' :: rest else []) ++ 'e' :: e :: ds)) =
      (sign, (c :: if rest ≠ [] then '.' :: rest else []) ++ 'e' :: e :: ds) := by
    obtain rfl | rfl := hsign
    · exact if_neg (by simpa using hminus)
    · rfl
  rw [List.all_eq_true] at hall
  unfold matchExp
  rw [hfront]
  by_cases hempty : rest = []
  · subst hempty
    simp [hc, he, hds]
    exact hall
  · rw [if_pos hempty]
    simp [hempty, htake, hdrop, hc, he, hds]
    exact hall

theorem cMinus_cases (x : F64) : cMinus x = [] ∨ cMinus x = ['-'] := by
  unfold cMinus
  split_ifs
  · exact Or.inr rfl
  · exact Or.inl rfl

/-- The digits with the exponent of `%g` in the fixed form. -/
theorem fixed_text (h : HasDigits10 p n) {e : ℤ} (he : e < p) :
    (if 0 ≤ e then
        if (Nat.toDigits 10 n).length ≤ (e + 1).toNat
        then Nat.toDigits 10 n ++ List.replicate ((e + 1).toNat - (Nat.toDigits 10 n).length) '0'
        else (Nat.toDigits 10 n).take (e + 1).toNat ++ ['.'] ++ (Nat.toDigits 10 n).drop (e + 1).toNat
      else ['0', '.'] ++ List.replicate (-e - 1).toNat '0' ++ Nat.toDigits 10 n) =
      withPoint false (p - 1 - e).toNat n := by
  have hpos := h.pos
  rw [h.length]
  split_ifs with hnonneg hwhole
  · rw [show (p - 1 - e).toNat = 0 by omega, withPoint_zero, show (e + 1).toNat - p = 0 by omega]
    exact List.append_nil _
  · obtain ⟨hsplit, hlen⟩ := h.split (show (p - 1 - e).toNat < p by omega)
    rw [← withPoint_eq_pointAfter false (show 0 < (p - 1 - e).toNat by omega) hsplit (show (e + 1).toNat = _ by omega)]
    unfold pointAfter
    rw [List.append_assoc]
    rfl
  · obtain ⟨hfront, hdec⟩ := h.below (show p ≤ (p - 1 - e).toNat by omega)
    unfold withPoint
    rw [if_pos (Or.inl (by omega)), hfront, hdec, show (p - 1 - e).toNat - p = (-e - 1).toNat by omega]
    rfl

/-- The mantissa of `%g`: there is nothing to strip from a single digit. -/
theorem mantissa_adjusted (h : HasDigits10 p n) (u : List Char) (hu : '.' ∉ u) (strip : Bool) :
    (if strip then stripZeros (u ++ withPoint false (p - 1) n)
      else if '.' ∉ u ++ withPoint false (p - 1) n then u ++ withPoint false (p - 1) n ++ ['.']
      else u ++ withPoint false (p - 1) n) = u ++ gNumber strip (p - 1) n := by
  have hpos := h.pos
  unfold gNumber
  by_cases hp : 0 < p - 1
  · have hmem : ¬ '.' ∉ u ++ withPoint false (p - 1) n :=
      not_not_intro (List.mem_append_right _ (point_mem_iff.mpr hp))
    rw [stripZeros_withPoint hp, withPoint_true, if_pos hp, if_neg hmem]
    split_ifs <;> rfl
  · have hp1 : p = 1 := by omega
    have hn : n < 10 := by
      have := h.lt
      rw [hp1] at this
      omega
    have hn0 : n ≠ 0 := by
      have := h.le
      rw [hp1] at this
      omega
    have htext : withPoint false (p - 1) n = [Nat.digitChar n] := by
      rw [hp1, Nat.sub_self, withPoint_zero, Nat.toDigits_of_lt_base hn]
    have hnz : Nat.digitChar n ≠ '0' := by
      intro h0
      interval_cases n <;> simp_all
    have hmem : '.' ∉ u ++ withPoint false (p - 1) n := by
      rw [List.mem_append]
      exact fun h' => h'.elim hu (fun h' => hp (point_mem_iff.mp h'))
    rw [withPoint_true, if_neg hp, if_pos hmem]
    rw [Nat.eq_zero_of_not_pos hp] at htext ⊢
    rw [trimmed_zero, htext, stripZeros_last hnz, List.append_assoc]
    split_ifs <;> rfl

/-- The sign and the text of a number have no letter. -/
theorem letter_not_mem (x : F64) (d n : ℕ) : 'e' ∉ cMinus x ++ withPoint false d n := by
  unfold withPoint
  simp only [List.mem_append]
  rintro (hsign | (hwhole | hpoint) | hdec)
  · obtain h | h := cMinus_cases x
    · rw [h] at hsign
      exact absurd hsign List.not_mem_nil
    · rw [h] at hsign
      exact absurd hsign (by decide)
  · exact ne_of_isDigit (isDigit_of_mem hwhole) (by decide) rfl
  · by_cases hd : 0 < d ∨ false = true
    · rw [if_pos hd] at hpoint
      exact absurd hpoint (by decide)
    · rw [if_neg hd] at hpoint
      exact absurd hpoint List.not_mem_nil
  · exact ne_of_isDigit (mem_decimals hdec) (by decide) rfl

theorem point_not_mem_cMinus (x : F64) : '.' ∉ cMinus x := by
  obtain h | h := cMinus_cases x
  · rw [h]
    exact List.not_mem_nil
  · rw [h]
    decide

/-- A sign in front does not matter for the adjustments. -/
theorem fixed_adjusted_sign (x : F64) (strip : Bool) :
    (if strip then (if '.' ∉ cMinus x ++ withPoint false d n then cMinus x ++ withPoint false d n
        else stripZeros (cMinus x ++ withPoint false d n))
      else if '.' ∉ cMinus x ++ withPoint false d n then cMinus x ++ withPoint false d n ++ ['.']
      else cMinus x ++ withPoint false d n) = cMinus x ++ gNumber strip d n := by
  have hsign := point_not_mem_cMinus x
  unfold gNumber
  by_cases hd : 0 < d
  · have hmem : ¬ '.' ∉ cMinus x ++ withPoint false d n :=
      not_not_intro (List.mem_append_right _ (point_mem_iff.mpr hd))
    rw [if_neg hmem, if_neg hmem, stripZeros_withPoint hd, withPoint_true, if_pos hd]
    split_ifs <;> rfl
  · have hmem : '.' ∉ cMinus x ++ withPoint false d n := by
      rw [List.mem_append]
      exact fun h' => h'.elim hsign (fun h' => hd (point_mem_iff.mp h'))
    rw [if_pos hmem, if_pos hmem, withPoint_true, if_neg hd, Nat.eq_zero_of_not_pos hd, trimmed_zero, List.append_assoc]
    split_ifs <;> rfl

theorem tenThousandth_le : (10 : ℚ)^(-4 : ℤ) ≤ tenThousandth.magnitude := by
  obtain ⟨k, n, hk, hkn⟩ : ∃ k n, tenThousandth.expField = k ∧ k + n = 1075 ∧ n = 66 :=
    ⟨1009, 66, by decide, by norm_num, rfl⟩
  have hsig : tenThousandth.significand = 7378697629483821 := by decide
  unfold F64.magnitude
  rw [F64.scale_eq hkn.1, hk, hsig, max_eq_left (by omega), hkn.2]
  push_cast
  rw [mul_comm ((2 : ℚ)^k), mul_div_mul_right _ _ (pow_ne_zero _ (by norm_num))]
  norm_num

/-- A number that is not below `1e-4` has no exponent below -4. -/
theorem exponent_ge {rnd : ℚ → ℤ} (h : tenThousandth.magnitude ≤ x.magnitude) :
    -4 ≤ (significant rnd p x.magnitude).1 := by
  have hle : (10 : ℚ)^(-4 : ℤ) ≤ x.magnitude := tenThousandth_le.trans h
  have hpos : 0 < x.magnitude := (zpow_pos (by norm_num) _).trans_le hle
  have hlog : -4 ≤ Int.log 10 x.magnitude :=
    (Int.zpow_le_iff_le_log (by norm_num : 1 < 10) hpos).mp (by exact_mod_cast hle)
  unfold significant
  dsimp only
  split_ifs
  · dsimp only
    omega
  · exact hlog

/-- What `toPrecision` gives, for numbers that are not too small. -/
theorem toPrecision_eq (h : ¬x.isZero = true) (hp : 1 ≤ p) (hlow : -4 ≤ (significant roundUp p x.magnitude).1) :
    toPrecision x p =
      if p ≤ (significant roundUp p x.magnitude).1 then
        cMinus x ++ withPoint false (p - 1) (significant roundUp p x.magnitude).2 ++
          'e' :: jsExponent (significant roundUp p x.magnitude).1
      else cMinus x ++ withPoint false (p - 1 - (significant roundUp p x.magnitude).1).toNat
        (significant roundUp p x.magnitude).2 := by
  have hdigits := significant_hasDigits isNearest_roundUp hp (magnitude_pos h)
  unfold toPrecision
  rw [if_neg h]
  dsimp only
  rw [jsSign_eq h]
  generalize significant roundUp p x.magnitude = s at *
  by_cases hbig : p ≤ s.1
  · have htext := digits_text hdigits
    rw [if_pos (Or.inr hbig), if_pos hbig, ← htext]
    congr 2
    by_cases hp1 : p = 1
    · rw [if_pos hp1, if_pos (by omega)]
    · rw [if_neg hp1, if_neg (by omega)]
  · have hfixed := fixed_text hdigits (show s.1 < p by omega)
    rw [if_neg (by omega), if_neg hbig, ← hfixed, hdigits.length]
    by_cases hlast : s.1 = p - 1
    · rw [if_pos hlast, if_pos (by omega), if_pos (by omega), show (s.1 + 1).toNat - p = 0 by omega]
      simp
    · rw [if_neg hlast]
      by_cases hnonneg : 0 ≤ s.1
      · rw [if_pos hnonneg, if_pos hnonneg, if_neg (by omega)]
        unfold pointAfter
        rw [List.append_assoc (List.take _ _)]
        rfl
      · rw [if_neg hnonneg, if_neg hnonneg, show -(s.1 + 1) = -s.1 - 1 by ring]

/-- `%g` has the digits of the rounding that is used. -/
theorem cFormatG_eq (h : ¬x.isZero = true) (hp : 1 ≤ p) (hle : p ≤ 99) (strip : Bool) :
    cFormatG guess x p strip = some (gForm x p strip (significant (hostRound x) p x.magnitude)) := by
  have hdigits := significant_hasDigits (isNearest_hostRound x) hp (magnitude_pos h)
  unfold cFormatG gForm
  dsimp only
  rw [if_neg (by omega : ¬p < 1), if_neg h]
  by_cases hfast : p ≤ 100 ∧ tenThousandth.magnitude ≤ x.magnitude ∧ tieFree x = true
  · have hround : hostRound x = roundUp := if_pos hfast.2.2
    have hlow : -4 ≤ (significant roundUp p x.magnitude).1 := exponent_ge hfast.2.1
    rw [hround] at hdigits ⊢
    rw [if_pos hfast, toPrecision_eq h hp hlow]
    generalize significant roundUp p x.magnitude = s at *
    by_cases hbig : p ≤ s.1
    · have hmem : 'e' ∈ cMinus x ++ withPoint false (p - 1) s.2 ++ 'e' :: jsExponent s.1 := by simp
      have hidx : (cMinus x ++ withPoint false (p - 1) s.2 ++ 'e' :: jsExponent s.1).idxOf 'e' =
          (cMinus x ++ withPoint false (p - 1) s.2).length := by
        rw [List.idxOf_append_of_notMem (letter_not_mem x _ _), List.idxOf_cons_self, Nat.add_zero]
      have htake : (cMinus x ++ withPoint false (p - 1) s.2 ++ 'e' :: jsExponent s.1).drop
          ((cMinus x ++ withPoint false (p - 1) s.2).length + 1) = jsExponent s.1 := by
        rw [← List.drop_drop, List.drop_left]
        rfl
      rw [if_pos hbig, if_neg (fun h' => h' hmem), hidx, List.take_left, htake, parseInt_jsExponent,
        if_pos (Or.inr hbig), mantissa_adjusted hdigits _ (point_not_mem_cMinus x), expStr_eq]
    · rw [if_neg hbig, if_pos (letter_not_mem x _ _), fixed_adjusted_sign,
        if_neg (show ¬(s.1 < -4 ∨ (p : ℤ) ≤ s.1) by omega)]
  · obtain ⟨c, hc, hall, hmant⟩ := mantissa_eq hdigits
    obtain ⟨sgn, ds, hexp, hsgn, hds, hdigit, hparse⟩ := cExponent_spec (significant (hostRound x) p x.magnitude).1
    have hE : cFormatE guess x (p - 1) = _ := cFormatE_eq h (show p - 1 ≤ 99 by omega)
    rw [Nat.sub_add_cancel hp] at hE
    rw [if_neg hfast, hE]
    unfold eForm
    rw [hmant, hexp, matchExp_eq (cMinus_cases x) hc (fun c hc => mem_decimals hc) hsgn hds hdigit]
    generalize significant (hostRound x) p x.magnitude = s at *
    dsimp only [Option.bind_eq_bind, Option.bind_some]
    rw [hparse]
    by_cases hform : s.1 < -4 ∨ p ≤ s.1
    · have hadj := mantissa_adjusted hdigits [] List.not_mem_nil strip
      rw [List.nil_append, List.nil_append, hmant] at hadj
      rw [if_pos hform, if_pos hform, hadj, expStr_eq, hexp]
    · have hfixed := fixed_text hdigits (show s.1 < p by omega)
      rw [if_neg hform, if_neg hform, ← hall, hfixed, fixed_adjusted]

end

end Lua2wasm.Format
