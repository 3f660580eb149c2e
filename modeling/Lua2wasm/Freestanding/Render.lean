import Lua2wasm.Arith.Rounded
import Lua2wasm.Freestanding.Fmt

/-!
# Rendering a double

What C prints for a finite double without its sign (`cNumber`), and that `render_float` makes it of the digits that
`dtoa` finds (`renderFloat_eq`).

The digits say little by themselves: those at the end are missing if they are zeros, and there may be none at all.
`Stands` is what matters about them, that the loops which fill up with zeros find the digits of a number before the
point and behind it. It holds for both modes of `dtoa` and every number of decimals, and from it both styles are the
text of the number. The scratch buffer has room, as no double has more than 309 digits before the point, and no
significant digit is behind a fraction of more than four zeros where the style of `%f` is taken for `%g`.
-/

namespace Lua2wasm.Freestanding

open Format Rounding

/-! ## The digits of `dtoa` -/

/-- The digits of a number up to the last one that is not zero. -/
def shortest (n : ℕ) : List Char := (Nat.toDigits 10 n).rdropWhile (· = '0')

/-- The letters of a text, for the conversions that are upper case letters. -/
def letters (upper : Bool) (s : List Char) : List Char := if upper then s.map Char.toUpper else s

/-- `ds`, with the point at `decpt` and zeros for missing digits, is `n` with `d` decimals. -/
structure Stands (ds : List Char) (decpt : ℤ) (d n : ℕ) : Prop where
  /-- Before the point. -/
  whole : (if decpt ≤ 0 then ['0'] else (List.range decpt.toNat).map fun i => ds.getD i '0') = Nat.toDigits 10 (n / 10^d)
  /-- Behind it. -/
  fraction : ((List.range d).map fun i : ℕ => if 0 ≤ decpt + i then ds.getD (decpt + i).toNat '0' else '0') = decimals d n

section

variable {s t ds : List Char} {c : Char} {n d q : ℕ} {decpt : ℤ}

theorem shortest_append (n : ℕ) : ∃ k, Nat.toDigits 10 n = shortest n ++ List.replicate k '0' := by
  have hzeros : (Nat.toDigits 10 n).rtakeWhile (· = '0') =
      List.replicate ((Nat.toDigits 10 n).rtakeWhile (· = '0')).length '0' :=
    List.eq_replicate_of_mem fun c hc => by simpa using List.mem_rtakeWhile_imp hc
  refine ⟨((Nat.toDigits 10 n).rtakeWhile (· = '0')).length, ?_⟩
  rw [← hzeros]
  exact List.rdropWhile_append_rtakeWhile.symm

/-- The digits that are left out are zeros. -/
theorem getD_shortest (n i : ℕ) : (shortest n).getD i '0' = (Nat.toDigits 10 n).getD i '0' := by
  obtain ⟨k, hk⟩ := shortest_append n
  rw [hk, List.getD_eq_getElem?_getD, List.getD_eq_getElem?_getD]
  by_cases hi : i < (shortest n).length
  · rw [List.getElem?_append_left hi]
  · rw [List.getElem?_append_right (not_lt.mp hi), List.getElem?_eq_none (not_lt.mp hi), List.getElem?_replicate]
    split_ifs <;> rfl

/-- A part of a list, element by element. -/
theorem map_getD (m k : ℕ) (h : m + k ≤ s.length) :
    ((List.range k).map fun i => s.getD (m + i) '0') = (s.drop m).take k := by
  apply List.ext_getElem
  · rw [List.length_map, List.length_range, List.length_take, List.length_drop]
    omega
  · intro i hi _
    rw [List.length_map, List.length_range] at hi
    rw [List.getElem_map, List.getElem_range, List.getElem_take, List.getElem_drop, List.getD_eq_getElem?_getD,
      List.getElem?_eq_getElem (by omega)]
    rfl

/-- The digits of a number, for any number of decimals. -/
theorem stands_shortest (h : HasDigits10 q n) (d : ℕ) : Stands (shortest n) ((q : ℤ) - d) d n := by
  have hlen := h.length
  obtain hd | hd := lt_or_ge d q
  · -- the point is behind a digit
    obtain ⟨hsplit, hwhole⟩ := h.split hd
    have hn : ((q : ℤ) - d).toNat = q - d := by omega
    have htake : (Nat.toDigits 10 n).take (q - d) = Nat.toDigits 10 (n / 10^d) := by rw [hsplit, ← hwhole, List.take_left]
    have hdrop : (Nat.toDigits 10 n).drop (q - d) = decimals d n := by rw [hsplit, ← hwhole, List.drop_left]
    constructor
    · rw [if_neg (by omega), hn]
      simp only [getD_shortest]
      have := @map_getD (Nat.toDigits 10 n) 0 (q - d) (by omega)
      simp only [Nat.zero_add, List.drop_zero] at this
      rw [this, htake]
    · have hidx : ∀ i : ℕ, (if 0 ≤ (q : ℤ) - d + i then (shortest n).getD ((q : ℤ) - d + i).toNat '0' else '0') =
          (Nat.toDigits 10 n).getD (q - d + i) '0' := fun i => by
        rw [if_pos (by omega), getD_shortest, show ((q : ℤ) - d + i).toNat = q - d + i by omega]
      simp only [hidx]
      rw [map_getD (q - d) d (by omega), hdrop, List.take_of_length_le (by rw [length_decimals])]
  · -- there are zeros before the digits
    obtain ⟨hwhole, hfrac⟩ := h.below hd
    constructor
    · rw [if_pos (by omega), hwhole]
    · rw [hfrac]
      apply List.ext_getElem
      · rw [List.length_map, List.length_range, List.length_append, List.length_replicate, hlen]
        omega
      · intro i hi _
        rw [List.length_map, List.length_range] at hi
        rw [List.getElem_map, List.getElem_range, List.getElem_append]
        split_ifs with hnonneg hzeros hzeros
        · rw [List.length_replicate] at hzeros
          omega
        · rw [getD_shortest, List.getD_eq_getElem?_getD, List.getElem?_eq_getElem (by omega)]
          simp only [Option.getD_some, List.length_replicate]
          congr 1
          omega
        · exact (List.getElem_replicate _).symm
        · rw [List.length_replicate] at hzeros
          omega

theorem map_zeros {f : ℕ → Char} (h : ∀ i, f i = '0') (d : ℕ) : (List.range d).map f = decimals d 0 := by
  rw [decimals_zero, show f = fun _ => '0' from funext h, List.map_const', List.length_range]

theorem stands_zero (d : ℕ) : Stands ['0'] 1 d 0 := by
  constructor
  · rw [Nat.zero_div]
    rfl
  · apply map_zeros
    intro i
    rw [if_pos (by omega), show (1 + (i : ℤ)).toNat = i + 1 by omega]
    rfl

theorem stands_nothing (d : ℕ) : Stands [] (-d) d 0 := by
  constructor
  · rw [if_pos (by omega), Nat.zero_div]
    rfl
  · apply map_zeros
    intro i
    split_ifs
    · rfl
    · rfl

/-! ## Writing in the scratch buffer -/

theorem pushAll_eq (h : t.length + s.length ≤ 1100) : pushAll t s = some (t ++ s) := by
  induction s generalizing t with
  | nil => exact congrArg some (List.append_nil t).symm
  | cons c s ih =>
    rw [List.length_cons] at h
    have hpush : push t c = some (t ++ [c]) := if_pos (by omega)
    have hrest := @ih (t ++ [c]) (by rw [List.length_append, List.length_singleton]; omega)
    unfold pushAll at hrest ⊢
    rw [List.foldlM_cons, hpush]
    change s.foldlM push (t ++ [c]) = _
    rw [hrest, List.append_assoc, List.singleton_append]

theorem push_eq (h : t.length + 1 ≤ 1100) : push t c = some (t ++ [c]) := if_pos (by omega)

/-! ## The end of the fraction -/

/-- The loop leaves what is not a zero at the end, and the point. -/
theorem stripEnd_eq (u f : List Char) : ∀ k ≤ f.length,
    stripEnd (u ++ '.' :: f) u.length (u.length + 1 + k) = u.length + 1 + ((f.take k).rdropWhile (· = '0')).length := by
  intro k
  induction k with
  | zero =>
    intro _
    unfold stripEnd
    rw [if_neg (by omega)]
    simp
  | succ k ih =>
    intro hk
    have hget : (u ++ '.' :: f)[u.length + 1 + k]? = some f[k] := by
      rw [List.getElem?_append_right (by omega), show u.length + 1 + k - u.length = k + 1 by omega, List.getElem?_cons_succ]
      exact List.getElem?_eq_getElem (by omega)
    have htake : f.take (k + 1) = f.take k ++ [f[k]] := (List.take_append_getElem (by omega)).symm
    rw [← Nat.add_assoc]
    unfold stripEnd
    rw [hget, htake]
    by_cases hzero : f[k] = '0'
    · rw [if_pos ⟨by omega, congrArg some hzero⟩, ih (by omega), List.rdropWhile_concat_pos _ _ _ (by simpa using hzero)]
    · rw [if_neg (fun h => hzero (Option.some.inj h.2)), List.rdropWhile_concat_neg _ _ _ (by simpa using hzero),
        List.length_append, List.length_take, List.length_singleton]
      omega

/-- `strip_frac_zeros` of a text with a point. -/
theorem stripFracZeros_point (u f : List Char) (hu : '.' ∉ u) : stripFracZeros (u ++ '.' :: f) =
    u ++ if f.rdropWhile (· = '0') = [] then [] else '.' :: f.rdropWhile (· = '0') := by
  have hidx : (u ++ '.' :: f).idxOf? '.' = some u.length := by
    rw [List.idxOf?_eq_some_iff]
    refine ⟨by rw [List.length_append, List.length_cons]; omega, ?_, fun j hj heq => ?_⟩
    · rw [List.getElem_append_right (le_refl _)]
      simp
    · rw [List.getElem_append_left hj] at heq
      exact hu (heq ▸ List.getElem_mem hj)
  have hlen : (u ++ '.' :: f).length = u.length + 1 + f.length := by
    rw [List.length_append, List.length_cons]
    omega
  have hhead : f.take (f.rdropWhile (· = '0')).length = f.rdropWhile (· = '0') :=
    (List.prefix_iff_eq_take.mp (List.rdropWhile_prefix _ _)).symm
  unfold stripFracZeros
  rw [hidx]
  dsimp only
  rw [hlen, stripEnd_eq u f f.length (le_refl _), List.take_length]
  split_ifs with hend hnil hnil
  · rw [hend, Nat.add_sub_cancel, List.take_left, List.append_nil]
  · exact absurd (List.eq_nil_of_length_eq_zero (by omega)) hnil
  · rw [hnil] at hend
    exact absurd rfl hend
  · rw [Nat.add_assoc, List.take_length_add_append, Nat.add_comm, List.take_succ_cons, hhead]

theorem length_stripFracZeros (s : List Char) : (stripFracZeros s).length ≤ s.length := by
  unfold stripFracZeros
  cases s.idxOf? '.' with
  | none => exact le_refl _
  | some dot => exact List.length_take_le' _ _

/-- `strip_frac_zeros` of a number. -/
theorem stripFracZeros_withPoint (d n : ℕ) : stripFracZeros (withPoint false d n) = trimmed d n := by
  obtain rfl | hd := Nat.eq_zero_or_pos d
  · have hnone : (withPoint false 0 n).idxOf? '.' = none := by
      rw [List.idxOf?_eq_none_iff]
      exact fun h => absurd (point_mem_iff.mp h) (by decide)
    unfold stripFracZeros
    rw [hnone, trimmed_zero]
  · have htext : withPoint false d n = Nat.toDigits 10 (n / 10^d) ++ '.' :: decimals d n := by
      unfold withPoint
      rw [if_pos (Or.inl hd), List.append_assoc, List.singleton_append]
    rw [htext, stripFracZeros_point _ _ point_not_mem_digits]
    rfl

/-- What the rendering leaves of a number: with `#` all of it. -/
theorem strip_number (alt strip : Bool) (halt : strip = !alt) (d n : ℕ) :
    (if strip then stripFracZeros (withPoint alt d n) else withPoint alt d n) = gNumber strip d n := by
  subst halt
  cases alt with
  | true => rfl
  | false => exact stripFracZeros_withPoint d n

/-! ## Rendering -/

/-- The point, if there is one. -/
theorem push_point {alt : Bool} (h : t.length + 1 ≤ 1100) :
    (if 0 < (d : ℤ) || alt then push t '.' else some t) = some (t ++ if 0 < d ∨ alt then ['.'] else []) := by
  by_cases hpoint : 0 < d ∨ alt = true
  · rw [if_pos hpoint, if_pos (by simpa using hpoint), push_eq h]
  · rw [if_neg hpoint, if_neg (by simpa using hpoint), List.append_nil]

/-- The style of `%f`. -/
theorem renderF_eq {alt : Bool} (h : Stands ds decpt d n) (hlen : (withPoint alt d n).length < 1100) (strip : Bool) :
    renderF ds decpt d alt strip =
      some (if strip then stripFracZeros (withPoint alt d n) else withPoint alt d n) := by
  have hfirst : ∀ b, (if decpt ≤ 0 then push [] '0' else pushAll [] b) = pushAll [] (if decpt ≤ 0 then ['0'] else b) := by
    intro b
    split_ifs
    · rfl
    · rfl
  have hparts := hlen
  unfold withPoint at hparts
  rw [List.length_append, List.length_append] at hparts
  unfold renderF
  rw [hfirst, h.whole, pushAll_eq (by rw [List.length_nil]; omega), List.nil_append]
  change (if 0 < (d : ℤ) || alt then push (Nat.toDigits 10 (n / 10^d)) '.' else some (Nat.toDigits 10 (n / 10^d))) >>= _ = _
  rw [push_point (by omega)]
  change pushAll (Nat.toDigits 10 (n / 10^d) ++ if 0 < d ∨ alt then ['.'] else [])
    ((List.range d).map fun i : ℕ => if 0 ≤ decpt + i then ds.getD (decpt + i).toNat '0' else '0') >>= _ = _
  rw [h.fraction, pushAll_eq (by rw [List.length_append]; omega)]
  rfl

/-- The loop of `u_to_str` has room for all digits. -/
theorem uDigits_eq {room v : ℕ} (h : v < 10^room) (p : List Char) :
    uDigits 10 false room v p = some (if v = 0 then p else Nat.toDigits 10 v ++ p) := by
  induction room generalizing v p with
  | zero =>
    obtain rfl : v = 0 := by omega
    rfl
  | succ room ih =>
    cases v with
    | zero => rfl
    | succ v =>
      have hdiv : (v + 1) / 10 < 10^room := by
        rw [Nat.div_lt_iff_lt_mul (by decide), ← pow_succ]
        exact h
      unfold uDigits
      simp only [Bool.false_eq_true, if_false]
      rw [ih hdiv, if_neg (Nat.succ_ne_zero v)]
      congr 1
      by_cases hzero : (v + 1) / 10 = 0
      · rw [if_pos hzero, Nat.toDigits_of_lt_base (by omega), Nat.mod_eq_of_lt (by omega)]
        rfl
      · rw [if_neg hzero, @Nat.toDigits_of_base_le 10 (v + 1) (by decide) (by omega), List.append_assoc]
        rfl

theorem uToStr_eq {v : ℕ} (h : v < 10^7) : uToStr v 10 false 8 = some (Nat.toDigits 10 v) := by
  unfold uToStr
  rw [uDigits_eq h, List.append_nil]
  by_cases hv : v = 0
  · subst hv
    rfl
  · simp [hv]

theorem digits_length_lt_two (v : ℕ) : (Nat.toDigits 10 v).length < 2 ↔ v < 10 := by
  have h := Nat.length_toDigits_le_iff (n := v) (b := 10) (k := 1) (by decide) (by decide)
  rw [pow_one] at h
  omega

theorem toUpper_digit (h : c.isDigit = true) : c.toUpper = c := by
  unfold Char.isDigit at h
  unfold Char.toUpper
  simp only [Bool.and_eq_true, decide_eq_true_eq] at h
  exact dif_neg fun h' => absurd (UInt32.le_trans h'.1 h.2) (by decide)

/-- The letter is the only one in an exponent. -/
theorem letters_cExponent (lower : Bool) (e : ℤ) : letters (!lower) (cExponent e) =
    (if lower then 'e' else 'E') :: (if e < 0 then '-' else '+') ::
      if e.natAbs < 10 then ['0', Nat.digitChar e.natAbs] else Nat.toDigits 10 e.natAbs := by
  have hdigits : (if e.natAbs < 10 then ['0', Nat.digitChar e.natAbs] else Nat.toDigits 10 e.natAbs).map Char.toUpper =
      if e.natAbs < 10 then ['0', Nat.digitChar e.natAbs] else Nat.toDigits 10 e.natAbs := by
    refine (List.map_congr_left (g := id) fun c hc => toUpper_digit ?_).trans (List.map_id _)
    split_ifs at hc with h
    · obtain rfl | hc := List.mem_cons.mp hc
      · decide
      · exact isDigit_of_mem (n := e.natAbs) (by rwa [Nat.toDigits_of_lt_base h])
    · exact isDigit_of_mem hc
  have hsign : (if e < 0 then '-' else '+').toUpper = if e < 0 then '-' else '+' := by
    split_ifs
    · rfl
    · rfl
  cases lower with
  | true => rfl
  | false =>
    unfold cExponent
    change ('e' :: (if e < 0 then '-' else '+') :: _).map Char.toUpper = _
    rw [List.map_cons, List.map_cons, hdigits, hsign]
    rfl

/-- The style of `%e`. -/
theorem renderE_eq {alt lower : Bool} {e : ℤ} (h : Stands ds 1 d n) (hds : ds ≠ [])
    (hlen : (withPoint alt d n).length ≤ 1000) (he : e.natAbs < 1000) (strip : Bool) :
    renderE ds (e + 1) d lower alt strip =
      some ((if strip then stripFracZeros (withPoint alt d n) else withPoint alt d n) ++
        letters (!lower) (cExponent e)) := by
  -- the first digit stands before the point, the others behind it
  have hhead : [ds.headD '0'] = Nat.toDigits 10 (n / 10^d) := by
    rw [← h.whole, if_neg (by decide)]
    cases ds with
    | nil => exact absurd rfl hds
    | cons c ds => rfl
  have hfrac : ((List.range d).map fun i => ds.getD (i + 1) '0') = decimals d n := by
    rw [← h.fraction]
    apply List.map_congr_left
    intro i _
    rw [if_pos (by omega), show (1 + (i : ℤ)).toNat = i + 1 by omega]
  have hparts := hlen
  unfold withPoint at hparts
  rw [List.length_append, List.length_append] at hparts
  have hexp : (if ds = [] then 0 else e + 1 - 1) = e := by rw [if_neg hds, Int.add_sub_cancel]
  obtain ⟨u, hu⟩ : ∃ u, u = if strip then stripFracZeros (withPoint alt d n) else withPoint alt d n := ⟨_, rfl⟩
  have hulen : u.length ≤ 1000 := by
    rw [hu]
    split_ifs
    · exact (length_stripFracZeros _).trans hlen
    · exact hlen
  unfold renderE
  rw [hexp, push_eq (by decide), List.nil_append, hhead]
  change (if 0 < (d : ℤ) || alt then push (Nat.toDigits 10 (n / 10^d)) '.' else some (Nat.toDigits 10 (n / 10^d))) >>= _ = _
  rw [push_point (by omega)]
  change pushAll (Nat.toDigits 10 (n / 10^d) ++ if 0 < d ∨ alt then ['.'] else [])
    ((List.range d).map fun i => ds.getD (i + 1) '0') >>= _ = _
  rw [hfrac, pushAll_eq (by rw [List.length_append]; omega)]
  change (push (if strip then stripFracZeros (withPoint alt d n) else withPoint alt d n) (if lower then 'e' else 'E') >>= _) = _
  rw [← hu, push_eq (by omega)]
  change (push (u ++ [if lower then 'e' else 'E']) (if e < 0 then '-' else '+') >>= _) = _
  rw [push_eq (by simp; omega)]
  change (uToStr e.natAbs 10 false 8 >>= _) = _
  rw [uToStr_eq (by omega)]
  change ((if (Nat.toDigits 10 e.natAbs).length < 2 then push (u ++ [if lower then 'e' else 'E'] ++ [if e < 0 then '-' else '+']) '0'
    else some (u ++ [if lower then 'e' else 'E'] ++ [if e < 0 then '-' else '+'])) >>= _) = _
  have hsmall := digits_length_lt_two e.natAbs
  have hdigits : (Nat.toDigits 10 e.natAbs).length ≤ 3 := (Nat.length_toDigits_le_iff (by decide) (by decide)).mpr he
  rw [letters_cExponent]
  -- an exponent of one digit gets a zero
  by_cases hone : e.natAbs < 10
  · rw [if_pos (hsmall.mpr hone), push_eq (by simp; omega)]
    change pushAll _ _ = _
    rw [pushAll_eq (by simp; omega), if_pos hone, Nat.toDigits_of_lt_base hone]
    simp
  · rw [if_neg (fun h' => hone (hsmall.mp h'))]
    change pushAll _ _ = _
    rw [pushAll_eq (by simp; omega), if_neg hone]
    simp

end

/-! ## What C prints -/

/-- The conversions of doubles. -/
inductive Style where
  | e | f | g
  deriving DecidableEq

/-- The letter of a conversion. -/
def Style.letter (upper : Bool) : Style → Char
  | .e => if upper then 'E' else 'e'
  | .f => if upper then 'F' else 'f'
  | .g => if upper then 'G' else 'g'

/-- The precision, which is 6 without one. -/
def cPrec (prec : ℤ) : ℕ := if prec < 0 then 6 else prec.toNat

/-- A finite double without its sign. The exponent that `%e` would print decides about the style of `%g`. -/
def cNumber (style : Style) (upper alt : Bool) (prec : ℕ) (x : F64) : List Char :=
  match style with
  | .e => withPoint alt prec (cSignificant x (prec + 1)).2 ++ letters upper (cExponent (cSignificant x (prec + 1)).1)
  | .f => withPoint alt prec (cUnits x prec)
  | .g =>
    let p := max prec 1
    let s := cSignificant x p
    if s.1 < -4 ∨ p ≤ s.1 then gNumber (!alt) (p - 1) s.2 ++ letters upper (cExponent s.1)
    else gNumber (!alt) (p - 1 - s.1).toNat (cUnits x (p - 1 - s.1).toNat)

/-- `dtoa` of a finite double that is not negative, in its modes 2 and 3: the digits are rounded correctly, and zeros at
their end are left out. -/
structure IsDtoa (dtoa : Dtoa) : Prop where
  /-- Zero has one digit. -/
  zero : ∀ x mode n, x.isZero = true → dtoa x mode n = (['0'], 1)
  /-- Mode 2 rounds to a number of significant digits. -/
  rounded : ∀ x, x.expField ≠ 2047 → ¬x.negative = true → ¬x.isZero = true → ∀ p : ℕ, 1 ≤ p →
    dtoa x 2 p = (shortest (significant roundEven p x.magnitude).2, (significant roundEven p x.magnitude).1 + 1)
  /-- Mode 3 rounds to a number of decimals, and finds no digits where that gives zero. -/
  fixed : ∀ x, x.expField ≠ 2047 → ¬x.negative = true → ¬x.isZero = true → ∀ d : ℕ,
    dtoa x 3 d = if cUnits x d = 0 then ([], -(d : ℤ))
      else (shortest (cUnits x d), (Nat.toDigits 10 (cUnits x d)).length - d)

section

variable {x : F64} {dtoa : Dtoa} {p d n : ℕ}

theorem hasDigits10 (h : n ≠ 0) : HasDigits10 (Nat.toDigits 10 n).length n := by
  have hpos : 0 < (Nat.toDigits 10 n).length := Nat.length_toDigits_pos
  refine ⟨hpos, ?_, (Nat.length_toDigits_le_iff (by decide) hpos).mp (le_refl _)⟩
  by_contra hlt
  obtain hone | hmore := Nat.eq_or_lt_of_le (Nat.succ_le_of_lt hpos)
  · rw [← hone] at hlt
    exact hlt (Nat.one_le_iff_ne_zero.mpr h)
  · have := (Nat.length_toDigits_le_iff (n := n) (b := 10) (by decide) (show 0 < (Nat.toDigits 10 n).length - 1 by omega)).mpr
      (not_le.mp hlt)
    omega

theorem shortest_ne_nil (h : n ≠ 0) : shortest n ≠ [] := by
  intro hnil
  obtain ⟨k, hk⟩ := shortest_append n
  rw [hnil, List.nil_append] at hk
  have hzeros : ∀ k, Nat.ofDigitChars 10 (List.replicate k '0') 0 = 0 := by
    intro k
    induction k with
    | zero => rfl
    | succ k ih => exact ih
  have hvalue := Nat.ofDigitChars_ten_toDigits (n := n)
  rw [hk, hzeros] at hvalue
  exact h hvalue.symm

/-- With as many decimals as there are significant digits, the digits are the same. -/
theorem cUnits_significant (hp : 1 ≤ p) (hd : (d : ℤ) = p - 1 - (cSignificant x p).1) :
    cUnits x d = (cSignificant x p).2 := by
  unfold cSignificant at hd ⊢
  split_ifs at hd ⊢ with hzero
  · exact cUnits_zero hzero d
  · unfold cUnits
    rw [significant_fixed isNearest_roundEven hp (magnitude_pos hzero) hd, Int.toNat_natCast]

/-- In mode 2 the digits are those of `%e`, and of `%g` in either style. -/
theorem IsDtoa.mode_two (h : IsDtoa dtoa) (hfinite : x.expField ≠ 2047) (hsign : ¬x.negative = true) (hp : 1 ≤ p) :
    ∃ ds, dtoa x 2 p = (ds, (cSignificant x p).1 + 1) ∧ ds ≠ [] ∧ Stands ds 1 (p - 1) (cSignificant x p).2 ∧
      ∀ d : ℕ, (d : ℤ) = p - 1 - (cSignificant x p).1 →
        Stands ds ((cSignificant x p).1 + 1) d (cSignificant x p).2 := by
  by_cases hzero : x.isZero = true
  · have hs : cSignificant x p = (0, 0) := if_pos hzero
    rw [hs, h.zero x 2 p hzero]
    exact ⟨['0'], rfl, List.cons_ne_nil _ _, stands_zero (p - 1), fun d _ => stands_zero d⟩
  · have hs : cSignificant x p = significant roundEven p x.magnitude := if_neg hzero
    have hdigits := significant_hasDigits isNearest_roundEven hp (magnitude_pos hzero)
    rw [hs]
    refine ⟨_, h.rounded x hfinite hsign hzero p hp, shortest_ne_nil ?_, ?_, fun d hd => ?_⟩
    · have := hdigits.le
      have := Nat.pow_pos (n := p - 1) (show 0 < 10 by decide)
      omega
    · have hstands := stands_shortest hdigits (p - 1)
      rwa [show (p : ℤ) - (p - 1 : ℕ) = 1 by omega] at hstands
    · have hstands := stands_shortest hdigits d
      rwa [show (significant roundEven p x.magnitude).1 + 1 = (p : ℤ) - d by omega]

/-- In mode 3 the digits are those of `%f`. -/
theorem IsDtoa.mode_three (h : IsDtoa dtoa) (hfinite : x.expField ≠ 2047) (hsign : ¬x.negative = true) (d : ℕ) :
    ∃ ds decpt, dtoa x 3 d = (ds, decpt) ∧ Stands ds decpt d (cUnits x d) := by
  by_cases hzero : x.isZero = true
  · rw [h.zero x 3 d hzero, cUnits_zero hzero]
    exact ⟨_, _, rfl, stands_zero d⟩
  · rw [h.fixed x hfinite hsign hzero d]
    split_ifs with hnone
    · rw [hnone]
      exact ⟨_, _, rfl, stands_nothing d⟩
    · exact ⟨_, _, rfl, stands_shortest (hasDigits10 hnone) d⟩

/-! ## The scratch buffer has room -/

theorem ten_pow_bounds : 2^1074 ≤ 10^324 ∧ 2^1024 < 10^309 := by decide +kernel

/-- The value of a finite double has at most 309 digits before the point, and less than 324 zeros behind it. -/
theorem magnitude_bounds (hfinite : x.expField ≠ 2047) (hzero : ¬x.isZero = true) :
    (10 : ℚ)^(-324 : ℤ) ≤ x.magnitude ∧ x.magnitude < 10^(309 : ℤ) := by
  have hexp : max x.expField 1 ≤ 2046 := by
    have := x.expField_lt
    omega
  have hsig := x.significand_lt
  have hsig' : 1 ≤ x.significand := by
    rw [Nat.one_le_iff_ne_zero, ne_eq, F64.significand_eq_zero]
    exact hzero
  rw [F64.magnitude_units]
  constructor
  · calc (10 : ℚ)^(-324 : ℤ) ≤ 1 * 2^(1 - 1075 : ℤ) := by
          have h : (2^1074 : ℚ) ≤ 10^324 := by exact_mod_cast ten_pow_bounds.1
          rw [one_mul, show (1 - 1075 : ℤ) = -(1074 : ℕ) by norm_num, show (-324 : ℤ) = -(324 : ℕ) by norm_num,
            zpow_neg, zpow_neg, zpow_natCast, zpow_natCast]
          exact inv_anti₀ (by positivity) h
      _ ≤ x.significand * 2^((max x.expField 1 : ℕ) - 1075 : ℤ) := by
        apply mul_le_mul (by exact_mod_cast hsig')
        · exact zpow_le_zpow_right₀ (by norm_num) (by omega)
        · positivity
        · positivity
  · calc (x.significand : ℚ) * 2^((max x.expField 1 : ℕ) - 1075 : ℤ) ≤ 2^53 * 2^(2046 - 1075 : ℤ) := by
          apply mul_le_mul (by exact_mod_cast hsig.le)
          · exact zpow_le_zpow_right₀ (by norm_num) (by omega)
          · positivity
          · positivity
      _ < 10^(309 : ℤ) := by
        have h : (2^1024 : ℚ) < 10^309 := by exact_mod_cast ten_pow_bounds.2
        rw [show (2046 - 1075 : ℤ) = (971 : ℕ) by norm_num, show (309 : ℤ) = (309 : ℕ) by norm_num, zpow_natCast,
          zpow_natCast, ← pow_add]
        exact h

theorem significant_exponent (hfinite : x.expField ≠ 2047) (p : ℕ) : (cSignificant x p).1.natAbs < 1000 := by
  unfold cSignificant
  split_ifs with hzero
  · decide
  · have hpos := magnitude_pos hzero
    obtain ⟨hlo, hhi⟩ := magnitude_bounds hfinite hzero
    have hlog : -324 ≤ Int.log 10 x.magnitude :=
      (Int.zpow_le_iff_le_log (by norm_num : 1 < 10) hpos).mp (by exact_mod_cast hlo)
    have hlog' : Int.log 10 x.magnitude < 309 :=
      (Int.lt_zpow_iff_log_lt (by norm_num : 1 < 10) hpos).mp (by exact_mod_cast hhi)
    unfold significant
    dsimp only
    split_ifs
    · dsimp only
      omega
    · dsimp only
      omega

/-- The digits before and behind the point, and the point. -/
theorem length_withPoint_le (alt : Bool) (d n : ℕ) :
    (withPoint alt d n).length ≤ max (Nat.toDigits 10 n).length (d + 1) + 1 := by
  have hpad := congrArg List.length (padded_digits d n)
  rw [List.length_append, List.length_append, List.length_replicate, length_decimals] at hpad
  have hpoint : (if 0 < d ∨ alt = true then ['.'] else []).length ≤ 1 := by
    split_ifs
    · exact le_refl _
    · exact Nat.zero_le _
  unfold withPoint
  rw [List.length_append, List.length_append, length_decimals]
  omega

theorem length_cUnits_le (hfinite : x.expField ≠ 2047) (d : ℕ) : (Nat.toDigits 10 (cUnits x d)).length ≤ d + 310 := by
  rw [Nat.length_toDigits_le_iff (by decide) (by omega)]
  by_cases hzero : x.isZero = true
  · rw [cUnits_zero hzero]
    exact Nat.pow_pos (by decide)
  · have hmax : roundEven (x.magnitude * 10^d) ≤ ((10^(d + 309) : ℕ) : ℤ) := by
      apply isNearest_roundEven.ge
      push_cast
      calc x.magnitude * 10^d ≤ 10^309 * 10^d := by
            have := (magnitude_bounds hfinite hzero).2
            gcongr
            exact_mod_cast this.le
        _ = 10^(d + 309) := by rw [← pow_add, Nat.add_comm]
    have hle : cUnits x d ≤ 10^(d + 309) := Int.toNat_le.mpr hmax
    calc cUnits x d ≤ 10^(d + 309) := hle
      _ < 10^(d + 310) := Nat.pow_lt_pow_right (by decide) (by omega)

theorem length_significant_le (x : F64) (hp : 1 ≤ p) : (Nat.toDigits 10 (cSignificant x p).2).length ≤ p := by
  unfold cSignificant
  split_ifs with hzero
  · exact hp
  · exact (significant_hasDigits isNearest_roundEven hp (magnitude_pos hzero)).length.le

/-! ## The three styles -/

variable {prec : ℤ}

theorem letter_lower (style : Style) (upper : Bool) : decide ('a' ≤ style.letter upper) = !upper := by
  cases style <;> cases upper <;> decide

theorem letter_normal (style : Style) (upper : Bool) :
    (if (!upper) = true then style.letter upper else Char.ofNat ((style.letter upper).toNat + 32)) = style.letter false := by
  cases style <;> cases upper <;> decide

/-- The rendering of a double is what C prints, and there is room for it. -/
theorem renderFloat_eq (h : IsDtoa dtoa) (hfinite : x.expField ≠ 2047) (hsign : ¬x.negative = true) (hprec : prec ≤ 700)
    (style : Style) (upper : Bool) (flags : Flags) :
    renderFloat dtoa x (style.letter upper) prec flags = some (cNumber style upper flags.alt (cPrec prec) x) := by
  have hcast : (if prec < 0 then 6 else prec) = (cPrec prec : ℤ) := by
    unfold cPrec
    split_ifs <;> omega
  unfold renderFloat
  dsimp only
  rw [letter_lower, letter_normal]
  cases style with
  | e =>
    obtain ⟨ds, hds, hne, hstands, -⟩ := h.mode_two (p := cPrec prec + 1) hfinite hsign (by omega)
    have hlen := length_significant_le x (show 1 ≤ cPrec prec + 1 by omega)
    have htext := length_withPoint_le flags.alt (cPrec prec) (cSignificant x (cPrec prec + 1)).2
    push_cast at hds
    rw [Nat.add_sub_cancel] at hstands
    rw [if_neg (by decide), if_pos (by decide), hcast, hds]
    exact (renderE_eq hstands hne (by omega) (significant_exponent hfinite _) false).trans (by rw [Bool.not_not]; rfl)
  | f =>
    obtain ⟨ds, decpt, hds, hstands⟩ := h.mode_three hfinite hsign (cPrec prec)
    have hlen := length_cUnits_le hfinite (cPrec prec)
    have htext := length_withPoint_le flags.alt (cPrec prec) (cUnits x (cPrec prec))
    rw [if_neg (by decide), if_neg (by decide), hcast, hds]
    exact renderF_eq hstands (by omega) false
  | g =>
    obtain ⟨p, hp⟩ : ∃ p, p = max (cPrec prec) 1 := ⟨_, rfl⟩
    have hdigits : gDigits prec = (p : ℤ) := by
      unfold gDigits
      split_ifs <;> omega
    obtain ⟨ds, hds, hne, hone, hfixed⟩ := h.mode_two (p := p) hfinite hsign (by omega)
    have hlen := length_significant_le x (show 1 ≤ p by omega)
    have hexp := significant_exponent hfinite (x := x) p
    unfold cNumber
    rw [if_pos (by decide), hdigits, hds, ← hp]
    dsimp only
    rw [Int.add_sub_cancel]
    split_ifs with hstyle
    · -- the style of `%e`
      have htext := length_withPoint_le flags.alt (p - 1) (cSignificant x p).2
      have hrender := @renderE_eq _ _ _ flags.alt (!upper) _ hone hne (by omega) hexp (!flags.alt)
      rw [strip_number _ _ rfl, Bool.not_not, show ((p - 1 : ℕ) : ℤ) = (p : ℤ) - 1 by omega] at hrender
      exact hrender
    · -- the style of `%f`, with as many decimals as there are digits
      obtain ⟨d, hd⟩ : ∃ d : ℕ, (d : ℤ) = p - 1 - (cSignificant x p).1 := ⟨(p - 1 - (cSignificant x p).1).toNat, by omega⟩
      have htext := length_withPoint_le flags.alt d (cSignificant x p).2
      have hrender := @renderF_eq _ _ _ _ flags.alt (hfixed d hd) (by omega) (!flags.alt)
      rw [strip_number _ _ rfl] at hrender
      rw [← hd, Int.toNat_natCast, cUnits_significant (by omega) hd]
      exact hrender

end

end Lua2wasm.Freestanding
