import Lua2wasm.Freestanding.Render

/-!
# The formatted output is what C prescribes

A format as pieces (`Piece`): characters, `%%`, and directives for a finite double. Each piece spells a part of the
format, takes arguments, and has the text that C prescribes for it. `vsnprintf` writes the texts one after another as
far as the caller's buffer goes, ends them with a NUL, leaves what is behind it, and returns the length that the text
has without a bound (`vsnprintf_eq`). No write is outside of a buffer, of the caller's and of those on the stack, as
there would be no result.

The proof carries the sink: after a text `s` it is `Out.after buf cap s`, however the text was written.
-/

namespace Lua2wasm.Freestanding

open Format

/-! ## Formats and what C prints for them -/

/-- A width or a precision: digits in the format, or an argument. -/
inductive Amount where
  | digits (s : List Char)
  | star (v : Int32)

namespace Amount

/-- How it is spelled. -/
def fmt : Amount → List Char
  | digits s => s
  | star _ => ['*']

/-- The argument that it takes. -/
def args : Amount → List VaArg
  | digits _ => []
  | star v => [.int v]

/-- Its value. No digits are zero. -/
def value : Amount → ℤ
  | digits s => Nat.ofDigitChars 10 s 0
  | star v => v.toInt

/-- There are only digits. -/
def Ok : Amount → Prop
  | digits s => ∀ c ∈ s, c.isDigit = true
  | star _ => True

end Amount

/-- A directive for a double. No width is one without digits. -/
structure Directive where
  flags : List Char
  width : Amount
  prec : Option Amount
  long : Bool
  style : Style
  upper : Bool
  value : F64

namespace Directive

/-- How it is spelled, behind the `%`. -/
def fmt (d : Directive) : List Char :=
  d.flags ++ (d.width.fmt ++ (d.prec.elim [] (fun a => '.' :: a.fmt) ++ ((if d.long then ['l'] else []) ++
    [d.style.letter d.upper])))

/-- The arguments that it takes. -/
def args (d : Directive) : List VaArg := d.width.args ++ (d.prec.elim [] Amount.args ++ [.double d.value])

/-- The flags. A negative width sets one, too. -/
def cFlags (d : Directive) : Flags where
  left := decide ('-' ∈ d.flags) || decide (d.width.value < 0)
  plus := decide ('+' ∈ d.flags)
  space := decide (' ' ∈ d.flags)
  alt := decide ('#' ∈ d.flags)
  zero := decide ('0' ∈ d.flags)

/-- The precision as it is given. A negative one stands for none. -/
def precision (d : Directive) : ℤ := d.prec.elim (-1) Amount.value

/-- A directive of C for a finite double, with a precision up to 700. -/
structure Ok (d : Directive) : Prop where
  flags : ∀ c ∈ d.flags, c ∈ ['-', '+', ' ', '#', '0']
  width : d.width.Ok
  /-- A zero before the width would be a flag. -/
  width_head : d.width.fmt.head? ≠ some '0'
  prec : ∀ a, d.prec = some a → a.Ok
  prec_le : d.precision ≤ 700
  finite : d.value.expField ≠ 2047

end Directive

/-- A number with its sign in a field: it is filled up with spaces behind it for `-`, else with zeros behind the sign
for `0`, else with spaces before it. -/
def cField (flags : Flags) (width : ℕ) (sign number : List Char) : List Char :=
  let pad := width - (sign ++ number).length
  if flags.left then sign ++ number ++ List.replicate pad ' '
  else if flags.zero then sign ++ List.replicate pad '0' ++ number
  else List.replicate pad ' ' ++ (sign ++ number)

/-- What C prints for a directive. -/
def Directive.text (d : Directive) : List Char :=
  cField d.cFlags d.width.value.natAbs (cFixedSign d.cFlags d.value)
    (cNumber d.style d.upper d.cFlags.alt (cPrec d.precision) d.value)

/-- A piece of a format. -/
inductive Piece where
  | plain (c : Char)
  | percent
  | double (d : Directive)

namespace Piece

/-- How it is spelled. -/
def fmt : Piece → List Char
  | plain c => [c]
  | percent => ['%', '%']
  | double d => '%' :: d.fmt

/-- The arguments that it takes. -/
def args : Piece → List VaArg
  | double d => d.args
  | _ => []

/-- What C prints for it. -/
def text : Piece → List Char
  | plain c => [c]
  | percent => ['%']
  | double d => d.text

/-- A plain character is no `%`. -/
def Ok : Piece → Prop
  | plain c => c ≠ '%'
  | percent => True
  | double d => d.Ok

end Piece

/-! ## The sink -/

/-- The sink after a text. -/
def Out.after (buf : List Char) (cap : ℕ) (s : List Char) : Out :=
  ⟨s.take cap ++ buf.drop (min s.length cap), cap, s.length⟩

section

variable {buf s t : List Char} {cap : ℕ} {c : Char}

theorem put_after (hcap : cap ≤ buf.length) : put (.after buf cap s) c = some (.after buf cap (s ++ [c])) := by
  have hlen : (s ++ [c]).length = s.length + 1 := by rw [List.length_append, List.length_singleton]
  unfold put Out.after
  dsimp only
  rw [hlen]
  by_cases hroom : s.length < cap
  · have hdrop : buf.drop s.length = buf[s.length] :: buf.drop (s.length + 1) := List.drop_eq_getElem_cons (by omega)
    rw [if_pos hroom, List.take_of_length_le hroom.le, min_eq_left hroom.le, min_eq_left (by omega),
      List.take_of_length_le (by omega),
      if_pos (by rw [List.length_append, List.length_drop]; omega), List.set_append_right _ _ (le_refl _), Nat.sub_self,
      hdrop, List.set_cons_zero, List.append_assoc, List.singleton_append]
  · rw [if_neg hroom, min_eq_right (by omega), min_eq_right (by omega), List.take_append_of_le_length (by omega)]

theorem putMem_after (hcap : cap ≤ buf.length) : putMem (.after buf cap s) t = some (.after buf cap (s ++ t)) := by
  induction t generalizing s with
  | nil => rw [List.append_nil]; rfl
  | cons c t ih =>
    have hrest := @ih (s ++ [c])
    unfold putMem at hrest ⊢
    rw [List.foldlM_cons, put_after hcap]
    exact hrest.trans (by rw [List.append_assoc, List.singleton_append])

theorem putPad_after (hcap : cap ≤ buf.length) (count : ℕ) :
    putPad (.after buf cap s) c count = some (.after buf cap (s ++ List.replicate count c)) := by
  induction count generalizing s with
  | zero => rw [List.replicate_zero, List.append_nil]; rfl
  | succ count ih =>
    unfold putPad
    rw [put_after hcap]
    exact (@ih (s ++ [c])).trans (by rw [List.append_assoc, List.singleton_append, List.replicate_succ])

theorem emitField_after (hcap : cap ≤ buf.length) (sign number : List Char) (width : ℕ) (flags : Flags) :
    emitField (.after buf cap s) sign number width flags =
      some (.after buf cap (s ++ cField flags width sign number)) := by
  have hpad : (if sign.length + number.length < width then width - (sign.length + number.length) else 0) =
      width - (sign ++ number).length := by
    rw [List.length_append]
    split_ifs <;> omega
  unfold emitField cField
  dsimp only
  rw [hpad]
  split_ifs
  · rw [putMem_after hcap]
    change (putMem _ _ >>= _) = _
    rw [putMem_after hcap]
    change putPad _ _ _ = _
    rw [putPad_after hcap, List.append_assoc, List.append_assoc, List.append_assoc]
  · rw [putMem_after hcap]
    change (putPad _ _ _ >>= _) = _
    rw [putPad_after hcap]
    change putMem _ _ = _
    rw [putMem_after hcap, List.append_assoc, List.append_assoc, List.append_assoc]
  · rw [putPad_after hcap]
    change (putMem _ _ >>= _) = _
    rw [putMem_after hcap]
    change putMem _ _ = _
    rw [putMem_after hcap, List.append_assoc, List.append_assoc]

end

/-! ## Reading a directive -/

section

variable {s rest : List Char} {c : Char} {ap : List VaArg} {flags : Flags}

/-- What can stand behind a width or a precision. -/
def Stops (rest : List Char) : Prop := ∀ c ∈ rest.head?, ¬('0' ≤ c ∧ c ≤ '9') ∧ c ≠ '*' ∧ c ∉ ['-', '+', ' ', '#']

theorem flagOf_eq_none (h : c ∉ ['-', '+', ' ', '#', '0']) : flagOf c = none := by
  simp only [List.mem_cons, List.not_mem_nil, or_false, not_or] at h
  unfold flagOf
  rw [if_neg h.1, if_neg h.2.1, if_neg h.2.2.1, if_neg h.2.2.2.1, if_neg h.2.2.2.2]

/-- A flag can stand anywhere among the flags, and more than once. -/
theorem readFlags_append (hs : ∀ c ∈ s, c ∈ ['-', '+', ' ', '#', '0']) (hrest : ∀ c ∈ rest.head?, flagOf c = none) :
    readFlags (s ++ rest) flags = (⟨flags.left || decide ('-' ∈ s), flags.plus || decide ('+' ∈ s),
      flags.space || decide (' ' ∈ s), flags.alt || decide ('#' ∈ s), flags.zero || decide ('0' ∈ s)⟩, rest) := by
  induction s generalizing flags with
  | nil =>
    rw [List.nil_append]
    cases rest with
    | nil => simp [readFlags]
    | cons c rest =>
      unfold readFlags
      rw [hrest c rfl]
      simp
  | cons c s ih =>
    have hstep : readFlags (c :: s ++ rest) flags = readFlags (s ++ rest)
        ⟨flags.left || decide ('-' = c), flags.plus || decide ('+' = c), flags.space || decide (' ' = c),
          flags.alt || decide ('#' = c), flags.zero || decide ('0' = c)⟩ := by
      have hc := hs c List.mem_cons_self
      simp only [List.mem_cons, List.not_mem_nil, or_false] at hc
      obtain rfl | rfl | rfl | rfl | rfl := hc <;> simp [readFlags, flagOf]
    rw [hstep, ih fun c hc => hs c (List.mem_cons_of_mem _ hc)]
    simp only [List.mem_cons, Bool.decide_or, Bool.or_assoc]

theorem le_ofDigitChars (n : ℕ) : n ≤ Nat.ofDigitChars 10 s n := by
  induction s generalizing n with
  | nil => exact le_refl n
  | cons c s ih =>
    calc n ≤ 10 * n + (c.toNat - '0'.toNat) := by omega
      _ ≤ Nat.ofDigitChars 10 (c :: s) n := ih _

theorem isDigit_iff : c.isDigit = true ↔ '0' ≤ c ∧ c ≤ '9' := by
  unfold Char.isDigit
  rw [Bool.and_eq_true, decide_eq_true_iff, decide_eq_true_iff]
  rfl

/-- Digits are read up to the first character that is none. -/
theorem readDigits_append {n : ℕ} (hs : ∀ c ∈ s, c.isDigit = true) (hrest : Stops rest)
    (hsmall : Nat.ofDigitChars 10 s n < 2^31) : readDigits (s ++ rest) n = some (Nat.ofDigitChars 10 s n, rest) := by
  induction s generalizing n with
  | nil =>
    cases rest with
    | nil => rfl
    | cons c rest => exact if_neg (hrest c rfl).1
  | cons c s ih =>
    have hle : 10 * n + (c.toNat - '0'.toNat) ≤ Nat.ofDigitChars 10 (c :: s) n := le_ofDigitChars _
    rw [List.cons_append]
    unfold readDigits
    rw [if_pos (isDigit_iff.mp (hs c List.mem_cons_self)), Nat.mul_comm n, if_pos (by omega)]
    exact ih (fun c hc => hs c (List.mem_cons_of_mem _ hc)) hsmall

/-- A character that is no digit of an amount stands before what follows it. -/
theorem head_ne {a : Char} (hs : ∀ c ∈ s, c.isDigit = true) (hrest : Stops rest) (ha : a = '*') :
    (s ++ rest).head? ≠ some a := by
  subst ha
  intro hhead
  cases s with
  | nil => exact (hrest _ hhead).2.1 rfl
  | cons c s => exact absurd (hs _ List.mem_cons_self) (by rw [Option.some.inj hhead]; decide)

theorem toInt_lt_zero {w : Int32} : w < 0 ↔ w.toInt < 0 := Int32.lt_iff_toInt_lt

/-- The width. The smallest argument has no opposite. -/
theorem readWidth_append {a : Amount} (ha : a.Ok) (hrest : Stops rest) (hsmall : a.value.natAbs < 2^31) :
    readWidth flags (a.fmt ++ rest) (a.args ++ ap) =
      some ({ flags with left := flags.left || decide (a.value < 0) }, a.value.natAbs, rest, ap) := by
  cases a with
  | digits s =>
    change readWidth flags (s ++ rest) ap = _
    unfold readWidth
    rw [if_neg (head_ne ha hrest rfl), readDigits_append ha hrest (by exact_mod_cast hsmall)]
    have hneg : decide ((Nat.ofDigitChars 10 s 0 : ℤ) < 0) = false := decide_eq_false (by omega)
    change some (flags, _) = some ({ flags with left := flags.left || decide ((Nat.ofDigitChars 10 s 0 : ℤ) < 0) }, _)
    rw [hneg, Bool.or_false]
    rfl
  | star w =>
    change w.toInt.natAbs < 2^31 at hsmall
    change (if w < 0 then if w = Int32.minValue then none else some ({ flags with left := true }, (-w).toInt.toNat, rest, ap)
      else some (flags, w.toInt.toNat, rest, ap)) = some ({ flags with left := flags.left || decide (w.toInt < 0) },
        w.toInt.natAbs, rest, ap)
    by_cases hneg : w < 0
    · have hneg' := toInt_lt_zero.mp hneg
      have hmin : w ≠ Int32.minValue := fun h => by rw [h] at hsmall; exact absurd hsmall (by decide)
      have hopp : (-w).toInt = -w.toInt := by rw [Int32.toInt_neg, Int.bmod_eq_of_le (by omega) (by omega)]
      rw [if_pos hneg, if_neg hmin, hopp, decide_eq_true hneg', Bool.or_true, show (-w.toInt).toNat = w.toInt.natAbs by omega]
    · have hneg' := mt toInt_lt_zero.mpr hneg
      rw [if_neg hneg, decide_eq_false hneg', Bool.or_false, show w.toInt.toNat = w.toInt.natAbs by omega]

/-- The precision. All negative arguments are the same. -/
theorem readPrec_append {prec : Option Amount} (hok : ∀ a, prec = some a → a.Ok) (hrest : Stops rest)
    (hpoint : rest.head? ≠ some '.') (hle : prec.elim (-1) Amount.value ≤ 700) :
    readPrec (prec.elim [] (fun a => '.' :: a.fmt) ++ rest) (prec.elim [] Amount.args ++ ap) =
      some (max (-1) (prec.elim (-1) Amount.value), rest, ap) := by
  cases prec with
  | none => exact if_neg hpoint
  | some a =>
    cases a with
    | digits s =>
      have hs := hok _ rfl
      change (if (s ++ rest).head? = some '*' then _ else readDigits (s ++ rest) 0 >>= _) = some (max (-1) _, _)
      change (Nat.ofDigitChars 10 s 0 : ℤ) ≤ 700 at hle
      rw [if_neg (head_ne hs hrest rfl), readDigits_append hs hrest (by omega)]
      change some ((Nat.ofDigitChars 10 s 0 : ℤ), rest, ap) = some (max (-1) (Nat.ofDigitChars 10 s 0 : ℤ), rest, ap)
      rw [max_eq_right (by omega)]
    | star w =>
      change some ((if w < 0 then -1 else w.toInt), rest, ap) = some (max (-1) w.toInt, rest, ap)
      rw [max_def]
      split_ifs with hneg hle hle
      · have := toInt_lt_zero.mp hneg
        congr 2
        omega
      · rfl
      · rfl
      · have := mt toInt_lt_zero.mpr hneg
        omega

theorem skipLength_letter (long upper : Bool) (style : Style) :
    skipLength ((if long then ['l'] else []) ++ (style.letter upper :: rest)) = style.letter upper :: rest := by
  cases long <;> cases style <;> cases upper <;> rfl

theorem stops_cons (h : ¬('0' ≤ c ∧ c ≤ '9') ∧ c ≠ '*' ∧ c ∉ ['-', '+', ' ', '#']) : Stops (c :: rest) :=
  fun _ hc => Option.some.inj hc ▸ h

/-- The conversion ends what is before it. -/
theorem stops_letter (long upper : Bool) (style : Style) :
    Stops ((if long then ['l'] else []) ++ (style.letter upper :: rest)) := by
  cases long <;> cases style <;> cases upper <;> exact stops_cons (by decide)

theorem stops_prec (prec : Option Amount) (hrest : Stops rest) :
    Stops (prec.elim [] (fun a => '.' :: a.fmt) ++ rest) := by
  cases prec with
  | none => exact hrest
  | some a => exact stops_cons (by decide)

theorem head_letter (long upper : Bool) (style : Style) :
    ((if long then ['l'] else []) ++ (style.letter upper :: rest)).head? ≠ some '.' := by
  cases long <;> cases style <;> cases upper <;> exact fun h => absurd (Option.some.inj h) (by decide)

/-- The flags end before the width. -/
theorem flagOf_width {a : Amount} (ha : a.Ok) (hhead : a.fmt.head? ≠ some '0') (hrest : Stops rest) :
    ∀ c ∈ (a.fmt ++ rest).head?, flagOf c = none := by
  intro c hc
  cases a with
  | star w =>
    obtain rfl := Option.some.inj hc
    rfl
  | digits s =>
    cases s with
    | nil =>
      obtain ⟨hdigit, -, hflag⟩ := hrest c hc
      apply flagOf_eq_none
      intro hmem
      obtain hmem | hzero := List.mem_append.mp (show c ∈ ['-', '+', ' ', '#'] ++ ['0'] from hmem)
      · exact hflag hmem
      · rw [List.mem_singleton.mp hzero] at hdigit
        exact hdigit (by decide)
    | cons c' s =>
      obtain rfl : c' = c := Option.some.inj hc
      have hdigit : c'.isDigit = true := ha c' List.mem_cons_self
      apply flagOf_eq_none
      intro hmem
      obtain hmem | hzero := List.mem_append.mp (show c' ∈ ['-', '+', ' ', '#'] ++ ['0'] from hmem)
      · simp only [List.mem_cons, List.not_mem_nil, or_false] at hmem
        obtain rfl | rfl | rfl | rfl := hmem <;> exact absurd hdigit (by decide)
      · exact hhead (congrArg some (List.mem_singleton.mp hzero))

end

/-! ## Doubles -/

section

variable {dtoa : Dtoa} {buf s : List Char} {cap : ℕ} {v : F64}

theorem magnitudeOf_toNat (v : F64) : (magnitudeOf v).bits.toNat = v.bits.toNat % 2^63 := by
  unfold magnitudeOf
  rw [BitVec.toNat_and]
  exact Nat.and_two_pow_sub_one_eq_mod v.bits.toNat 63

theorem magnitudeOf_expField (v : F64) : (magnitudeOf v).expField = v.expField := by
  unfold F64.expField
  rw [magnitudeOf_toNat]
  omega

theorem magnitudeOf_fracField (v : F64) : (magnitudeOf v).fracField = v.fracField := by
  unfold F64.fracField
  rw [magnitudeOf_toNat]
  omega

theorem magnitudeOf_negative (v : F64) : ¬(magnitudeOf v).negative = true := by
  unfold F64.negative
  rw [magnitudeOf_toNat, decide_eq_true_iff]
  omega

theorem magnitudeOf_magnitude (v : F64) : (magnitudeOf v).magnitude = v.magnitude := by
  unfold F64.magnitude F64.significand
  rw [magnitudeOf_expField, magnitudeOf_fracField]

theorem magnitudeOf_isZero (v : F64) : (magnitudeOf v).isZero = v.isZero := by
  unfold F64.isZero
  rw [magnitudeOf_expField, magnitudeOf_fracField]

/-- The sign of a double is not in its number. -/
theorem cNumber_magnitudeOf (style : Style) (upper alt : Bool) (prec : ℕ) (v : F64) :
    cNumber style upper alt prec (magnitudeOf v) = cNumber style upper alt prec v := by
  have hunits : ∀ d, cUnits (magnitudeOf v) d = cUnits v d := fun d => by
    unfold cUnits
    rw [magnitudeOf_magnitude]
  have hdigits : ∀ p, cSignificant (magnitudeOf v) p = cSignificant v p := fun p => by
    unfold cSignificant
    rw [magnitudeOf_isZero, magnitudeOf_magnitude]
  cases style with
  | e =>
    unfold cNumber
    rw [hdigits]
  | f =>
    unfold cNumber
    rw [hunits]
  | g =>
    unfold cNumber
    dsimp only
    rw [hdigits, hunits]

theorem cPrec_max (q : ℤ) : cPrec (max (-1) q) = cPrec q := by
  unfold cPrec
  split_ifs <;> omega

/-- `fmt_float` of a finite double. -/
theorem fmtFloat_after (h : IsDtoa dtoa) (hcap : cap ≤ buf.length) (hfinite : v.expField ≠ 2047) {prec : ℤ}
    (hprec : prec ≤ 700) (style : Style) (upper : Bool) (flags : Flags) (width : ℕ) :
    fmtFloat dtoa (.after buf cap s) v (style.letter upper) prec flags width = some (.after buf cap (s ++
      cField flags width (cFixedSign flags v) (cNumber style upper flags.alt (cPrec prec) v))) := by
  have hrender := @renderFloat_eq (magnitudeOf v) dtoa prec h (by rwa [magnitudeOf_expField]) (magnitudeOf_negative v)
    hprec style upper flags
  rw [cNumber_magnitudeOf] at hrender
  unfold fmtFloat
  rw [if_neg hfinite, hrender]
  exact emitField_after hcap _ _ _ _

/-- A directive leaves its text in the sink, and what is behind it in the format and the arguments. -/
theorem directive_append (h : IsDtoa dtoa) (hcap : cap ≤ buf.length) {d : Directive} (hd : d.Ok)
    (hwidth : d.width.value.natAbs < 2^31) (rest : List Char) (ap : List VaArg) :
    directive dtoa (.after buf cap s) (d.fmt ++ rest) (d.args ++ ap) =
      some (.after buf cap (s ++ d.text), rest, ap) := by
  obtain ⟨r₁, hr₁⟩ : ∃ r₁, r₁ = (if d.long then ['l'] else []) ++ (d.style.letter d.upper :: rest) := ⟨_, rfl⟩
  obtain ⟨r₂, hr₂⟩ : ∃ r₂, r₂ = d.prec.elim [] (fun a => '.' :: a.fmt) ++ r₁ := ⟨_, rfl⟩
  have hstop₁ : Stops r₁ := hr₁ ▸ stops_letter d.long d.upper d.style
  have hstop₂ : Stops r₂ := hr₂ ▸ stops_prec d.prec hstop₁
  have hfmt : d.fmt ++ rest = d.flags ++ (d.width.fmt ++ r₂) := by
    rw [hr₂, hr₁]
    simp only [Directive.fmt, List.append_assoc, List.singleton_append]
  have hargs : d.args ++ ap = d.width.args ++ (d.prec.elim [] Amount.args ++ (.double d.value :: ap)) := by
    simp only [Directive.args, List.append_assoc, List.singleton_append]
  unfold directive
  rw [hfmt, hargs, readFlags_append hd.flags (flagOf_width hd.width hd.width_head hstop₂)]
  dsimp only
  rw [readWidth_append hd.width hstop₂ hwidth]
  change readPrec r₂ _ >>= _ = _
  rw [hr₂, readPrec_append hd.prec hstop₁ (hr₁ ▸ head_letter d.long d.upper d.style) hd.prec_le]
  change convert dtoa _ _ _ _ (skipLength r₁) _ = _
  rw [hr₁, skipLength_letter]
  have hfloat := @fmtFloat_after dtoa buf s cap d.value h hcap hd.finite _ (show max (-1) d.precision ≤ 700 by
    have := hd.prec_le
    omega) d.style d.upper d.cFlags d.width.value.natAbs
  rw [cPrec_max] at hfloat
  have hconvert : ∀ o flags width prec,
      convert dtoa o flags width prec (d.style.letter d.upper :: rest) (.double d.value :: ap) =
        fmtFloat dtoa o d.value (d.style.letter d.upper) prec flags width >>= fun o => some (o, rest, ap) := by
    intro o flags width prec
    cases d.style <;> cases d.upper <;> rfl
  rw [hconvert]
  change fmtFloat dtoa _ d.value _ (max (-1) d.precision) d.cFlags _ >>= _ = _
  rw [hfloat]
  rfl

end

/-! ## The whole format -/

section

variable {dtoa : Dtoa} {buf s : List Char} {cap : ℕ} {ps : List Piece}

theorem length_cField (flags : Flags) (width : ℕ) (sign number : List Char) :
    width ≤ (cField flags width sign number).length := by
  unfold cField
  split_ifs <;> simp only [List.length_append, List.length_replicate] <;> omega

/-- The loop writes one text after another. By induction on the pieces: each one takes one turn and leaves the rest of
the format. -/
theorem formatLoop_after (h : IsDtoa dtoa) (hcap : cap ≤ buf.length) (hps : ∀ p ∈ ps, p.Ok)
    (hsmall : ∀ p ∈ ps, p.text.length < 2^31) : ∀ turns, (ps.flatMap Piece.fmt).length ≤ turns →
      formatLoop dtoa turns (.after buf cap s) (ps.flatMap Piece.fmt) (ps.flatMap Piece.args) =
        some (.after buf cap (s ++ ps.flatMap Piece.text)) := by
  induction ps generalizing s with
  | nil =>
    intro turns _
    rw [List.flatMap_nil, List.flatMap_nil, List.flatMap_nil, List.append_nil]
    cases turns <;> rfl
  | cons p ps ih =>
    have hp := hps p List.mem_cons_self
    have hlt := hsmall p List.mem_cons_self
    have hrest := fun s => @ih s (fun q hq => hps q (List.mem_cons_of_mem _ hq))
      fun q hq => hsmall q (List.mem_cons_of_mem _ hq)
    intro turns hturns
    rw [List.flatMap_cons, List.length_append] at hturns
    have hpos : 0 < p.fmt.length := by cases p <;> exact Nat.succ_pos _
    obtain ⟨turns, rfl⟩ : ∃ k, turns = k + 1 := ⟨turns - 1, by omega⟩
    have hstep := fun t => (hrest (s ++ t) turns (by omega)).trans (by rw [List.append_assoc])
    rw [List.flatMap_cons, List.flatMap_cons, List.flatMap_cons]
    cases p with
    | plain c =>
      change (if c = '%' then _ else put (.after buf cap s) c >>= _) = _
      rw [if_neg hp, put_after hcap]
      exact hstep [c]
    | percent =>
      change (put (.after buf cap s) '%' >>= fun o => some (o, ps.flatMap Piece.fmt, ps.flatMap Piece.args)) >>= _ = _
      rw [put_after hcap]
      exact hstep ['%']
    | double d =>
      have hwidth : d.width.value.natAbs < 2^31 := (length_cField d.cFlags d.width.value.natAbs _ _).trans_lt hlt
      change directive dtoa (.after buf cap s) (d.fmt ++ ps.flatMap Piece.fmt) (d.args ++ ps.flatMap Piece.args) >>= _ = _
      rw [directive_append h hcap hp hwidth]
      exact hstep d.text

/-- What is in the buffer at the end. The characters that have room are there, and a NUL. -/
def written (buf : List Char) (cap : ℕ) (s : List Char) : List Char :=
  if cap = 0 then buf else s.take (cap - 1) ++ '\x00' :: buf.drop (min s.length (cap - 1) + 1)

/-- With a correct `dtoa` the output is what C prescribes, truncated to the room that the caller has, and the result
is its length without that bound. -/
theorem vsnprintf_eq (h : IsDtoa dtoa) (hps : ∀ p ∈ ps, p.Ok) (hcap : cap ≤ buf.length)
    (hlen : (ps.flatMap Piece.text).length < 2^31) :
    ∃ r, vsnprintf dtoa buf cap (ps.flatMap Piece.fmt) (ps.flatMap Piece.args) =
        some (written buf cap (ps.flatMap Piece.text), r) ∧ r.toInt = (ps.flatMap Piece.text).length := by
  have hsmall : ∀ p ∈ ps, p.text.length < 2^31 := by
    intro p hp
    rw [List.length_flatMap] at hlen
    exact (List.le_sum_of_mem (List.mem_map_of_mem hp)).trans_lt hlen
  have hloop := @formatLoop_after dtoa buf [] (cap - 1) ps h (by omega) hps hsmall _ (le_refl _)
  have hstart : Out.after buf (cap - 1) [] = ⟨buf, cap - 1, 0⟩ := by
    unfold Out.after
    rw [List.take_nil, List.length_nil, Nat.zero_min, List.drop_zero, List.nil_append]
  rw [hstart, List.nil_append] at hloop
  generalize ps.flatMap Piece.text = s at *
  refine ⟨Int32.ofNat s.length, ?_, ?_⟩
  · have hterm : (if s.length < cap - 1 then s.length else cap - 1) = min s.length (cap - 1) := by
      rw [min_def]
      split_ifs <;> omega
    have htake : (s.take (cap - 1)).length = min s.length (cap - 1) := by rw [List.length_take, Nat.min_comm]
    unfold vsnprintf
    rw [hloop]
    change (if cap = 0 then some ((Out.after buf (cap - 1) s).buf, Int32.ofNat s.length)
      else if (if s.length < cap - 1 then s.length else cap - 1) < (Out.after buf (cap - 1) s).buf.length then
        some ((Out.after buf (cap - 1) s).buf.set (if s.length < cap - 1 then s.length else cap - 1) '\x00',
          Int32.ofNat s.length) else none) = _
    unfold written Out.after
    rw [hterm]
    split_ifs with hcap₀ hroom
    · rw [hcap₀, List.take_zero, Nat.zero_sub, Nat.min_zero, List.drop_zero, List.nil_append]
    · -- the NUL is behind the text
      rw [List.set_append_right _ _ htake.le, htake, Nat.sub_self, List.drop_eq_getElem_cons (by omega), List.set_cons_zero]
    · rw [List.length_append, htake, List.length_drop] at hroom
      omega
  · exact Int32.toInt_ofNat_of_lt hlen

/-- A `dtoa` that is correct. -/
def exactDtoa : Dtoa := fun x mode n =>
  if x.isZero then (['0'], 1)
  else if mode = 2 then
    let s := Rounding.significant Rounding.roundEven n.toNat x.magnitude
    (shortest s.2, s.1 + 1)
  else if cUnits x n.toNat = 0 then ([], -n)
  else (shortest (cUnits x n.toNat), (Nat.toDigits 10 (cUnits x n.toNat)).length - n)

theorem isDtoa_exactDtoa : IsDtoa exactDtoa where
  zero _ _ _ hzero := if_pos hzero
  rounded _ _ _ hzero _ _ := if_neg hzero
  fixed _ _ _ hzero _ := if_neg hzero

/-- Half of five. -/
def half : Directive := ⟨['+'], .digits ['6'], some (.star 0), false, .f, false, ⟨0x4004000000000000⟩⟩

theorem half_expField : half.value.expField = 1024 := by decide

theorem half_units : cUnits half.value 0 = 2 := by
  have hmag : half.value.magnitude = 5 / 2 := by
    have hsig : half.value.significand = 5629499534213120 := by decide
    rw [F64.magnitude_units, hsig, half_expField]
    norm_num
  have hround : Rounding.roundEven (5 / 2) = 2 := by
    have h := Rounding.roundEven_div (n := 5) (show 0 < 2 by decide)
    exact_mod_cast h
  unfold cUnits
  rw [hmag, pow_zero, mul_one, hround]
  rfl

theorem half_text : half.text = [' ', ' ', ' ', ' ', '+', '2'] := by
  have hnumber : cNumber half.style half.upper half.cFlags.alt (cPrec half.precision) half.value = ['2'] := by
    change withPoint false 0 (cUnits half.value 0) = _
    rw [half_units]
    rfl
  unfold Directive.text
  rw [hnumber]
  decide

theorem half_ok : half.Ok where
  flags := by
    intro c hc
    rw [List.mem_singleton.mp hc]
    exact List.mem_cons_of_mem _ List.mem_cons_self
  width := fun c hc => (List.mem_singleton.mp hc).symm ▸ rfl
  width_head := by decide
  prec := fun a ha => by obtain rfl := Option.some.inj ha; trivial
  prec_le := (show half.precision = 0 by decide).trans_le (by norm_num)
  finite := half_expField.trans_ne (by decide)

/-- A text of 7 characters, in a buffer with room for 4. -/
theorem vsnprintf_eq_half : ∃ r, vsnprintf exactDtoa (List.replicate 8 'x') 5 ['=', '%', '+', '6', '.', '*', 'f']
    [.int 0, .double ⟨0x4004000000000000⟩] = some (['=', ' ', ' ', ' ', '\x00', 'x', 'x', 'x'], r) ∧ r.toInt = 7 := by
  have htext : [Piece.plain '=', .double half].flatMap Piece.text = ['=', ' ', ' ', ' ', ' ', '+', '2'] := by
    change '=' :: (half.text ++ []) = _
    rw [half_text]
    rfl
  have hok : ∀ p ∈ [Piece.plain '=', .double half], p.Ok := by
    intro p hp
    obtain rfl | hp := List.mem_cons.mp hp
    · exact (by decide : '=' ≠ '%')
    · rw [List.mem_singleton.mp hp]
      exact half_ok
  have hcap : 5 ≤ (List.replicate 8 'x').length := by decide
  have h := vsnprintf_eq isDtoa_exactDtoa hok hcap (by rw [htext]; decide)
  rw [htext] at h
  exact h

end

end Lua2wasm.Freestanding
