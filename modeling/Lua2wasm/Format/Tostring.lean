import Lua2wasm.Arith.Order
import Lua2wasm.Arith.Rounded
import Lua2wasm.Format.HostTies

/-!
# Floats to text and back

`formatFloat` of `runtime/format.mjs`, which `tostring` calls for a float, and `parseLuaNumber` of
`runtime/host-bindings.mjs` without a base, which `tonumber` calls for a string. A float is printed with 15 digits,
and with 17 when these do not give it back.

`tostring_tonumber` says that the text of a finite float is read as that float, bit for bit. The text has one of a
few shapes (`Shape`), with the value of the digits, and 17 digits are near enough for `F64.rounded_of_near`.
-/

namespace Lua2wasm.Format

open Rounding

/-! ## Reading -/

/-- A sign in front, and the rest. -/
def takeSign (s : List Char) : Bool × List Char :=
  if s.head? = some '-' then (true, s.tail) else if s.head? = some '+' then (false, s.tail) else (false, s)

/-- The parts of a decimal literal. -/
structure Literal where
  negative : Bool
  whole : List Char
  fraction : List Char
  exponent : ℤ

/-- The number that a literal denotes, without its sign. -/
def Literal.value (l : Literal) : ℚ :=
  (Nat.ofDigitChars 10 (l.whole ++ l.fraction) 0 : ℕ) * 10^(l.exponent - l.fraction.length)

/-- Digits with or without a sign, to the end: `[+-]?[0-9]+$`. -/
def isSignedDigits (s : List Char) : Bool := (takeSign s).2 ≠ [] && (takeSign s).2.all Char.isDigit

/-- `/^[+-]?([0-9]+\.?[0-9]*|\.[0-9]+)([eE][+-]?[0-9]+)?$/`, with the parts. -/
def matchDecimal (s : List Char) : Option Literal :=
  let (negative, s) := takeSign s
  let whole := s.takeWhile Char.isDigit
  let s := s.dropWhile Char.isDigit
  let (fraction, s) := if s.head? = some '.' then (s.tail.takeWhile Char.isDigit, s.tail.dropWhile Char.isDigit)
    else ([], s)
  if whole = [] ∧ fraction = [] then none
  else if s = [] then some ⟨negative, whole, fraction, 0⟩
  else if (s.head? = some 'e' ∨ s.head? = some 'E') ∧ isSignedDigits s.tail then
    some ⟨negative, whole, fraction, parseInt s.tail⟩
  else none

/-- `Number` of a text that is a decimal literal. -/
def number (s : List Char) : Option F64 := (matchDecimal s).map fun l => F64.rounded l.negative l.value

/-- White space of `trim`. -/
def isSpace (c : Char) : Bool :=
  (9 ≤ c.toNat && c.toNat ≤ 13) || c = ' ' || c.toNat = 0xA0

/-- `String.prototype.trim`, on bytes read as characters. -/
def trim (s : List Char) : List Char := (s.dropWhile isSpace).rdropWhile isSpace

/-- `[0-9a-fA-F]`. -/
def isHexDigit (c : Char) : Bool := c.isDigit || ('a' ≤ c && c ≤ 'f') || ('A' ≤ c && c ≤ 'F')

/-- What follows `0x` or `0X`, with the sign before it. -/
def hexBody (s : List Char) : Option (Bool × List Char) :=
  let (negative, s) := takeSign s
  if s.head? = some '0' ∧ (s.tail.head? = some 'x' ∨ s.tail.head? = some 'X') then some (negative, s.tail.tail)
  else none

/-- `/^([+-]?)0[xX]([0-9a-fA-F]+)$/`. -/
def matchHex (s : List Char) : Option (Bool × List Char) :=
  (hexBody s).filter fun (_, s) => s ≠ [] && s.all isHexDigit

/-- The value of hexadecimal digits. -/
def hexValue (s : List Char) : ℕ :=
  s.foldl (fun v c => 16 * v + if c.isDigit then c.toNat - 48 else if 'a' ≤ c then c.toNat - 87 else c.toNat - 55) 0

/-- `/^([+-]?)0[xX]([0-9a-fA-F]*)(?:\.([0-9a-fA-F]*))?(?:[pP]([+-]?[0-9]+))?$/`, with a point or an exponent and with
a digit. -/
def isHexFloat (s : List Char) : Bool :=
  match hexBody s with
  | none => false
  | some (_, s) =>
    let whole := s.takeWhile isHexDigit
    let s := s.dropWhile isHexDigit
    let point := s.head? = some '.'
    let fraction := if point then s.tail.takeWhile isHexDigit else []
    let s := if point then s.tail.dropWhile isHexDigit else s
    let power := s.head? = some 'p' ∨ s.head? = some 'P'
    (s = [] || (power && isSignedDigits s.tail)) && (point || power) && (whole ≠ [] || fraction ≠ [])

/-- `parseLuaNumber` without a base. What a hexadecimal float is worth stays open. -/
def parseLuaNumber (hexFloat : List Char → F64) (s : List Char) : Option Arith.Num :=
  let s := trim s
  if s = [] then none
  else match matchHex s with
  | some (negative, digits) =>
    some (.int (Int64.ofInt (if negative then -(hexValue digits : ℤ) else hexValue digits)))
  | none =>
    if isHexFloat s then some (.float (hexFloat s))
    else if isSignedDigits s then
      let v : ℤ := if (takeSign s).1 then -(Nat.ofDigitChars 10 (takeSign s).2 0 : ℕ)
        else (Nat.ofDigitChars 10 (takeSign s).2 0 : ℕ)
      if v < -2^63 ∨ 2^63 - 1 < v then (number s).map .float else some (.int (Int64.ofInt v))
    else (number s).map .float

/-! ## Printing -/

/-- `Number(s) === f`. -/
def readsBack (s : List Char) (f : F64) : Bool :=
  match number s with
  | some g => g.eq f
  | none => false

/-- `/^-?[0-9]+$/`. -/
def isIntegerText (s : List Char) : Bool :=
  let s := if s.head? = some '-' then s.tail else s
  s ≠ [] && s.all Char.isDigit

/-- A text that looks like an integer gets a zero decimal. -/
def addZero (s : List Char) : List Char := if isIntegerText s then s ++ ['.', '0'] else s

/-- `formatFloat`. -/
def formatFloat (guess : F64 → ℤ) (f : F64) : Option (List Char) :=
  if f.isNaN then some ['n', 'a', 'n']
  else if f.expField = 2047 then some (if f.negative then ['-', 'i', 'n', 'f'] else ['i', 'n', 'f'])
  else do
    let s ← cFormatG guess f 15 true
    let s ← (if readsBack s f then some s else cFormatG guess f 17 true)
    some (addZero s)

/-! ## The shape of the text -/

/-- A fraction behind a point, if there is one. -/
def pointed (fraction : List Char) : List Char := if fraction = [] then [] else '.' :: fraction

/-- The texts that are printed: a sign, digits, a fraction and an exponent. -/
structure Shape (s : List Char) (l : Literal) : Prop where
  whole_ne : l.whole ≠ []
  whole : ∀ c ∈ l.whole, c.isDigit = true
  fraction : ∀ c ∈ l.fraction, c.isDigit = true
  eq : ∃ tail, (tail = [] ∧ l.exponent = 0 ∨ tail = cExponent l.exponent) ∧
    s = (if l.negative then ['-'] else []) ++ l.whole ++ pointed l.fraction ++ tail

section

variable {s tail : List Char} {l : Literal} {x f : F64} {d n p : ℕ} {e : ℤ} {guess : F64 → ℤ}

theorem isSignedDigits_exponent (e : ℤ) :
    isSignedDigits (cExponent e).tail = true ∧ parseInt (cExponent e).tail = e := by
  obtain ⟨c, ds, hexp, hsgn, hds, hall, hparse⟩ := cExponent_spec e
  rw [hexp]
  refine ⟨?_, hparse⟩
  unfold isSignedDigits takeSign
  obtain rfl | rfl := hsgn
  · simpa [hds] using hall
  · simpa [hds] using hall

/-- A tail begins with no digit and no point. -/
theorem tail_head (h : tail = [] ∧ e = 0 ∨ tail = cExponent e) : tail = [] ∨ tail.head? = some 'e' := by
  obtain ⟨rfl, -⟩ | rfl := h
  · exact Or.inl rfl
  · exact Or.inr rfl

theorem takeWhile_digits {ds rest : List Char} (hds : ∀ c ∈ ds, c.isDigit = true)
    (hrest : ∀ c, rest.head? = some c → c.isDigit = false) :
    (ds ++ rest).takeWhile Char.isDigit = ds ∧ (ds ++ rest).dropWhile Char.isDigit = rest := by
  rw [List.takeWhile_append_of_pos hds, List.dropWhile_append_of_pos hds]
  cases rest with
  | nil => exact ⟨List.append_nil ds, rfl⟩
  | cons c rest =>
    have hc : ¬c.isDigit = true := by
      rw [hrest c rfl]
      exact Bool.false_ne_true
    rw [List.takeWhile_cons_of_neg hc, List.dropWhile_cons_of_neg hc]
    exact ⟨List.append_nil ds, rfl⟩

/-- The sign is taken off. -/
theorem takeSign_digits {neg : Bool} {ds rest : List Char} (hne : ds ≠ []) (hds : ∀ c ∈ ds, c.isDigit = true) :
    takeSign ((if neg then ['-'] else []) ++ ds ++ rest) = (neg, ds ++ rest) := by
  obtain ⟨c, cs, rfl⟩ := List.exists_cons_of_ne_nil hne
  have hc := hds c List.mem_cons_self
  have hminus : c ≠ '-' := ne_of_isDigit hc (by decide)
  have hplus : c ≠ '+' := ne_of_isDigit hc (by decide)
  unfold takeSign
  cases neg
  · simp [hminus, hplus]
  · rfl

/-- A text of that shape is a literal with these parts. -/
theorem Shape.matchDecimal (h : Shape s l) : matchDecimal s = some l := by
  obtain ⟨tail, htail, rfl⟩ := h.eq
  have hhead := tail_head htail
  have hrest : ∀ c, (pointed l.fraction ++ tail).head? = some c → c.isDigit = false := by
    intro c hc
    unfold pointed at hc
    split_ifs at hc
    · obtain rfl | h' := hhead
      · exact absurd hc (by simp)
      · rw [List.nil_append, h', Option.some_inj] at hc
        rw [← hc]
        rfl
    · rw [List.cons_append, List.head?_cons, Option.some_inj] at hc
      rw [← hc]
      rfl
  have htaildigit : ∀ c, tail.head? = some c → c.isDigit = false := by
    intro c hc
    obtain rfl | h' := hhead
    · exact absurd hc (by simp)
    · rw [h', Option.some_inj] at hc
      rw [← hc]
      rfl
  obtain ⟨htake, hdrop⟩ := takeWhile_digits h.whole hrest
  obtain ⟨htake', hdrop'⟩ := takeWhile_digits h.fraction htaildigit
  have hpoint : tail.head? ≠ some '.' := by
    intro h'
    obtain rfl | h'' := hhead
    · exact absurd h' (by simp)
    · rw [h''] at h'
      exact absurd h' (by decide)
  have hfraction : (if (pointed l.fraction ++ tail).head? = some '.'
      then ((pointed l.fraction ++ tail).tail.takeWhile Char.isDigit,
        (pointed l.fraction ++ tail).tail.dropWhile Char.isDigit)
      else ([], pointed l.fraction ++ tail)) = (l.fraction, tail) := by
    unfold pointed
    by_cases hempty : l.fraction = []
    · rw [if_pos hempty, List.nil_append, if_neg hpoint, hempty]
    · rw [if_neg hempty, List.cons_append, if_pos (by rfl), List.tail_cons, htake', hdrop']
  unfold Format.matchDecimal
  rw [List.append_assoc _ (pointed l.fraction), takeSign_digits h.whole_ne h.whole]
  dsimp only
  rw [htake, hdrop, hfraction]
  rw [if_neg (fun h' => h.whole_ne h'.1)]
  obtain ⟨rfl, hzero⟩ | rfl := htail
  · rw [if_pos rfl, ← hzero]
  · obtain ⟨hsigned, hparse⟩ := isSignedDigits_exponent l.exponent
    rw [if_neg (by unfold cExponent; exact List.cons_ne_nil _ _), if_pos ⟨Or.inl rfl, hsigned⟩, hparse]

theorem Shape.number (h : Shape s l) : number s = some (F64.rounded l.negative l.value) := by
  unfold Format.number
  rw [h.matchDecimal]
  rfl

/-- The fraction without its trailing zeros has the value of the whole one. -/
theorem trimmed_value (d n : ℕ) :
    ((Nat.ofDigitChars 10 (Nat.toDigits 10 (n / 10^d) ++ (decimals d n).rdropWhile (· = '0')) 0 : ℕ) : ℚ) *
      10^(-(((decimals d n).rdropWhile (· = '0')).length : ℤ)) = n / 10^d := by
  obtain ⟨f, hf⟩ : ∃ f, f = (decimals d n).rdropWhile (· = '0') := ⟨_, rfl⟩
  obtain ⟨z, hz⟩ : ∃ z, decimals d n = f ++ List.replicate z '0' := by
    have hzeros : ∀ c ∈ (decimals d n).rtakeWhile (· = '0'), c = '0' := by
      intro c hc
      simpa using List.mem_rtakeWhile_imp hc
    refine ⟨((decimals d n).rtakeWhile (· = '0')).length, ?_⟩
    rw [hf, ← List.eq_replicate_of_mem hzeros, List.rdropWhile_append_rtakeWhile]
  have hlen : d = f.length + z := by
    have := congrArg List.length hz
    rwa [length_decimals, List.length_append, List.length_replicate] at this
  have hall : Nat.ofDigitChars 10 (Nat.toDigits 10 (n / 10^d) ++ decimals d n) 0 = n := by
    rw [← padded_digits, Nat.ofDigitChars_append, Nat.ofDigitChars_replicate_zero, Nat.mul_zero,
      Nat.ofDigitChars_ten_toDigits]
  rw [hz, ← List.append_assoc, Nat.ofDigitChars_append, Nat.ofDigitChars_replicate_zero] at hall
  rw [← hf]
  generalize Nat.ofDigitChars 10 (Nat.toDigits 10 (n / 10^d) ++ f) 0 = v at *
  have hpow : (10 : ℚ)^d = 10^f.length * 10^z := by rw [hlen, pow_add]
  rw [← hall, hpow, zpow_neg, zpow_natCast]
  push_cast
  field_simp

theorem mem_rdropWhile_decimals {c : Char} (h : c ∈ (decimals d n).rdropWhile (· = '0')) : c.isDigit = true :=
  mem_decimals ((List.rdropWhile_prefix _ _).mem h)

/-- The texts of `%g` have the shape, with the value of the digits. -/
theorem trimmed_shape (x : F64) (d n : ℕ) (htail : tail = [] ∧ e = 0 ∨ tail = cExponent e) :
    ∃ l, Shape (cMinus x ++ trimmed d n ++ tail) l ∧ l.negative = x.negative ∧ l.value = n / 10^d * 10^e := by
  refine ⟨⟨x.negative, Nat.toDigits 10 (n / 10^d), (decimals d n).rdropWhile (· = '0'), e⟩,
    ⟨Nat.toDigits_ne_nil, fun c hc => isDigit_of_mem hc, fun c hc => mem_rdropWhile_decimals hc, tail,
      htail, ?_⟩, rfl, ?_⟩
  · unfold cMinus trimmed pointed
    simp only [List.append_assoc]
  · unfold Literal.value
    rw [← trimmed_value d n, sub_eq_add_neg, zpow_add₀ (by norm_num)]
    ring

/-- `%.{p}g` has the shape, and is as near to the double as `p` digits are. -/
theorem cG_shape (x : F64) (hp : 1 ≤ p) : ∃ l, Shape (cG x p true) l ∧ l.negative = x.negative ∧
    |x.magnitude - l.value| ≤ x.magnitude * 10^(1 - (p : ℤ)) / 2 := by
  by_cases hzero : x.isZero = true
  · have hmag := F64.isZero_iff_magnitude.mp hzero
    obtain ⟨l, hshape, hneg, hvalue⟩ := @trimmed_shape [] 0 x (max p 1 - 1) 0 (Or.inl ⟨rfl, rfl⟩)
    refine ⟨l, ?_, hneg, ?_⟩
    · have htoNat : (((max p 1 : ℕ) : ℤ) - 1 - 0).toNat = max p 1 - 1 := by omega
      unfold cG cSignificant
      dsimp only
      rw [if_pos hzero, if_neg (show ¬((0 : ℤ) < -4 ∨ ((max p 1 : ℕ) : ℤ) ≤ 0) by omega), htoNat,
        cUnits_zero hzero, if_pos rfl]
      rwa [List.append_nil] at hshape
    · rw [hmag, hvalue, Nat.cast_zero, zero_div, zero_mul, zero_mul, zero_div, sub_zero, abs_zero]
  · have hmax : max p 1 = p := max_eq_left hp
    have hnear := significant_near isNearest_roundEven hp (magnitude_pos hzero)
    rw [cG_eq hzero, hmax]
    unfold gForm gNumber
    simp only [if_true]
    generalize significant roundEven p x.magnitude = s at *
    by_cases hform : s.1 < -4 ∨ p ≤ s.1
    · obtain ⟨l, hshape, hneg, hvalue⟩ := @trimmed_shape (cExponent s.1) s.1 x (p - 1) s.2 (Or.inr rfl)
      rw [if_pos hform]
      refine ⟨l, hshape, hneg, ?_⟩
      have hsame : (s.2 : ℚ) / 10^(p - 1) * 10^s.1 = s.2 * 10^(s.1 + 1 - p) := by
        have hpred := pow_pred hp
        push_cast at hpred
        rw [hpred, div_mul_eq_mul_div, mul_div_assoc, ← zpow_sub₀ (by norm_num)]
        congr 2
        ring
      rw [hvalue, hsame]
      exact hnear
    · obtain ⟨l, hshape, hneg, hvalue⟩ := @trimmed_shape [] 0 x (p - 1 - s.1).toNat s.2 (Or.inl ⟨rfl, rfl⟩)
      rw [List.append_nil] at hshape
      rw [if_neg hform]
      refine ⟨l, hshape, hneg, ?_⟩
      have hsame : (s.2 : ℚ) / 10^(p - 1 - s.1).toNat * 10^(0 : ℤ) = s.2 * 10^(s.1 + 1 - p) := by
        rw [zpow_zero, mul_one, ← zpow_natCast, Int.toNat_of_nonneg (by omega), div_eq_mul_inv, ← zpow_neg]
        congr 2
        ring
      rw [hvalue, hsame]
      exact hnear

end

/-! ## There and back -/

section

variable {s : List Char} {l : Literal} {f g : F64} {guess : F64 → ℤ} {hexFloat : List Char → F64}

/-- The characters that are printed. -/
theorem Shape.chars (h : Shape s l) : ∀ c ∈ s, c.isDigit = true ∨ c = '-' ∨ c = '+' ∨ c = '.' ∨ c = 'e' := by
  obtain ⟨tail, htail, rfl⟩ := h.eq
  intro c hc
  rw [List.mem_append, List.mem_append, List.mem_append] at hc
  obtain ((hc | hc) | hc) | hc := hc
  · cases hneg : l.negative
    · rw [hneg] at hc
      exact absurd hc (by simp)
    · rw [hneg] at hc
      exact Or.inr (Or.inl (List.mem_singleton.mp hc))
  · exact Or.inl (h.whole c hc)
  · unfold pointed at hc
    split_ifs at hc
    · exact absurd hc List.not_mem_nil
    · rw [List.mem_cons] at hc
      obtain rfl | hc := hc
      · simp
      · exact Or.inl (h.fraction c hc)
  · obtain ⟨rfl, -⟩ | rfl := htail
    · exact absurd hc List.not_mem_nil
    · obtain ⟨c', ds, hexp, hsgn, -, hall, -⟩ := cExponent_spec l.exponent
      rw [hexp, List.mem_cons, List.mem_cons] at hc
      rw [List.all_eq_true] at hall
      obtain rfl | rfl | hc := hc
      · simp
      · obtain rfl | rfl := hsgn
        · simp
        · simp
      · exact Or.inl (hall c hc)

/-- None of them is a space or the letter of hexadecimal numbers. -/
theorem Shape.plain (h : Shape s l) : ∀ c ∈ s, isSpace c = false ∧ c ≠ 'x' ∧ c ≠ 'X' := by
  intro c hc
  obtain hdigit | rfl | rfl | rfl | rfl := h.chars c hc
  · refine ⟨?_, ne_of_isDigit hdigit (by decide), ne_of_isDigit hdigit (by decide)⟩
    rw [Char.isDigit_iff_toNat, show '0'.toNat = 48 from rfl, show '9'.toNat = 57 from rfl] at hdigit
    have hspace : c ≠ ' ' := by
      rintro rfl
      exact absurd hdigit (by decide)
    unfold isSpace
    simp [hspace]
    omega
  · decide
  · decide
  · decide
  · decide

theorem Shape.ne_nil (h : Shape s l) : s ≠ [] := by
  obtain ⟨tail, -, rfl⟩ := h.eq
  intro hnil
  have := h.whole_ne
  simp_all

theorem trim_eq (h : ∀ c ∈ s, isSpace c = false) : trim s = s := by
  have hfront : s.dropWhile isSpace = s := by
    cases s with
    | nil => rfl
    | cons c s => exact List.dropWhile_cons_of_neg (by rw [h c List.mem_cons_self]; exact Bool.false_ne_true)
  unfold trim
  rw [hfront, List.rdropWhile_eq_self_iff]
  intro hne
  rw [h _ (List.getLast_mem hne)]
  exact Bool.false_ne_true

theorem mem_of_takeSign {c : Char} (h : c ∈ (takeSign s).2) : c ∈ s := by
  unfold takeSign at h
  split_ifs at h
  · exact List.mem_of_mem_tail h
  · exact List.mem_of_mem_tail h
  · exact h

theorem hexBody_eq_none (h : ∀ c ∈ s, c ≠ 'x' ∧ c ≠ 'X') : hexBody s = none := by
  have hno : ∀ c, (takeSign s).2.tail.head? = some c → c ≠ 'x' ∧ c ≠ 'X' := fun c hc =>
    h c (mem_of_takeSign (List.mem_of_mem_tail (List.mem_of_mem_head? hc)))
  unfold hexBody
  apply if_neg
  rintro ⟨-, hx | hx⟩
  · exact (hno _ hx).1 rfl
  · exact (hno _ hx).2 rfl

/-- Such a text looks like an integer when it has no fraction and no exponent. -/
theorem Shape.isIntegerText (h : Shape s l) :
    isIntegerText s = true ∧ isSignedDigits s = true ∧ s = (if l.negative then ['-'] else []) ++ l.whole ∧
        l.exponent = 0 ∧ l.fraction = [] ∨
      isIntegerText s = false ∧ isSignedDigits s = false := by
  have hwhole := h.whole
  obtain ⟨tail, htail, hs⟩ := h.eq
  have hsign : takeSign s = (l.negative, l.whole ++ (pointed l.fraction ++ tail)) := by
    rw [hs, List.append_assoc _ (pointed l.fraction)]
    exact takeSign_digits h.whole_ne h.whole
  have htext : Format.isIntegerText s = isSignedDigits s := by
    obtain ⟨c, cs, hcs⟩ := List.exists_cons_of_ne_nil h.whole_ne
    have hc : c.isDigit = true := hwhole c (by rw [hcs]; exact List.mem_cons_self)
    have hminus : c ≠ '-' := ne_of_isDigit hc (by decide)
    unfold Format.isIntegerText isSignedDigits
    rw [hsign, hs, hcs]
    cases l.negative
    · simp [hminus]
    · simp
  by_cases hall : pointed l.fraction ++ tail = []
  · obtain ⟨hpoint, hnil⟩ := List.append_eq_nil_iff.mp hall
    have hfraction : l.fraction = [] := by
      by_contra hne
      unfold pointed at hpoint
      rw [if_neg hne] at hpoint
      exact List.cons_ne_nil _ _ hpoint
    have hexp : l.exponent = 0 := by
      obtain ⟨-, hzero⟩ | hexp := htail
      · exact hzero
      · rw [hnil] at hexp
        exact absurd hexp.symm (List.cons_ne_nil _ _)
    have hdigits : isSignedDigits s = true := by
      unfold isSignedDigits
      rw [hsign, hall, List.append_nil, Bool.and_eq_true, decide_eq_true_iff, List.all_eq_true]
      exact ⟨h.whole_ne, hwhole⟩
    refine Or.inl ⟨htext.trans hdigits, hdigits, ?_, hexp, hfraction⟩
    rw [hs, List.append_assoc _ (pointed l.fraction), hall, List.append_nil]
  · -- a point or the letter of the exponent follows the digits
    have hno : isSignedDigits s = false := by
      rw [Bool.eq_false_iff]
      intro hdigits
      unfold isSignedDigits at hdigits
      rw [hsign, Bool.and_eq_true, List.all_eq_true] at hdigits
      unfold pointed at hall hdigits
      by_cases hfraction : l.fraction = []
      · rw [if_pos hfraction, List.nil_append] at hall hdigits
        obtain ⟨rfl, -⟩ | rfl := htail
        · exact hall rfl
        · have := hdigits.2 'e' (List.mem_append_right _ List.mem_cons_self)
          exact absurd this (by decide)
      · rw [if_neg hfraction] at hdigits
        have := hdigits.2 '.' (List.mem_append_right _ List.mem_cons_self)
        exact absurd this (by decide)
    exact Or.inr ⟨htext.trans hno, hno⟩

/-- With a zero decimal a text does not look like an integer, and has the value that it had. -/
theorem Shape.addZero (h : Shape s l) : ∃ l', Shape (addZero s) l' ∧ l'.negative = l.negative ∧ l'.value = l.value ∧
    Format.isIntegerText (addZero s) = false := by
  obtain ⟨hint, -, hs, hexp, hfraction⟩ | ⟨hint, -⟩ := h.isIntegerText
  · have hshape : Shape (s ++ ['.', '0']) ⟨l.negative, l.whole, ['0'], 0⟩ := by
      refine ⟨h.whole_ne, h.whole, ?_, [], Or.inl ⟨rfl, rfl⟩, ?_⟩
      · intro c hc
        rw [List.mem_singleton.mp hc]
        rfl
      · rw [hs, List.append_nil]
        rfl
    unfold Format.addZero
    rw [if_pos hint]
    refine ⟨_, hshape, rfl, ?_, ?_⟩
    · unfold Literal.value
      rw [hfraction, hexp, Nat.ofDigitChars_append, List.append_nil]
      rw [show Nat.ofDigitChars 10 ['0'] (Nat.ofDigitChars 10 l.whole 0) = 10 * Nat.ofDigitChars 10 l.whole 0 from rfl]
      push_cast
      rw [List.length_nil, List.length_singleton, Nat.cast_zero, Nat.cast_one, sub_zero, zero_sub,
        zpow_neg_one, zpow_zero]
      ring
    · obtain ⟨-, -, -, -, hnil⟩ | ⟨hno, -⟩ := hshape.isIntegerText
      · exact absurd hnil (by simp)
      · exact hno
  · unfold Format.addZero
    rw [hint, if_neg Bool.false_ne_true]
    exact ⟨l, h, rfl, rfl, hint⟩

/-- A text that does not look like an integer is read as the float of its value. -/
theorem Shape.parseLuaNumber (h : Shape s l) (hint : Format.isIntegerText s = false) :
    parseLuaNumber hexFloat s = some (.float (F64.rounded l.negative l.value)) := by
  have hhex := hexBody_eq_none (fun c hc => (h.plain c hc).2)
  have hsigned : isSignedDigits s = false := by
    obtain ⟨hint', -⟩ | ⟨-, hsigned⟩ := h.isIntegerText
    · rw [hint] at hint'
      exact absurd hint' Bool.false_ne_true
    · exact hsigned
  unfold Format.parseLuaNumber matchHex isHexFloat
  rw [trim_eq (fun c hc => (h.plain c hc).1), if_neg h.ne_nil, hhex]
  dsimp only [Option.filter_none]
  rw [hsigned, if_neg Bool.false_ne_true, if_neg Bool.false_ne_true, h.number]
  rfl

theorem eq_self (hf : f.expField ≠ 2047) : f.eq f = true := by
  have hnan : f.isNaN = false := by
    unfold F64.isNaN
    simp [hf]
  unfold F64.eq
  simp [hnan]

/-- A text that is as near as its digits are gives the float back when it gives an equal one: a zero keeps its
sign. -/
theorem readsBack_iff (hf : f.expField ≠ 2047) (h : Shape s l) (hneg : l.negative = f.negative)
    {p : ℕ} (hnear : |f.magnitude - l.value| ≤ f.magnitude * 10^(1 - (p : ℤ)) / 2) :
    readsBack s f = true ↔ number s = some f := by
  unfold readsBack
  rw [h.number]
  rw [Option.some_inj]
  constructor
  · intro heq
    by_cases hzero : f.isZero = true
    · have hmag := F64.isZero_iff_magnitude.mp hzero
      rw [hmag, zero_mul, zero_div] at hnear
      rw [hneg]
      apply F64.rounded_of_near hf
      rw [hmag, zero_mul, zero_div, abs_sub_comm]
      exact hnear
    · unfold F64.eq at heq
      simp only [Bool.and_eq_true, Bool.or_eq_true, beq_iff_eq] at heq
      obtain ⟨-, hbits | ⟨-, hz⟩⟩ := heq
      · calc F64.rounded l.negative l.value = ⟨(F64.rounded l.negative l.value).bits⟩ := rfl
          _ = ⟨f.bits⟩ := by rw [hbits]
          _ = f := rfl
      · exact absurd hz hzero
  · intro heq
    rw [heq]
    exact eq_self hf

/-- Up to 17 digits the host prints what C prints. -/
theorem cFormatG_short {p : ℕ} (hf : f.expField ≠ 2047) (hp : 1 ≤ p) (hp' : p ≤ 17) :
    cFormatG guess f p true = some (cG f p true) :=
  (cFormatG_iff hf (by omega)).mpr (not_digitsMiss f (by omega))

/-- `tostring` of a finite float, in terms of what C prints. -/
theorem formatFloat_eq (hf : f.expField ≠ 2047) :
    formatFloat guess f = some (addZero (if number (cG f 15 true) = some f then cG f 15 true else cG f 17 true)) := by
  have hnan : ¬f.isNaN = true := by
    unfold F64.isNaN
    simp [hf]
  obtain ⟨l, hshape, hneg, hnear⟩ := cG_shape f (by norm_num : 1 ≤ 15)
  have hback := readsBack_iff hf hshape hneg hnear
  unfold formatFloat
  rw [if_neg hnan, if_neg hf, cFormatG_short hf (by norm_num) (by norm_num),
    cFormatG_short hf (by norm_num) (by norm_num)]
  by_cases h : readsBack (cG f 15 true) f = true
  · rw [if_pos (hback.mp h)]
    simp only [Option.bind_eq_bind, Option.bind_some, if_pos h]
  · rw [if_neg (fun h' => h (hback.mpr h'))]
    simp only [Option.bind_eq_bind, Option.bind_some, if_neg h]

end

/-- The text of a finite float does not look like an integer, has 17 digits exactly when 15 do not give the float
back, and is read as the float, bit for bit. -/
theorem tostring_tonumber (guess : F64 → ℤ) (hexFloat : List Char → F64) (f : F64) (hf : f.expField ≠ 2047) :
    ∃ s, formatFloat guess f = some s ∧ parseLuaNumber hexFloat s = some (.float f) ∧ isIntegerText s = false ∧
      s = addZero (if number (cG f 15 true) = some f then cG f 15 true else cG f 17 true) := by
  refine ⟨_, formatFloat_eq hf, ?_, ?_, rfl⟩
  · split_ifs with hback
    · obtain ⟨l, hshape, -, -⟩ := cG_shape f (by norm_num : 1 ≤ 15)
      obtain ⟨l', hshape', hneg, hvalue, hint⟩ := hshape.addZero
      rw [hshape.number, Option.some_inj] at hback
      rw [hshape'.parseLuaNumber hint, hneg, hvalue, hback]
    · obtain ⟨l, hshape, hneg, hnear⟩ := cG_shape f (by norm_num : 1 ≤ 17)
      obtain ⟨l', hshape', hneg', hvalue, hint⟩ := hshape.addZero
      rw [hshape'.parseLuaNumber hint, hneg', hneg, hvalue]
      rw [abs_sub_comm, show (1 : ℤ) - ((17 : ℕ) : ℤ) = -16 by norm_num] at hnear
      rw [F64.rounded_of_near hf hnear]
  · split_ifs
    · obtain ⟨l, hshape, -, -⟩ := cG_shape f (by norm_num : 1 ≤ 15)
      obtain ⟨l', -, -, -, hint⟩ := hshape.addZero
      exact hint
    · obtain ⟨l, hshape, -, -⟩ := cG_shape f (by norm_num : 1 ≤ 17)
      obtain ⟨l', -, -, -, hint⟩ := hshape.addZero
      exact hint

/-- The double 0.1. -/
theorem tostring_tonumber_tenth : ∃ s, formatFloat (fun _ => -1) ⟨0x3FB999999999999A⟩ = some s ∧
    parseLuaNumber (fun _ => ⟨0⟩) s = some (.float ⟨0x3FB999999999999A⟩) ∧ isIntegerText s = false ∧
      s = addZero (if number (cG ⟨0x3FB999999999999A⟩ 15 true) = some ⟨0x3FB999999999999A⟩
        then cG ⟨0x3FB999999999999A⟩ 15 true else cG ⟨0x3FB999999999999A⟩ 17 true) :=
  tostring_tonumber _ _ _ (by decide)

end Lua2wasm.Format
