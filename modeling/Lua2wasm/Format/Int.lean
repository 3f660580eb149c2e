import Lua2wasm.Format.Builder
import Lua2wasm.Strings.Digits

/-!
# Integers in `string.format`

`$fmt_int` of `runtime/prelude/string.wat`, which renders the conversions `d`, `i`, `u`, `o`, `x` and `X`, with
the helpers that it shares with `$fmt_fixed`. The digits are written into a scratch array of 32 bytes, least
significant first, and appended from there.

`cPrintf` is what C prints for a conversion with the length `ll`, written from the rules of C: digits, then the
precision as a minimum number of them, then the alternate form, then sign, prefix and padding.
`fmtInt_spec` says that `$fmt_int` appends exactly that for every directive that `string.format` admits.
-/

namespace Lua2wasm.Format

open Table (Fault setAt)
open Pack (orTrap ok_bind)

/-- The flags of a directive: bits 1, 2, 4, 8 and 16. -/
structure Flags where
  /-- `-` -/
  left : Bool
  /-- `+` -/
  plus : Bool
  /-- The space. -/
  space : Bool
  /-- `#` -/
  alt : Bool
  /-- `0` -/
  zero : Bool
  deriving DecidableEq, Repr

/-- The integer conversions. -/
inductive IntConv
  | d | i | u | o | x | X
  deriving DecidableEq, Repr

namespace IntConv

/-- The argument `$signed` of `$fmt_int`. -/
def signed : IntConv → Bool
  | d | i => true
  | u | o | x | X => false

/-- The argument `$base`. -/
def base : IntConv → UInt64
  | d | i | u => 10
  | o => 8
  | x | X => 16

/-- The argument `$upper`. -/
def upper : IntConv → Bool
  | X => true
  | _ => false

end IntConv

/-- `$fmt_allowed_flags` of the integer conversions: 23, 17 and 25. -/
def fmtAllowedFlags : IntConv → Flags
  | .d | .i => ⟨true, true, true, false, true⟩
  | .u => ⟨true, false, false, false, true⟩
  | .o | .x | .X => ⟨true, false, false, true, true⟩

/-- No flag is set that is not allowed. -/
def Flags.within (f allowed : Flags) : Bool :=
  (!f.left || allowed.left) && (!f.plus || allowed.plus) && (!f.space || allowed.space) &&
    (!f.alt || allowed.alt) && (!f.zero || allowed.zero)

/-- A directive for an integer, as `string.format` admits it. With two digits for the width and two for the
precision, none of the sums in `$fmt_int` leaves 32 bits. -/
structure IntDirective where
  conv : IntConv
  flags : Flags
  /-- The width, 0 when there is none. -/
  width : ℕ
  /-- The precision, -1 in the source when there is none. -/
  prec : Option ℕ
  flags_within : flags.within (fmtAllowedFlags conv) = true
  width_lt : width < 100
  prec_lt : ∀ p, prec = some p → p < 100

/-- The argument `$prec`. -/
def IntDirective.precArg (dir : IntDirective) : ℤ :=
  match dir.prec with
  | some p => p
  | none => -1

/-- The conversion of a letter. -/
def IntConv.ofByte (c : UInt8) : Option IntConv :=
  if c = 100 then some d else if c = 105 then some i else if c = 117 then some u else if c = 111 then some o
  else if c = 120 then some x else if c = 88 then some X else none

/-- `$g_fmt_digits`, with any bytes in it. -/
abbrev Scratch := { tmp : List UInt8 // tmp.length = 32 }

/-- `$fmt_fill`. -/
def fmtFill (b : Builder) (byte : UInt8) : ℕ → Except Fault Builder
  | 0 => .ok b
  | count + 1 => do
    let b ← b.append [byte]
    fmtFill b byte count

/-- A digit as a character. -/
def digitByte (upper : Bool) (d : UInt64) : UInt8 :=
  if d < 10 then d.toUInt8 + 48 else d.toUInt8 + if upper then 55 else 87

/-- The loop that takes the digits of a number, the least significant first. -/
def writeDigits (base : UInt64) (upper : Bool) : ℕ → List UInt8 → ℕ → UInt64 → Except Fault (List UInt8 × ℕ)
  | 0, _, _, _ => .error .stuck
  | fuel + 1, tmp, n, mag => do
    let tmp ← orTrap (setAt tmp n (digitByte upper (mag % base)))
    if mag / base ≠ 0 then writeDigits base upper fuel tmp (n + 1) (mag / base) else .ok (tmp, n + 1)

/-- The loop that appends `n` digits, from position `stop + n - 1` down to `stop`. -/
def putDigits (tmp : List UInt8) (stop : ℕ) : ℕ → Builder → Except Fault Builder
  | 0, b => .ok b
  | n + 1, b => do
    let c ← orTrap tmp[stop + n]?
    let b ← b.append [c]
    putDigits tmp stop n b

/-- The zeros before the digits. `#` forces a leading zero for octal digits, unless there is one. -/
def leadingZeros (tmp : List UInt8) (base : UInt64) (flags : Flags) (prec : ℤ) (ndig : ℕ) : Except Fault ℕ := do
  let zeros := (prec - ndig).toNat
  if flags.alt && base = 8 && zeros = 0 then
    let missing ← if ndig = 0 then .ok true else do
      let c ← orTrap tmp[ndig - 1]?
      .ok (c ≠ 48)
    .ok (if missing then 1 else zeros)
  else .ok zeros

/-- The sign, 0 for none. -/
def signByte (neg signed : Bool) (flags : Flags) : UInt8 :=
  if neg then 45 else if signed && flags.plus then 43 else if signed && flags.space then 32 else 0

/-- `$fmt_int`. -/
def fmtInt (b : Builder) (scratch : Scratch) (v : Int64) (signed : Bool) (base : UInt64) (upper : Bool)
    (flags : Flags) (width : ℕ) (prec : ℤ) : Except Fault Builder := do
  let neg := signed && v < 0
  let mag := if neg then (0 - v).toUInt64 else v.toUInt64
  let (tmp, ndig) ← (if prec = 0 ∧ mag = 0 then .ok (scratch.val, 0)
    else writeDigits base upper 64 scratch.val 0 mag)
  let zeros ← leadingZeros tmp base flags prec ndig
  let isPrefixed := flags.alt && base = 16 && v ≠ 0
  let signch := signByte neg signed flags
  let body := (if signch ≠ 0 then 1 else 0) + (if isPrefixed then 2 else 0) + (zeros + ndig)
  let pad := width - body
  let zpad := flags.zero && prec < 0
  let b ← (if !flags.left && !zpad then fmtFill b 32 pad else .ok b)
  let b ← (if signch ≠ 0 then b.append [signch] else .ok b)
  let b ← (if isPrefixed then b.append [48] >>= fun b => b.append [if upper then 88 else 120] else .ok b)
  let b ← (if !flags.left && zpad then fmtFill b 48 pad else .ok b)
  let b ← fmtFill b 48 zeros
  let b ← putDigits tmp 0 ndig b
  if flags.left then fmtFill b 32 pad else .ok b

/-- `$fmt_int` with the arguments that `string.format` gives it for a directive. -/
def fmtIntDirective (b : Builder) (scratch : Scratch) (dir : IntDirective) (v : Int64) : Except Fault Builder :=
  fmtInt b scratch v dir.conv.signed dir.conv.base dir.conv.upper dir.flags dir.width dir.precArg

/-! ## What C prints -/

/-- The number that a conversion prints: the magnitude of a signed one, or the 64 bits read as unsigned. -/
def cMagnitude (conv : IntConv) (v : Int64) : ℕ := if conv.signed then v.toInt.natAbs else v.toUInt64.toNat

/-- A number in some base, in the case of `x` or of `X`. -/
def numeral (base : ℕ) (upper : Bool) (n : ℕ) : List Char :=
  (Nat.toDigits base n).map fun c => if upper then c.toUpper else c

/-- The digits that are printed. Zero with precision 0 has none; the precision is the minimum number of digits;
`#` raises it for `o` so that the first digit is a zero. -/
def cDigits (dir : IntDirective) (v : Int64) : List Char :=
  let n := cMagnitude dir.conv v
  let plain := if n = 0 ∧ dir.prec = some 0 then [] else numeral dir.conv.base.toNat dir.conv.upper n
  let digits := List.replicate (dir.prec.getD 1 - plain.length) '0' ++ plain
  if dir.flags.alt ∧ dir.conv = .o ∧ digits.head? ≠ some '0' then '0' :: digits else digits

/-- The sign. Only a signed conversion has one; `+` goes before the space. -/
def cSign (dir : IntDirective) (v : Int64) : List Char :=
  if dir.conv.signed then
    if v.toInt < 0 then ['-'] else if dir.flags.plus then ['+'] else if dir.flags.space then [' '] else []
  else []

/-- `0x` or `0X` in front of a number that is not zero. -/
def cPrefix (dir : IntDirective) (v : Int64) : List Char :=
  if dir.flags.alt ∧ v.toInt ≠ 0 then
    match dir.conv with
    | .x => ['0', 'x']
    | .X => ['0', 'X']
    | _ => []
  else []

/-- What C prints for a directive with the length `ll`. A result shorter than the width is filled up: with spaces
behind it for `-`, else with zeros between the prefix and the digits for `0`, unless there is a precision, else
with spaces before it. -/
def cPrintf (dir : IntDirective) (v : Int64) : List Char :=
  let front := cSign dir v ++ cPrefix dir v
  let digits := cDigits dir v
  let pad := dir.width - (front ++ digits).length
  if dir.flags.left then front ++ digits ++ List.replicate pad ' '
  else if dir.flags.zero ∧ dir.prec = none then front ++ List.replicate pad '0' ++ digits
  else List.replicate pad ' ' ++ front ++ digits

/-- Characters as bytes. -/
def ascii (cs : List Char) : List UInt8 := cs.map fun c => c.toNat.toUInt8

/-! ## Appending -/

section

variable {b : Builder}

theorem fmtFill_eq (b : Builder) (byte : UInt8) (n : ℕ) : fmtFill b byte n = b.append (List.replicate n byte) := by
  induction n generalizing b with
  | zero => exact Builder.append_nil.symm
  | succ n ih =>
    calc fmtFill b byte (n + 1) = (b.append [byte] >>= fun b' => fmtFill b' byte n) := rfl
      _ = (b.append [byte] >>= fun b' => b'.append (List.replicate n byte)) := by simp only [ih]
      _ = b.append ([byte] ++ List.replicate n byte) := Builder.append_append
      _ = b.append (List.replicate (n + 1) byte) := by rw [List.replicate_succ, List.singleton_append]

/-- The digits come out in the order opposite to the one they were written in. -/
theorem putDigits_eq {tmp : List UInt8} {stop n : ℕ} (b : Builder) (h : stop + n ≤ tmp.length) :
    putDigits tmp stop n b = b.append ((tmp.drop stop).take n).reverse := by
  induction n generalizing b with
  | zero =>
    rw [List.take_zero, List.reverse_nil]
    exact Builder.append_nil.symm
  | succ n ih =>
    have hget : tmp[stop + n]? = some tmp[stop + n] := List.getElem?_eq_getElem (by omega)
    have htake : (tmp.drop stop).take (n + 1) = (tmp.drop stop).take n ++ [tmp[stop + n]] := by
      rw [List.take_add_one, List.getElem?_drop, hget]
      rfl
    unfold putDigits
    rw [hget, orTrap, ok_bind, htake, List.reverse_append, List.reverse_singleton, ← Builder.append_append]
    congr 1
    funext b'
    exact ih b' (by omega)

/-- A piece that is appended under a condition. -/
theorem append_if {c : Prop} [Decidable c] {x : List UInt8} :
    (if c then b.append x else .ok b) = b.append (if c then x else []) := by
  split_ifs
  · rfl
  · exact Builder.append_nil.symm

end

/-! ## The digits -/

theorem digitByte_eq (upper : Bool) {d : UInt64} (hd : d.toNat < 16) :
    digitByte upper d =
      (if upper then (Nat.digitChar d.toNat).toUpper else Nat.digitChar d.toNat).toNat.toUInt8 := by
  have hall : ∀ upper : Bool, ∀ k : Fin 16, digitByte upper (UInt64.ofNat k.val) =
      (if upper then (Nat.digitChar k.val).toUpper else Nat.digitChar k.val).toNat.toUInt8 := by decide
  have := hall upper ⟨d.toNat, hd⟩
  rwa [UInt64.ofNat_toNat] at this

section

variable {base : UInt64} {upper : Bool}

theorem length_numeral (base : ℕ) (upper : Bool) (n : ℕ) :
    (numeral base upper n).length = (Nat.toDigits base n).length := List.length_map _

theorem length_ascii (cs : List Char) : (ascii cs).length = cs.length := List.length_map _

/-- A number of 64 bits has at most 22 digits. -/
theorem length_numeral_le (hbase : 8 ≤ base.toNat) (u : UInt64) : (numeral base.toNat upper u.toNat).length ≤ 22 := by
  rw [length_numeral, Nat.length_toDigits_le_iff (by omega) (by norm_num)]
  calc u.toNat < 2^64 := u.toNat_lt
    _ ≤ 8^22 := by norm_num
    _ ≤ base.toNat^22 := Nat.pow_le_pow_left hbase 22

variable (upper) in
theorem numeral_of_lt {n : ℕ} (h : n < base.toNat) :
    numeral base.toNat upper n = [if upper then (Nat.digitChar n).toUpper else Nat.digitChar n] := by
  unfold numeral
  rw [Nat.toDigits_of_lt_base h]
  rfl

variable (upper) in
theorem numeral_of_le {n : ℕ} (hbase : 1 < base.toNat) (h : base.toNat ≤ n) :
    numeral base.toNat upper n = numeral base.toNat upper (n / base.toNat) ++
      [if upper then (Nat.digitChar (n % base.toNat)).toUpper else Nat.digitChar (n % base.toNat)] := by
  unfold numeral
  rw [Nat.toDigits_of_base_le hbase h, List.map_append]
  rfl

variable (upper) in
/-- The loop leaves the digits behind what was there, in reverse. -/
theorem writeDigits_spec (hlo : 8 ≤ base.toNat) (hhi : base.toNat ≤ 16) :
    ∀ (fuel : ℕ) (tmp : List UInt8) (n : ℕ) (u : UInt64), u.toNat < base.toNat^fuel →
      n + (numeral base.toNat upper u.toNat).length ≤ tmp.length →
      0 < fuel → ∃ tmp', writeDigits base upper fuel tmp n u =
          .ok (tmp', n + (numeral base.toNat upper u.toNat).length) ∧ tmp'.length = tmp.length ∧
        tmp'.take (n + (numeral base.toNat upper u.toNat).length) =
          tmp.take n ++ (ascii (numeral base.toNat upper u.toNat)).reverse := by
  intro fuel
  induction fuel with
  | zero =>
    intro tmp n u _ _ hfuel
    exact absurd hfuel (lt_irrefl 0)
  | succ fuel ih =>
    intro tmp n u hu hroom _
    have hpos : 0 < (numeral base.toNat upper u.toNat).length := by
      rw [length_numeral]
      exact Nat.length_toDigits_pos
    have hmod : (u % base).toNat = u.toNat % base.toNat := UInt64.toNat_mod u base
    have hdiv : (u / base).toNat = u.toNat / base.toNat := UInt64.toNat_div u base
    have hdigit := digitByte_eq upper (d := u % base) (by rw [hmod]; exact (Nat.mod_lt _ (by omega)).trans_le hhi)
    have hset : setAt tmp n (digitByte upper (u % base)) = some (tmp.set n (digitByte upper (u % base))) :=
      Table.setAt_of_lt (by omega)
    have htake : (tmp.set n (digitByte upper (u % base))).take (n + 1) =
        tmp.take n ++ [digitByte upper (u % base)] := by
      rw [List.take_add_one, List.take_set_of_le le_rfl, List.getElem?_set_self (by omega)]
      rfl
    have hzero : u / base ≠ 0 ↔ base.toNat ≤ u.toNat := by
      rw [Ne, ← UInt64.toNat_inj, hdiv]
      change ¬u.toNat / base.toNat = 0 ↔ _
      rw [Nat.div_eq_zero_iff]
      omega
    unfold writeDigits
    rw [hset, orTrap, ok_bind]
    -- more than one digit is left, or this one is the first of the numeral
    by_cases hmore : base.toNat ≤ u.toNat
    · have hsplit := numeral_of_le upper (show 1 < base.toNat by omega) hmore
      have hlen : (numeral base.toNat upper u.toNat).length =
          (numeral base.toNat upper (u / base).toNat).length + 1 := by
        rw [hsplit, hdiv, List.length_append, List.length_singleton]
      have hfuel : 0 < fuel := by
        by_contra h
        rw [Nat.eq_zero_of_not_pos h, Nat.zero_add, pow_one] at hu
        omega
      have hlt : (u / base).toNat < base.toNat^fuel := by
        rw [hdiv]
        apply Nat.div_lt_of_lt_mul
        rwa [Nat.mul_comm, ← Nat.pow_succ]
      obtain ⟨tmp', hrun, hlen', htake'⟩ := ih (tmp.set n (digitByte upper (u % base))) (n + 1) (u / base) hlt
        (by rw [List.length_set]; omega) hfuel
      rw [if_pos (hzero.mpr hmore), hrun, hlen]
      refine ⟨tmp', ?_, ?_, ?_⟩
      · rw [Nat.add_assoc, Nat.add_comm 1]
      · rw [hlen', List.length_set]
      · rw [show n + ((numeral base.toNat upper (u / base).toNat).length + 1) =
            n + 1 + (numeral base.toNat upper (u / base).toNat).length by omega, htake', htake, hsplit, hdigit, hdiv,
          hmod]
        unfold ascii
        rw [List.map_append, List.reverse_append, List.append_assoc]
        rfl
    · have hone := numeral_of_lt upper (show u.toNat < base.toNat by omega)
      rw [if_neg (fun h => hmore (hzero.mp h)), hone, List.length_singleton]
      refine ⟨_, rfl, List.length_set, ?_⟩
      rw [htake, hdigit, hmod, Nat.mod_eq_of_lt (by omega)]
      rfl

end

/-! ## One directive -/

section

variable {dir : IntDirective} {v : Int64}

/-- The digits of the number without the precision. -/
def plainDigits (dir : IntDirective) (v : Int64) : List Char :=
  if cMagnitude dir.conv v = 0 ∧ dir.prec = some 0 then []
  else numeral dir.conv.base.toNat dir.conv.upper (cMagnitude dir.conv v)

theorem base_bounds (conv : IntConv) : 8 ≤ conv.base.toNat ∧ conv.base.toNat ≤ 16 := by
  cases conv <;> decide

theorem precArg_eq_zero : dir.precArg = 0 ↔ dir.prec = some 0 := by
  unfold IntDirective.precArg
  cases dir.prec with
  | none => simp
  | some p => simp

theorem precArg_neg : dir.precArg < 0 ↔ dir.prec = none := by
  unfold IntDirective.precArg
  cases dir.prec with
  | none => simp
  | some p => simp

theorem lt_zero_iff (v : Int64) : v < 0 ↔ v.toInt < 0 := Int64.lt_iff_toInt_lt

/-- The number whose digits are taken. -/
theorem magnitude_eq (conv : IntConv) (v : Int64) :
    (if (conv.signed && decide (v < 0)) = true then (0 - v).toUInt64 else v.toUInt64).toNat = cMagnitude conv v := by
  unfold cMagnitude
  cases conv.signed
  · rfl
  · have h := Strings.magnitude_toNat v
    unfold Strings.magnitude at h
    simpa using h

theorem plainDigits_le (dir : IntDirective) (v : Int64) : (plainDigits dir v).length ≤ 22 := by
  have hmag := magnitude_eq dir.conv v
  unfold plainDigits
  split_ifs
  · norm_num
  · rw [← hmag]
    exact length_numeral_le (base_bounds dir.conv).1 _

/-- The scratch array holds the digits, in reverse. -/
structure HasDigits (tmp : List UInt8) (digits : List Char) : Prop where
  le : digits.length ≤ tmp.length
  take_eq : tmp.take digits.length = (ascii digits).reverse

theorem digits_spec (scratch : Scratch) (dir : IntDirective) (v : Int64) {mag : UInt64}
    (hmag : mag.toNat = cMagnitude dir.conv v) :
    ∃ tmp, (if dir.precArg = 0 ∧ mag = 0 then Except.ok (scratch.val, 0)
        else writeDigits dir.conv.base dir.conv.upper 64 scratch.val 0 mag) =
        .ok (tmp, (plainDigits dir v).length) ∧ HasDigits tmp (plainDigits dir v) := by
  have hzero : mag = 0 ↔ cMagnitude dir.conv v = 0 := by
    rw [← hmag, ← UInt64.toNat_inj]
    rfl
  have hcond : dir.precArg = 0 ∧ mag = 0 ↔ cMagnitude dir.conv v = 0 ∧ dir.prec = some 0 := by
    rw [hzero, precArg_eq_zero, and_comm]
  have hle := plainDigits_le dir v
  unfold plainDigits at hle ⊢
  by_cases hnone : cMagnitude dir.conv v = 0 ∧ dir.prec = some 0
  · rw [if_pos (hcond.mpr hnone), if_pos hnone]
    exact ⟨scratch.val, rfl, Nat.zero_le _, rfl⟩
  · rw [if_neg hnone] at hle
    rw [if_neg (fun h => hnone (hcond.mp h)), if_neg hnone]
    obtain ⟨hlo, hhi⟩ := base_bounds dir.conv
    have hfuel : mag.toNat < dir.conv.base.toNat^64 := by
      calc mag.toNat < 2^64 := mag.toNat_lt
        _ ≤ dir.conv.base.toNat^64 := Nat.pow_le_pow_left (by omega) 64
    rw [← hmag] at hle ⊢
    obtain ⟨tmp, hrun, hlen, htake⟩ := writeDigits_spec dir.conv.upper hlo hhi 64 scratch.val 0 mag hfuel
      (by rw [scratch.property]; omega) (by norm_num)
    rw [Nat.zero_add] at hrun htake
    refine ⟨tmp, hrun, ?_, ?_⟩
    · rw [hlen, scratch.property]
      omega
    · rw [htake]
      rfl

/-- In octal, a digit whose byte is that of `0` is `0`. -/
theorem octal_byte {c : Char} {n : ℕ} (h : c ∈ Nat.toDigits 8 n) : c.toNat.toUInt8 = 48 ↔ c = '0' := by
  have hdigit := Nat.isDigit_of_mem_toDigits (by norm_num) (by norm_num) h
  rw [Char.isDigit_iff_toNat, show '0'.toNat = 48 from rfl, show '9'.toNat = 57 from rfl] at hdigit
  constructor
  · intro heq
    have hnat : c.toNat % 256 = 48 := by
      have := congrArg UInt8.toNat heq
      simpa using this
    apply Char.toNat_inj.mp
    change c.toNat = 48
    omega
  · rintro rfl
    rfl

theorem leadingZeros_spec {tmp : List UInt8} (h : HasDigits tmp (plainDigits dir v)) :
    ∃ z, leadingZeros tmp dir.conv.base dir.flags dir.precArg (plainDigits dir v).length = .ok z ∧
      cDigits dir v = List.replicate z '0' ++ plainDigits dir v := by
  have hzeros : (dir.precArg - ((plainDigits dir v).length : ℕ)).toNat =
      dir.prec.getD 1 - (plainDigits dir v).length := by
    unfold IntDirective.precArg
    cases hp : dir.prec with
    | some p =>
      change ((p : ℤ) - _).toNat = p - _
      omega
    | none =>
      -- without a precision there is a digit
      have hpos : 0 < (plainDigits dir v).length := by
        unfold plainDigits
        rw [if_neg (by rw [hp]; simp), length_numeral]
        exact Nat.length_toDigits_pos
      change ((-1 : ℤ) - _).toNat = 1 - _
      omega
  have hbase : dir.conv.base = 8 ↔ dir.conv = .o := by
    cases dir.conv <;> decide
  have hspec : cDigits dir v =
      if dir.flags.alt ∧ dir.conv = .o ∧
          (List.replicate (dir.prec.getD 1 - (plainDigits dir v).length) '0' ++ plainDigits dir v).head? ≠ some '0'
      then '0' :: (List.replicate (dir.prec.getD 1 - (plainDigits dir v).length) '0' ++ plainDigits dir v)
      else List.replicate (dir.prec.getD 1 - (plainDigits dir v).length) '0' ++ plainDigits dir v := rfl
  unfold leadingZeros
  rw [hzeros, hspec]
  generalize dir.prec.getD 1 - (plainDigits dir v).length = k
  dsimp only
  by_cases halt : (dir.flags.alt && decide (dir.conv.base = 8) && decide (k = 0)) = true
  · rw [if_pos halt]
    simp only [Bool.and_eq_true, decide_eq_true_eq] at halt
    obtain ⟨⟨ha, hb⟩, rfl⟩ := halt
    have ho := hbase.mp hb
    rw [List.replicate_zero, List.nil_append]
    cases hdigits : plainDigits dir v with
    | nil =>
      exact ⟨1, rfl, if_pos ⟨ha, ho, by simp⟩⟩
    | cons c cs =>
      rw [hdigits] at h
      have hmem : c ∈ Nat.toDigits 8 (cMagnitude dir.conv v) := by
        have hc : c ∈ plainDigits dir v := by
          rw [hdigits]
          exact List.mem_cons_self
        unfold plainDigits at hc
        split_ifs at hc
        · cases hc
        · rw [ho] at hc ⊢
          unfold numeral at hc
          rw [List.mem_map] at hc
          obtain ⟨c', hc', rfl⟩ := hc
          exact hc'
      have hlast : tmp[cs.length]? = some c.toNat.toUInt8 := by
        have htake := h.take_eq
        have hget : (tmp.take (c :: cs).length)[cs.length]? = some c.toNat.toUInt8 := by
          rw [htake]
          unfold ascii
          rw [List.map_cons, List.reverse_cons, List.getElem?_append_right (by simp)]
          simp
        rw [List.getElem?_take] at hget
        rw [if_pos (by rw [List.length_cons]; omega)] at hget
        exact hget
      have hsub : (c :: cs).length - 1 = cs.length := by rw [List.length_cons, Nat.add_sub_cancel]
      rw [if_neg (by rw [List.length_cons]; omega), hsub, hlast, orTrap, ok_bind, List.head?_cons]
      have hbyte := octal_byte hmem
      by_cases hzero : c = '0'
      · rw [if_neg (by simp [hzero])]
        refine ⟨0, ?_, rfl⟩
        rw [ok_bind, if_neg (by simpa using hbyte.mpr hzero)]
      · rw [if_pos ⟨ha, ho, by simpa using hzero⟩]
        refine ⟨1, ?_, rfl⟩
        rw [ok_bind, if_pos (by simpa using fun h => hzero (hbyte.mp h))]
  · rw [if_neg halt]
    refine ⟨k, rfl, if_neg ?_⟩
    rintro ⟨ha, ho, hhead⟩
    simp only [Bool.and_eq_true, decide_eq_true_eq] at halt
    -- a zero of the precision comes first
    obtain ⟨j, rfl⟩ : ∃ j, k = j + 1 := ⟨k - 1, by
      by_contra hk
      exact halt ⟨⟨ha, hbase.mpr ho⟩, by omega⟩⟩
    rw [List.replicate_succ, List.cons_append, List.head?_cons] at hhead
    exact hhead rfl

/-- The sign, as the byte that is appended. -/
theorem sign_eq (dir : IntDirective) (v : Int64) :
    (if signByte (dir.conv.signed && decide (v < 0)) dir.conv.signed dir.flags ≠ 0
      then [signByte (dir.conv.signed && decide (v < 0)) dir.conv.signed dir.flags] else []) =
      ascii (cSign dir v) := by
  unfold signByte cSign
  simp only [Bool.and_eq_true, decide_eq_true_eq, lt_zero_iff]
  split_ifs <;> first | rfl | simp_all

/-- `0x` or `0X`, as the bytes that are appended. -/
theorem prefix_eq (dir : IntDirective) (v : Int64) :
    (if (dir.flags.alt && decide (dir.conv.base = 16) && decide (v ≠ 0)) = true
      then [48] ++ [if dir.conv.upper then 88 else 120] else []) = ascii (cPrefix dir v) := by
  have hv : v ≠ 0 ↔ v.toInt ≠ 0 := not_congr Int64.toInt_inj.symm
  unfold cPrefix
  simp only [← hv]
  cases dir.flags.alt <;> by_cases h0 : v = 0 <;> cases dir.conv <;> simp [h0, IntConv.base, IntConv.upper, ascii]

theorem ascii_append (x y : List Char) : ascii (x ++ y) = ascii x ++ ascii y := List.map_append

theorem ascii_replicate (n : ℕ) (c : Char) : ascii (List.replicate n c) = List.replicate n c.toNat.toUInt8 :=
  List.map_replicate

/-- The pieces in the order of the source: the padding is in one of three places. -/
theorem arranged_eq (left : Bool) (zero : Prop) [Decidable zero] (sign front plain : List Char) (pad zeros : ℕ) :
    (if (!left && !decide zero) = true then List.replicate pad 32 else []) ++ (ascii sign ++ (ascii front ++
        ((if (!left && decide zero) = true then List.replicate pad 48 else []) ++ (List.replicate zeros 48 ++
          (ascii plain ++ if left = true then List.replicate pad 32 else []))))) =
      ascii (if left = true then sign ++ front ++ (List.replicate zeros '0' ++ plain) ++ List.replicate pad ' '
        else if zero then sign ++ front ++ List.replicate pad '0' ++ (List.replicate zeros '0' ++ plain)
        else List.replicate pad ' ' ++ (sign ++ front) ++ (List.replicate zeros '0' ++ plain)) := by
  cases left
  · by_cases hz : zero
    · simp [hz, ascii_append, ascii_replicate]
    · simp [hz, ascii_append, ascii_replicate]
  · simp [ascii_append, ascii_replicate]

/-- `$fmt_int` appends what C prints, for every directive that `string.format` admits and every integer. The
scratch array is large enough: out of it the digits would trap. -/
theorem fmtInt_spec (b : Builder) (scratch : Scratch) (dir : IntDirective) (v : Int64) :
    fmtIntDirective b scratch dir v = b.append (ascii (cPrintf dir v)) := by
  obtain ⟨tmp, hdigits, hhas⟩ := digits_spec scratch dir v (magnitude_eq dir.conv v)
  obtain ⟨zeros, hzeros, hc⟩ := leadingZeros_spec hhas
  unfold fmtIntDirective fmtInt
  dsimp only
  rw [hdigits, ok_bind]
  rw [hzeros, ok_bind]
  have hput : ∀ b, putDigits tmp 0 (plainDigits dir v).length b = b.append (ascii (plainDigits dir v)) := fun b => by
    rw [putDigits_eq b (by rw [Nat.zero_add]; exact hhas.le), List.drop_zero, hhas.take_eq, List.reverse_reverse]
  have hpad : dir.width - (((if signByte (dir.conv.signed && decide (v < 0)) dir.conv.signed dir.flags ≠ 0 then 1
      else 0) + if (dir.flags.alt && decide (dir.conv.base = 16) && decide (v ≠ 0)) = true then 2 else 0) +
        (zeros + (plainDigits dir v).length)) =
      dir.width - (cSign dir v ++ cPrefix dir v ++ cDigits dir v).length := by
    have hsign := congrArg List.length (sign_eq dir v)
    have hhead := congrArg List.length (prefix_eq dir v)
    rw [length_ascii, apply_ite List.length] at hsign hhead
    rw [hc, List.length_append, List.length_append, List.length_append, List.length_replicate, ← hsign, ← hhead]
    rfl
  rw [hpad]
  unfold cPrintf
  simp only [fmtFill_eq, hput, append_if, Builder.append_append, sign_eq, prefix_eq]
  generalize dir.width - (cSign dir v ++ cPrefix dir v ++ cDigits dir v).length = pad
  have hzpad : (dir.flags.zero && decide (dir.precArg < 0)) = decide (dir.flags.zero = true ∧ dir.prec = none) := by
    rw [Bool.eq_iff_iff, Bool.and_eq_true, decide_eq_true_iff, decide_eq_true_iff, precArg_neg]
  rw [hzpad, hc]
  exact congrArg b.append (arranged_eq dir.flags.left _ _ _ _ pad zeros)

end

/-! ## The directives that are admitted -/

/-- What `string.format` reads of a directive: flags, width, precision and the letter. -/
structure RawDirective where
  flags : Flags
  width : ℕ
  prec : ℤ
  conv : UInt8

/-- The loop over the flags. -/
def readFlags : List UInt8 → Flags → Flags × List UInt8
  | [], f => (f, [])
  | c :: cs, f =>
    if c = 45 then readFlags cs { f with left := true }
    else if c = 43 then readFlags cs { f with plus := true }
    else if c = 32 then readFlags cs { f with space := true }
    else if c = 35 then readFlags cs { f with alt := true }
    else if c = 48 then readFlags cs { f with zero := true }
    else (f, c :: cs)

/-- The loop over digits: the number, how many there are, and the rest. -/
def readNumber : List UInt8 → ℕ → ℕ → ℕ × ℕ × List UInt8
  | [], n, count => (n, count, [])
  | c :: cs, n, count =>
    if c < 48 || 57 < c then (n, count, c :: cs)
    else readNumber cs (Pack.u32 (n * 10 + (c.toNat - 48))) (count + 1)

/-- "invalid format". -/
def invalidFormat : Fault := .raised "invalid format"

/-- The precision: a point and at most two digits, of which none means 0. The byte is read before the test that
there is one has an effect, so that the end of the text traps. -/
def readPrec : List UInt8 → Except Fault (ℤ × List UInt8)
  | [] => .error .stuck
  | c :: cs =>
    if c = 46 then
      if 2 < (readNumber cs 0 0).2.1 then .error invalidFormat
      else .ok ((readNumber cs 0 0).1, (readNumber cs 0 0).2.2)
    else .ok (-1, c :: cs)

/-- The letter, and whether the flags are allowed for it. -/
def readConv (flags : Flags) (width : ℕ) (prec : ℤ) : List UInt8 → Except Fault RawDirective
  | [] => .error invalidFormat
  | conv :: _ =>
    match IntConv.ofByte conv with
    | none => .error invalidFormat
    | some c => if flags.within (fmtAllowedFlags c) then .ok ⟨flags, width, prec, conv⟩ else .error invalidFormat

/-- A directive of an integer, from behind its `%`; the other letters are left out. -/
def readDirective (fmt : List UInt8) : Except Fault RawDirective :=
  if fmt.isEmpty then .error invalidFormat
  else do
    let (flags, fmt) := readFlags fmt ⟨false, false, false, false, false⟩
    let (width, digits, fmt) := readNumber fmt 0 0
    if 2 < digits then .error invalidFormat
    else do
      let (prec, fmt) ← readPrec fmt
      readConv flags width prec fmt

/-- A directive that ends after its flags and its width traps, instead of the error for an incomplete one. -/
example : readDirective [53] = .error .stuck := rfl

/-- A number of at most two digits. -/
theorem readNumber_lt {fmt rest : List UInt8} {n count n' count' : ℕ} (h : readNumber fmt n count = (n', count', rest))
    (hn : n < 10^count) (hle : count' ≤ 2) : n' < 10^count' := by
  induction fmt generalizing n count with
  | nil =>
    obtain ⟨rfl, rfl, -⟩ : n = n' ∧ count = count' ∧ [] = rest := by simpa [readNumber] using h
    exact hn
  | cons c cs ih =>
    unfold readNumber at h
    split_ifs at h with hdigit
    · obtain ⟨rfl, rfl, -⟩ : n = n' ∧ count = count' ∧ c :: cs = rest := by simpa using h
      exact hn
    · apply ih h
      have hc : c.toNat ≤ 57 := by
        simp only [Bool.or_eq_true, decide_eq_true_eq, not_or] at hdigit
        exact UInt8.le_iff_toNat_le.mp (UInt8.not_lt.mp hdigit.2)
      have hmod : Pack.u32 (n * 10 + (c.toNat - 48)) ≤ n * 10 + (c.toNat - 48) := Nat.mod_le _ _
      rw [Nat.pow_succ]
      omega

theorem readNumber_lt_hundred {fmt : List UInt8} (h : ¬2 < (readNumber fmt 0 0).2.1) : (readNumber fmt 0 0).1 < 100 := by
  have hlt : (readNumber fmt 0 0).1 < 10^(readNumber fmt 0 0).2.1 :=
    readNumber_lt (n := 0) rfl (by norm_num) (by omega)
  have hpow : 10^(readNumber fmt 0 0).2.1 ≤ 10^2 := Nat.pow_le_pow_right (by norm_num) (by omega)
  omega

theorem readPrec_spec {fmt rest : List UInt8} {p : ℤ} (h : readPrec fmt = .ok (p, rest)) :
    p = -1 ∨ ∃ q : ℕ, p = q ∧ q < 100 := by
  unfold readPrec at h
  cases fmt with
  | nil => cases h
  | cons c cs =>
    dsimp only at h
    split_ifs at h with hpoint hdigits
    · right
      refine ⟨(readNumber cs 0 0).1, ?_, readNumber_lt_hundred hdigits⟩
      simp only [Except.ok.injEq, Prod.mk.injEq] at h
      exact h.1.symm
    · left
      simp only [Except.ok.injEq, Prod.mk.injEq] at h
      exact h.1.symm

/-- What is read satisfies what `IntDirective` asks for. -/
theorem readDirective_admits {fmt : List UInt8} {raw : RawDirective} (h : readDirective fmt = .ok raw) :
    ∃ dir : IntDirective, IntConv.ofByte raw.conv = some dir.conv ∧ dir.flags = raw.flags ∧ dir.width = raw.width ∧
      dir.precArg = raw.prec := by
  unfold readDirective at h
  split at h
  · cases h
  dsimp only at h
  generalize readFlags fmt ⟨false, false, false, false, false⟩ = read at h
  split_ifs at h with hdigits
  obtain ⟨⟨prec, rest⟩, hprec, hconv⟩ := Pack.of_bind_ok h
  have hwidth := readNumber_lt_hundred hdigits
  have hspec := readPrec_spec hprec
  cases rest with
  | nil => cases hconv
  | cons conv cs =>
    dsimp only [readConv] at hconv
    split at hconv
    · cases hconv
    · rename_i c hc
      split_ifs at hconv with hwithin
      obtain rfl := Except.ok.inj hconv
      obtain rfl | ⟨q, rfl, hq⟩ := hspec
      · exact ⟨⟨c, read.1, _, none, hwithin, hwidth, fun p hp => by cases hp⟩, hc, rfl, rfl, rfl⟩
      · exact ⟨⟨c, read.1, _, some q, hwithin, hwidth, fun p hp => by cases hp; exact hq⟩, hc, rfl, rfl, rfl⟩

end Lua2wasm.Format
