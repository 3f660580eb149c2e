import Lua2wasm.Wat.Sexpr

/-!
# Integer literals and their encoding

`wat2wasm.c`: `buf_uleb` and `buf_sleb` on machine words, and `i32.const` and `i64.const`, which read a literal and
encode it.

The encoders are LEB128 of the number that the word stands for (`bufUleb_eq`, `bufSleb_eq`), which is read back and is
the shortest. What a literal stands for is `literalValue`, an integer of any size; the reader finds it modulo `2^64`
(`parseUint_eq`), so that the two instructions encode its last 32 or 64 bits in two's complement (`integers_encoded`).
-/

namespace Lua2wasm.Wat

open Leb128

/-! ## The encoders -/

/-- `buf_uleb`. -/
def bufUleb (v : UInt64) : List UInt8 :=
  let byte := (v &&& 0x7f).toUInt8
  if v >>> 7 = 0 then [byte] else (byte ||| 0x80) :: bufUleb (v >>> 7)
termination_by v.toNat
decreasing_by
  rename_i h
  have hne : (v >>> 7).toNat ≠ 0 := fun h0 => h (UInt64.toNat_inj.mp h0)
  rw [UInt64.toNat_shiftRight, Nat.shiftRight_eq_div_pow] at hne ⊢
  simp only [UInt64.reduceToNat, Nat.reduceMod] at hne ⊢
  omega

/-- The arithmetic shift. -/
theorem toInt_shift (v : Int64) : (v >>> 7).toInt = v.toInt / 128 := by
  rw [← Int64.toInt_toBitVec, Int64.toBitVec_shiftRight, BitVec.toInt_sshiftRight', Int.shiftRight_eq_div_pow,
    Int64.toInt_toBitVec]
  rfl

/-- `buf_sleb`. -/
def bufSleb (v : Int64) : List UInt8 :=
  let byte := v.toUInt64.toUInt8 &&& 0x7f
  if v >>> 7 = 0 ∧ byte &&& 0x40 = 0 ∨ v >>> 7 = -1 ∧ byte &&& 0x40 ≠ 0 then [byte]
  else (byte ||| 0x80) :: bufSleb (v >>> 7)
termination_by v.toInt.natAbs
decreasing_by
  rename_i h
  have hzero : v.toInt ≠ 0 := by
    intro h0
    obtain rfl : v = 0 := Int64.toInt_inj.mp h0
    exact h (by decide)
  have hneg : v.toInt ≠ -1 := by
    intro h1
    obtain rfl : v = -1 := Int64.toInt_inj.mp h1
    exact h (by decide)
  rw [toInt_shift]
  omega

variable {v : UInt64} {w : Int64} {b : UInt8} {ch : Char} {s : List Char}

theorem toNat_low7 (b : UInt8) : (b &&& 0x7f).toNat = b.toNat % 128 := by
  rw [UInt8.toNat_and]
  exact Nat.and_two_pow_sub_one_eq_mod b.toNat 7

theorem low7_eq (b : UInt8) : b &&& 0x7f = UInt8.ofNat (b.toNat % 128) := by
  rw [← toNat_low7, UInt8.ofNat_toNat]

theorem more_eq (b : UInt8) : b &&& 0x7f ||| 0x80 = UInt8.ofNat (b.toNat % 128 + 128) := by
  have hlow : b.toNat % 128 < 2^7 := Nat.mod_lt _ (by decide)
  have hor : b.toNat % 128 ||| 128 = b.toNat % 128 + 128 := by
    rw [Nat.or_comm, ← Nat.two_pow_add_eq_or_of_lt hlow 1, Nat.add_comm]
  rw [← hor, ← toNat_low7, UInt8.ofNat_or, UInt8.ofNat_toNat]
  rfl

theorem bit6_iff (b : UInt8) : b &&& 0x7f &&& 0x40 = 0 ↔ b.toNat % 128 < 64 := by
  rw [← UInt8.toNat_inj, UInt8.toNat_and, toNat_low7]
  change b.toNat % 128 &&& 2^6 = 0 ↔ _
  rw [Nat.and_two_pow, Nat.testBit_eq_decide_div_mod_eq]
  by_cases h : b.toNat % 128 / 2^6 % 2 = 1
  · rw [decide_eq_true h]
    exact iff_of_false (by decide) (by omega)
  · rw [decide_eq_false h]
    exact iff_of_true rfl (by omega)

/-- The word's LEB128 is that of its number. -/
theorem bufUleb_eq (v : UInt64) : bufUleb v = uleb v.toNat := by
  have hshift : ∀ v : UInt64, (v >>> 7).toNat = v.toNat / 128 := fun v => by
    rw [UInt64.toNat_shiftRight, Nat.shiftRight_eq_div_pow]
    rfl
  have hzero : ∀ v : UInt64, v >>> 7 = 0 ↔ v.toNat / 128 = 0 := fun v => by
    rw [← UInt64.toNat_inj, hshift]
    rfl
  have hbyte : ∀ v : UInt64, (v &&& 0x7f).toUInt8 = v.toUInt8 &&& 0x7f := fun v => UInt64.toUInt8_and v 0x7f
  have hmod : ∀ v : UInt64, v.toUInt8.toNat % 128 = v.toNat % 128 := fun v => by
    rw [UInt64.toNat_toUInt8]
    omega
  induction v using bufUleb.induct with
  | case1 v hlast =>
    unfold bufUleb uleb
    rw [if_pos hlast, if_pos ((hzero v).mp hlast), hbyte, low7_eq, hmod]
  | case2 v hmore ih =>
    unfold bufUleb uleb
    rw [if_neg hmore, if_neg (mt (hzero v).mpr hmore), hbyte, more_eq, hmod, ih, hshift]

/-- The low bits of a signed word. -/
theorem low_word (v : Int64) : ((v.toUInt64.toUInt8.toNat % 128 : ℕ) : ℤ) = v.toInt % 128 := by
  have hbits : v.toInt = (v.toUInt64.toNat : ℤ).bmod (2^64) := BitVec.toInt_eq_toNat_bmod _
  rw [UInt64.toNat_toUInt8, hbits, Int.bmod_def]
  split_ifs <;> omega

/-- So is that of a signed one. -/
theorem bufSleb_eq (v : Int64) : bufSleb v = sleb v.toInt := by
  have hzero : ∀ v : Int64, v >>> 7 = 0 ↔ v.toInt / 128 = 0 := fun v => by
    rw [← Int64.toInt_inj, toInt_shift]
    rfl
  have hones : ∀ v : Int64, v >>> 7 = -1 ↔ v.toInt / 128 = -1 := fun v => by
    rw [← Int64.toInt_inj, toInt_shift]
    rfl
  have hlast_iff : ∀ v : Int64, (v >>> 7 = 0 ∧ v.toUInt64.toUInt8 &&& 0x7f &&& 0x40 = 0 ∨
      v >>> 7 = -1 ∧ v.toUInt64.toUInt8 &&& 0x7f &&& 0x40 ≠ 0) ↔
      (v.toInt / 128 = 0 ∧ v.toInt % 128 < 64 ∨ v.toInt / 128 = -1 ∧ 64 ≤ v.toInt % 128) := fun v => by
    have hlow := low_word v
    rw [hzero, hones, ne_eq, bit6_iff]
    omega
  have hlow : ∀ v : Int64, v.toUInt64.toUInt8.toNat % 128 = (v.toInt % 128).toNat := fun v => by
    rw [← low_word, Int.toNat_natCast]
  induction v using bufSleb.induct with
  | case1 v byte hlast =>
    unfold bufSleb sleb
    rw [if_pos hlast, if_pos ((hlast_iff v).mp hlast), low7_eq, hlow]
  | case2 v byte hmore ih =>
    unfold bufSleb sleb
    rw [if_neg hmore, if_neg (mt (hlast_iff v).mpr hmore), more_eq, hlow, ih, toInt_shift]

/-! ## Literals -/

/-- The digit of a base. -/
def digitValue (base : ℕ) (ch : Char) : Option ℕ := (hexval ch).filter (· < base)

/-- The number that the digits spell. Underscores do not count. -/
def digitsValue (base : ℕ) (s : List Char) : Option ℕ := do
  let ds ← (s.filter (· ≠ '_')).mapM (digitValue base)
  pure (Nat.ofDigits base ds.reverse)

/-- The number that a literal without a sign spells. -/
def unsignedValue : List Char → Option ℕ
  | '0' :: x :: s =>
    if x = 'x' ∨ x = 'X' then if s = [] then none else digitsValue 16 s else digitsValue 10 ('0' :: x :: s)
  | s => if s = [] then none else digitsValue 10 s

/-- The integer that a literal spells, of any size. -/
def literalValue : List Char → Option ℤ
  | '+' :: s => (unsignedValue s).map fun n : ℕ => (n : ℤ)
  | '-' :: s => (unsignedValue s).map fun n : ℕ => -(n : ℤ)
  | s => (unsignedValue s).map fun n : ℕ => (n : ℤ)

/-- The number with more digits behind it. -/
def digitsAfter (base n : ℕ) (s : List Char) : Option ℕ :=
  ((s.filter (· ≠ '_')).mapM (digitValue base)).map fun ds => ds.foldl (fun n d => n * base + d) n

theorem digitsAfter_skip (base n : ℕ) (s : List Char) : digitsAfter base n ('_' :: s) = digitsAfter base n s := rfl

theorem digitsAfter_cons (base n : ℕ) (h : ch ≠ '_') :
    digitsAfter base n (ch :: s) = (digitValue base ch).bind fun d => digitsAfter base (n * base + d) s := by
  unfold digitsAfter
  rw [List.filter_cons_of_pos (by simpa using h), List.mapM_cons]
  cases digitValue base ch with
  | none => rfl
  | some d => cases (s.filter (· ≠ '_')).mapM (digitValue base) <;> rfl

/-- Horner's rule. -/
theorem digitsAfter_zero (base : ℕ) (s : List Char) : digitsAfter base 0 s = digitsValue base s := by
  unfold digitsAfter digitsValue
  cases (s.filter (· ≠ '_')).mapM (digitValue base) with
  | none => rfl
  | some ds =>
    simp only [Option.map_some, Option.bind_eq_bind, Option.bind_some, Nat.ofDigits_eq_foldr, List.foldr_reverse,
      Option.pure_def, Option.some_inj]
    congr 1
    funext n d
    simp only [Nat.cast_id]
    ring

/-- A word with one more digit. -/
theorem word_digit (base n d : ℕ) : UInt64.ofNat n * UInt64.ofNat base + UInt64.ofNat d = UInt64.ofNat (n * base + d) := by
  rw [UInt64.ofNat_add, UInt64.ofNat_mul]

theorem hexval_lt {d : ℕ} (h : hexval ch = some d) : d < 16 := by
  have h9 : ch ≤ '9' → ch.toNat ≤ 57 := id
  have hf : ch ≤ 'f' → ch.toNat ≤ 102 := id
  have hF : ch ≤ 'F' → ch.toNat ≤ 70 := id
  unfold hexval at h
  split_ifs at h with hdigit hlower hupper
  · have := h9 hdigit.2
    have : '0'.toNat = 48 := rfl
    cases h
    omega
  · have := hf hlower.2
    have : 'a'.toNat = 97 := rfl
    cases h
    omega
  · have := hF hupper.2
    have : 'A'.toNat = 65 := rfl
    cases h
    omega

theorem digitValue_hex (ch : Char) : digitValue 16 ch = hexval ch := by
  unfold digitValue
  cases h : hexval ch with
  | none => rfl
  | some d => exact Option.filter_some_pos (decide_eq_true (hexval_lt h))

theorem digitValue_dec (ch : Char) :
    digitValue 10 ch = if ch < '0' ∨ '9' < ch then none else some (ch.toNat - '0'.toNat) := by
  have h9 : ch ≤ '9' → ch.toNat ≤ 57 := id
  have h0 : '0'.toNat = 48 := rfl
  have hdec : ('0' ≤ ch ∧ ch ≤ '9') ↔ ¬(ch < '0' ∨ '9' < ch) := by
    rw [not_or, Char.not_lt, Char.not_lt]
  unfold digitValue hexval
  by_cases hbad : ch < '0' ∨ '9' < ch
  · rw [if_pos hbad, if_neg fun h => hdec.mp h hbad]
    -- the letters are no digits of base ten
    split_ifs
    · exact Option.filter_some_neg (by simp)
    · exact Option.filter_some_neg (by simp)
    · rfl
  · rw [if_neg hbad, if_pos (hdec.mpr hbad)]
    have := h9 (hdec.mpr hbad).2
    exact Option.filter_some_pos (decide_eq_true (by omega))

theorem hexDigits_toOption (n : ℕ) (s : List Char) :
    (hexDigits s (UInt64.ofNat n)).toOption = (digitsAfter 16 n s).map UInt64.ofNat := by
  induction s generalizing n with
  | nil => rfl
  | cons ch s ih =>
    unfold hexDigits
    split_ifs with hskip
    · rw [hskip, digitsAfter_skip, ih]
    · rw [digitsAfter_cons _ _ hskip, digitValue_hex]
      cases hexval ch with
      | none => rfl
      | some d =>
        have hword := word_digit 16 n d
        rw [Option.bind_some, ← ih, ← hword]
        rfl

theorem decDigits_toOption (n : ℕ) (s : List Char) :
    (decDigits s (UInt64.ofNat n)).toOption = (digitsAfter 10 n s).map UInt64.ofNat := by
  induction s generalizing n with
  | nil => rfl
  | cons ch s ih =>
    unfold decDigits
    split_ifs with hskip hbad
    · rw [hskip, digitsAfter_skip, ih]
    · rw [digitsAfter_cons _ _ hskip, digitValue_dec, if_pos hbad]
      rfl
    · have hword := word_digit 10 n (ch.toNat - '0'.toNat)
      rw [digitsAfter_cons _ _ hskip, digitValue_dec, if_neg hbad, Option.bind_some, ← ih, ← hword]
      rfl

theorem parseMagnitude_toOption (s : List Char) :
    (parseMagnitude s).toOption = (unsignedValue s).map UInt64.ofNat := by
  have hhex := hexDigits_toOption 0
  have hdec := decDigits_toOption 0
  simp only [digitsAfter_zero] at hhex hdec
  have hhead : ∀ (x : Char) (s : List Char), parseMagnitude ('0' :: x :: s) =
      if x = 'x' ∨ x = 'X' then if s = [] then throw "bad hex integer" else hexDigits s 0
      else decDigits ('0' :: x :: s) 0 := fun _ _ => rfl
  fun_cases unsignedValue s with
  | case1 x hx =>
    rw [hhead, if_pos hx]
    rfl
  | case2 x s hx hs =>
    rw [hhead, if_pos hx, if_neg hs]
    exact hhex s
  | case3 x s hx =>
    rw [hhead, if_neg hx]
    exact hdec _
  | case4 hs => rfl
  | case5 s hne hs =>
    unfold parseMagnitude
    split
    · exact absurd rfl (hne _ _)
    · rw [if_neg hs]
      exact hdec _

theorem toNat_ofInt (z : ℤ) : ((UInt64.ofInt z).toNat : ℤ) = z % 2^64 := by
  have hlt : (z % 2^64).toNat < UInt64.size := by
    have : UInt64.size = 2^64 := rfl
    omega
  rw [UInt64.ofInt, UInt64.toNat_ofNat_of_lt' hlt]
  omega

theorem ofInt_natCast (n : ℕ) : UInt64.ofInt n = UInt64.ofNat n := by
  rw [← UInt64.toNat_inj, UInt64.toNat_ofNat']
  have hmod := toNat_ofInt n
  omega

/-- The reader finds the value of a literal modulo `2^64`, and accepts just literals. -/
theorem parseUint_toOption (s : String) :
    (parseUint s).toOption = (literalValue s.toList).map UInt64.ofInt := by
  have hplain : ∀ s, (parseMagnitude s).toOption = ((unsignedValue s).map fun n : ℕ => (n : ℤ)).map UInt64.ofInt := by
    intro s
    rw [parseMagnitude_toOption, Option.map_map]
    congr 1
    funext n
    exact (ofInt_natCast n).symm
  unfold parseUint
  generalize s.toList = s
  fun_cases literalValue s with
  | case1 s => exact hplain s
  | case2 s =>
    have hmag := parseMagnitude_toOption s
    change (parseMagnitude s >>= fun v => pure (0 - v)).toOption = _
    cases hv : parseMagnitude s with
    | error e =>
      rw [hv] at hmag
      have hnone : unsignedValue s = none := Option.map_eq_none_iff.mp hmag.symm
      rw [hnone]
      rfl
    | ok v =>
      rw [hv] at hmag
      obtain ⟨n, hn, rfl⟩ := Option.map_eq_some_iff.mp hmag.symm
      rw [hn]
      change some (0 - UInt64.ofNat n) = some (UInt64.ofInt (-(n : ℤ)))
      rw [UInt64.ofInt_neg, UInt64.zero_sub, ofInt_natCast]
  | case3 s hplus hminus =>
    split
    · exact absurd rfl (hplus _)
    · exact absurd rfl (hminus _)
    · exact hplain s

/-! ## Constants -/

/-- `(i32.const n)`. -/
def emitI32Const (n : SExpr) : Except String (List UInt8) :=
  match n.args.head?.bind SExpr.atom? with
  | none => throw "i32.const needs a literal"
  | some s => do
    let v ← parseUint s
    pure (0x41 :: bufSleb v.toUInt32.toInt32.toInt64)

/-- `(i64.const n)`. -/
def emitI64Const (n : SExpr) : Except String (List UInt8) :=
  match n.args.head?.bind SExpr.atom? with
  | none => throw "i64.const needs a literal"
  | some s => do
    let v ← parseUint s
    pure (0x42 :: bufSleb v.toInt64)

/-- A constant of so many bits is the encoding of the literal in two's complement. Anything but a literal is refused. -/
def EncodesLiteral (opcode : UInt8) (bits : ℕ) (s : String) (r : Except String (List UInt8)) : Prop :=
  match literalValue s.toList with
  | none => r.toOption = none
  | some z => ∃ code, r = .ok (opcode :: code) ∧ Encodes readSleb (z.bmod (2^bits)) code

theorem bufUleb_encodes (v : UInt64) : Encodes readUleb v.toNat (bufUleb v) := by
  rw [bufUleb_eq]
  exact uleb_encodes v.toNat

theorem bufSleb_encodes (v : Int64) : Encodes readSleb v.toInt (bufSleb v) := by
  rw [bufSleb_eq]
  exact sleb_encodes v.toInt

theorem word64 (z : ℤ) : (UInt64.ofInt z).toInt64.toInt = z.bmod (2^64) := by
  change (UInt64.ofInt z).toBitVec.toInt = _
  rw [BitVec.toInt_eq_toNat_bmod, UInt64.toNat_toBitVec, toNat_ofInt]
  exact Int.emod_bmod z (2^64)

theorem word32 (z : ℤ) : (UInt64.ofInt z).toUInt32.toInt32.toInt64.toInt = z.bmod (2^32) := by
  rw [Int32.toInt_toInt64]
  change ((UInt64.ofInt z).toBitVec.setWidth 32).toInt = _
  rw [BitVec.toInt_setWidth, UInt64.toNat_toBitVec, toNat_ofInt]
  calc (z % 2^64).bmod (2^32)
    _ = ((z % 2^64) % (2^32 : ℕ)).bmod (2^32) := (Int.emod_bmod _ _).symm
    _ = (z % (2^32 : ℕ)).bmod (2^32) := by rw [Int.emod_emod_of_dvd z (by decide)]
    _ = z.bmod (2^32) := Int.emod_bmod z (2^32)

/-- The encoders give back every number, in as few bytes as there can be, and the two instructions encode what their
literal spells. -/
theorem integers_encoded :
    (∀ v : UInt64, Encodes readUleb v.toNat (bufUleb v)) ∧ (∀ v : Int64, Encodes readSleb v.toInt (bufSleb v)) ∧
      ∀ (s : String) (isString : Bool) (more : List SExpr),
        EncodesLiteral 0x41 32 s (emitI32Const (.list (.atom "i32.const" false :: .atom s isString :: more))) ∧
          EncodesLiteral 0x42 64 s (emitI64Const (.list (.atom "i64.const" false :: .atom s isString :: more))) := by
  refine ⟨bufUleb_encodes, bufSleb_encodes, fun s isString more => ?_⟩
  have hvalue := parseUint_toOption s
  change EncodesLiteral 0x41 32 s (parseUint s >>= fun v => pure (0x41 :: bufSleb v.toUInt32.toInt32.toInt64)) ∧
    EncodesLiteral 0x42 64 s (parseUint s >>= fun v => pure (0x42 :: bufSleb v.toInt64))
  unfold EncodesLiteral
  cases hz : literalValue s.toList with
  | none =>
    rw [hz] at hvalue
    cases hv : parseUint s with
    | error e => exact ⟨rfl, rfl⟩
    | ok v =>
      rw [hv] at hvalue
      cases hvalue
  | some z =>
    rw [hz] at hvalue
    cases hv : parseUint s with
    | error e =>
      rw [hv] at hvalue
      cases hvalue
    | ok v =>
      rw [hv] at hvalue
      obtain rfl : v = UInt64.ofInt z := Option.some.inj hvalue
      refine ⟨⟨_, rfl, ?_⟩, ⟨_, rfl, ?_⟩⟩
      · rw [← word32]
        exact bufSleb_encodes _
      · rw [← word64]
        exact bufSleb_encodes _

end Lua2wasm.Wat
