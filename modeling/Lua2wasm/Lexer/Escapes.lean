import Lua2wasm.Lexer.ReadString
import Lua2wasm.Utf8.Correct

/-!
# The escapes of quoted strings

`Decodes` is the grammar of what follows an opening quote: plain characters and escapes, each a `Piece`, up to the
closing quote. Two rules are left open: whether a raw carriage return is a plain character, and which digits of `\u`
have a value. `luaRules` are Lua's. `read_string` follows `codeRules`, which let a carriage return pass, and compute the
value in a type of so many bits.

Here are the grammar and the loops over white space and digits; `Quoted.lean` goes on with `read_string`.
-/

namespace Lua2wasm.Lexer

open Utf8Form (Shortest)

/-! ## The grammar -/

/-- The quotes. -/
inductive Quote
  | double
  | single

/-- The character. -/
def Quote.byte : Quote → UInt8
  | .double => 34
  | .single => 39

/-- The value of a hexadecimal digit. -/
def hexDigit (c : UInt8) : ℕ := if c ≤ 57 then c.toNat - 48 else if c ≤ 70 then c.toNat - 55 else c.toNat - 87

/-- The value of hexadecimal digits. -/
def hexValue (hs : List UInt8) : ℕ := hs.foldl (fun v c => v * 16 + hexDigit c) 0

/-- The value of decimal digits. -/
def decValue (ds : List UInt8) : ℕ := ds.foldl (fun v c => v * 10 + (c.toNat - 48)) 0

/-- What the grammar leaves open. -/
structure Rules where
  /-- A raw carriage return is a plain character. -/
  rawCR : Bool
  /-- The code point that digits of `\u` are for. -/
  codepoint : List UInt8 → Option ℕ

/-- The rules of Lua. -/
def luaRules : Rules := ⟨false, fun hs => if hexValue hs ≤ 0x7FFFFFFF then some (hexValue hs) else none⟩

/-- The digits one after the other, each time reduced to so many bits, and none too large. -/
def wrappedValue (bits : ℕ) : List UInt8 → ℕ → Option ℕ
  | [], cp => some cp
  | c :: hs, cp =>
    if 0x7FFFFFFF < cp * 16 % 2^bits + hexDigit c then none else wrappedValue bits hs (cp * 16 % 2^bits + hexDigit c)

/-- The rules of the lexer. -/
def codeRules (bits : ℕ) : Rules := ⟨true, fun hs => wrappedValue bits hs 0⟩

/-- Line breaks, of one character or two. -/
def lineBreaks : List (List UInt8) := [[10], [13], [13, 10], [10, 13]]

/-- A character or an escape at the front of a text, what it stands for, and the text behind. -/
inductive Piece (ru : Rules) (q : Quote) : List UInt8 → List UInt8 → List UInt8 → Prop
  | plain (c : UInt8) (s : List UInt8) (hc : c ≠ 0 ∧ c ≠ q.byte ∧ c ≠ 92 ∧ c ≠ 10) (hcr : c = 13 → ru.rawCR = true) :
    Piece ru q (c :: s) [c] s
  | single (e c : UInt8) (s : List UInt8) (h : (e, c) ∈ singleEscapes) : Piece ru q (92 :: e :: s) [c] s
  | hex (a b : UInt8) (s : List UInt8) (ha : isxdigit a = true) (hb : isxdigit b = true) :
    Piece ru q (92 :: 120 :: a :: b :: s) [UInt8.ofNat (16 * hexDigit a + hexDigit b)] s
  | decimal (ds s : List UInt8) (hne : ds ≠ []) (hlen : ds.length ≤ 3) (hds : ∀ d ∈ ds, isdigit d = true)
      (hmax : ds.length = 3 ∨ isdigit (s.headD 0) = false) (hval : decValue ds ≤ 255) :
    Piece ru q (92 :: (ds ++ s)) [UInt8.ofNat (decValue ds)] s
  | skip (ws s : List UInt8) (hws : ∀ c ∈ ws, isspace c = true) (hmax : isspace (s.headD 0) = false) :
    Piece ru q (92 :: 122 :: (ws ++ s)) [] s
  | lineBreak (br s : List UInt8) (hbr : br ∈ lineBreaks)
      (hmax : ∀ br' ∈ lineBreaks, br' <+: br ++ s → br'.length ≤ br.length) : Piece ru q (92 :: (br ++ s)) [10] s
  | utf8 (hs s bs : List UInt8) (v : ℕ) (hne : hs ≠ []) (hhs : ∀ h ∈ hs, isxdigit h = true)
      (hv : ru.codepoint hs = some v) (hbs : Shortest v bs) :
    Piece ru q (92 :: 117 :: 123 :: (hs ++ 125 :: s)) bs s

/-- The text behind an opening quote is a literal for these bytes, with the text behind it. -/
inductive Decodes (ru : Rules) (q : Quote) : List UInt8 → List UInt8 → List UInt8 → Prop
  | close (rest : List UInt8) : Decodes ru q (q.byte :: rest) [] rest
  | step (s s' d ds rest : List UInt8) (h : Piece ru q s d s') (h' : Decodes ru q s' ds rest) :
    Decodes ru q s (d ++ ds) rest

/-! ## The functions of the escapes -/

section

variable {bits n v cp line : ℕ} {c a b e : UInt8} {s s' d ds hs rest : List UInt8} {q : Quote} {ru : Rules}

/-- A fact about all bytes. -/
theorem forall_byte {P : UInt8 → Prop} (h : ∀ n < 256, P (UInt8.ofNat n)) (c : UInt8) : P c := by
  have hc := h c.toNat c.toNat_lt
  rwa [UInt8.ofNat_toNat] at hc

theorem hexVal_eq (c : UInt8) : isxdigit c = true → hexVal c = hexDigit c ∧ hexDigit c < 16 := by
  revert c
  apply forall_byte
  set_option maxRecDepth 20000 in
  decide

theorem skipSpace_iff : (skipSpace s line).1 = s' ↔
    ∃ ws, s = ws ++ s' ∧ (∀ c ∈ ws, isspace c = true) ∧ isspace (s'.headD 0) = false := by
  induction s generalizing line with
  | nil =>
    unfold skipSpace
    constructor
    · rintro rfl
      exact ⟨[], rfl, by simp, rfl⟩
    · rintro ⟨ws, hs, -, -⟩
      exact (List.append_eq_nil_iff.mp hs.symm).2.symm
  | cons c s ih =>
    unfold skipSpace
    by_cases hc : isspace c = true
    · rw [if_pos hc, ih]
      constructor
      · rintro ⟨ws, rfl, hws, hmax⟩
        exact ⟨c :: ws, rfl, by simpa using ⟨hc, hws⟩, hmax⟩
      · rintro ⟨ws, hs, hws, hmax⟩
        rcases ws with _ | ⟨w, ws⟩
        · rw [List.nil_append] at hs
          rw [← hs, List.headD_cons, hc] at hmax
          exact absurd hmax (by decide)
        · obtain ⟨rfl, rfl⟩ := List.cons.inj hs
          exact ⟨ws, rfl, fun x hx => hws x (List.mem_cons_of_mem _ hx), hmax⟩
    · rw [if_neg hc]
      constructor
      · rintro rfl
        exact ⟨[], rfl, by simp, by simpa using hc⟩
      · rintro ⟨ws, hs, hws, -⟩
        rcases ws with _ | ⟨w, ws⟩
        · exact hs
        · obtain ⟨rfl, -⟩ := List.cons.inj hs
          exact absurd (hws c List.mem_cons_self) hc

theorem readDec_iff : ∀ n s v, readDec n s v = (cp, s') ↔
    ∃ ds, s = ds ++ s' ∧ ds.length ≤ n ∧ (∀ d ∈ ds, isdigit d = true) ∧
      (ds.length = n ∨ isdigit (s'.headD 0) = false) ∧ cp = ds.foldl (fun v c => v * 10 + (c.toNat - 48)) v := by
  intro n
  induction n with
  | zero =>
    intro s v
    unfold readDec
    rw [Prod.mk.injEq]
    constructor
    · rintro ⟨rfl, rfl⟩
      exact ⟨[], rfl, le_rfl, by simp, Or.inl rfl, rfl⟩
    · rintro ⟨ds, rfl, hlen, -, -, rfl⟩
      obtain rfl := List.length_eq_zero_iff.mp (Nat.le_zero.mp hlen)
      exact ⟨rfl, rfl⟩
  | succ n ih =>
    intro s v
    rcases s with _ | ⟨c, s⟩
    · unfold readDec
      rw [Prod.mk.injEq]
      constructor
      · rintro ⟨rfl, rfl⟩
        exact ⟨[], rfl, Nat.zero_le _, by simp, Or.inr rfl, rfl⟩
      · rintro ⟨ds, hs, -, -, -, rfl⟩
        obtain ⟨rfl, rfl⟩ := List.append_eq_nil_iff.mp hs.symm
        exact ⟨rfl, rfl⟩
    · unfold readDec
      -- a digit is taken while fewer than `n` are there
      by_cases hc : isdigit c = true
      · rw [if_pos hc, ih]
        constructor
        · rintro ⟨ds, rfl, hlen, hds, hmax, rfl⟩
          refine ⟨c :: ds, rfl, by simpa using hlen, by simpa using ⟨hc, hds⟩, ?_, rfl⟩
          rw [List.length_cons, Nat.add_right_cancel_iff]
          exact hmax
        · rintro ⟨ds, hs, hlen, hds, hmax, rfl⟩
          rcases ds with _ | ⟨d, ds⟩
          · rw [List.nil_append] at hs
            rcases hmax with hmax | hmax
            · exact absurd hmax (by simp)
            · rw [← hs, List.headD_cons, hc] at hmax
              exact absurd hmax (by decide)
          · obtain ⟨rfl, rfl⟩ := List.cons.inj hs
            rw [List.length_cons, Nat.add_right_cancel_iff] at hmax
            exact ⟨ds, rfl, by simpa using hlen, fun x hx => hds x (List.mem_cons_of_mem _ hx), hmax, rfl⟩
      · rw [if_neg hc, Prod.mk.injEq]
        constructor
        · rintro ⟨rfl, rfl⟩
          exact ⟨[], rfl, Nat.zero_le _, by simp, Or.inr (by simpa using hc), rfl⟩
        · rintro ⟨ds, hs, -, hds, -, rfl⟩
          rcases ds with _ | ⟨d, ds⟩
          · exact ⟨rfl, hs⟩
          · obtain ⟨rfl, -⟩ := List.cons.inj hs
            exact absurd (hds c List.mem_cons_self) hc

/-- A digit shifted in, in a type of at least four bits. -/
theorem shift_or (hbits : 4 ≤ bits) (hd : n < 16) : (cp <<< 4) % 2^bits ||| n = cp * 16 % 2^bits + n := by
  obtain ⟨k, rfl⟩ := Nat.exists_eq_add_of_le hbits
  have hmul : cp * 16 % 2^(4 + k) = 2^4 * (cp % 2^k) := by
    rw [pow_add, Nat.mul_comm cp]
    exact Nat.mul_mod_mul_left _ _ _
  rw [Nat.shiftLeft_eq, hmul, Nat.two_pow_add_eq_or_of_lt hd]

theorem readHex_iff (hbits : 4 ≤ bits) : ∀ s cp seen, readHex bits s cp seen = some ⟨v, true, 125 :: s'⟩ ↔
    ∃ hs, s = hs ++ 125 :: s' ∧ (seen = true ∨ hs ≠ []) ∧ (∀ h ∈ hs, isxdigit h = true) ∧
      wrappedValue bits hs cp = some v := by
  have hbrace : ¬isxdigit 125 = true := by decide
  intro s
  induction s with
  | nil =>
    intro cp seen
    unfold readHex
    constructor
    · intro h
      exact absurd h (by simp)
    · rintro ⟨hs, hs', -⟩
      exact absurd hs'.symm (by simp)
  | cons c s ih =>
    intro cp seen
    unfold readHex
    -- a digit, or the brace that ends the escape
    by_cases hc : isxdigit c = true
    · obtain ⟨hval, hlt⟩ := hexVal_eq c hc
      rw [if_pos hc, hval]
      dsimp only
      rw [shift_or hbits hlt]
      constructor
      · intro h
        split_ifs at h with hbig
        obtain ⟨hs, rfl, -, hhs, hw⟩ := (ih _ _).mp h
        refine ⟨c :: hs, rfl, Or.inr (by simp), by simpa using ⟨hc, hhs⟩, ?_⟩
        unfold wrappedValue
        rw [if_neg hbig, hw]
      · rintro ⟨hs, hs', -, hhs, hw⟩
        rcases hs with _ | ⟨h, hs⟩
        · obtain ⟨rfl, -⟩ := List.cons.inj hs'
          exact absurd hc hbrace
        · obtain ⟨rfl, rfl⟩ := List.cons.inj hs'
          unfold wrappedValue at hw
          split_ifs at hw with hbig
          rw [if_neg hbig, ih]
          exact ⟨hs, rfl, Or.inl rfl, fun x hx => hhs x (List.mem_cons_of_mem _ hx), hw⟩
    · rw [if_neg hc]
      constructor
      · intro h
        obtain ⟨rfl, rfl, hs⟩ := HexRun.mk.inj (Option.some_inj.mp h)
        exact ⟨[], hs, Or.inl rfl, by simp, rfl⟩
      · rintro ⟨hs, hs', hseen, hhs, hw⟩
        rcases hs with _ | ⟨h, hs⟩
        · rcases hseen with rfl | hne
          · obtain rfl : cp = v := Option.some_inj.mp hw
            rw [List.nil_append] at hs'
            rw [hs']
          · exact absurd rfl hne
        · obtain ⟨rfl, -⟩ := List.cons.inj hs'
          exact absurd (hhs c List.mem_cons_self) hc

/-- No value is too large. -/
theorem wrappedValue_le (hcp : cp ≤ 0x7FFFFFFF) (h : wrappedValue bits hs cp = some v) : v ≤ 0x7FFFFFFF := by
  induction hs generalizing cp with
  | nil =>
    obtain rfl : cp = v := Option.some_inj.mp h
    exact hcp
  | cons c hs ih =>
    unfold wrappedValue at h
    split_ifs at h with hbig
    exact ih (not_lt.mp hbig) h

/-- The bytes of a code point are its shortest form. -/
theorem encodeUtf8_spec (hv : v ≤ 0x7FFFFFFF) : Shortest v (encodeUtf8 v.toUInt32) := by
  have hnat : v.toUInt32.toNat = v := by
    rw [UInt32.toNat_ofNat']
    omega
  have henc : Utf8.utf8Encode v.toUInt32 true = some (encodeUtf8 v.toUInt32) := by
    have hle : v.toUInt32 ≤ 0x7FFFFFFF := UInt32.le_iff_toNat_le.mpr (by rw [hnat]; exact hv)
    have hneg : ¬(0x80000000 : UInt32) ≤ v.toUInt32 := by
      rw [UInt32.le_iff_toNat_le, hnat]
      exact not_le.mpr (lt_of_le_of_lt hv (by decide))
    unfold Utf8.utf8Encode encodeUtf8
    rw [if_neg hneg, if_neg (by simp), if_neg (show ¬(!true) = true by decide), if_pos hle]
    split_ifs <;> rfl
  have := (Utf8.utf8Encode_iff.mp henc).2.2
  rwa [hnat] at this

theorem shortest_unique {bs bs' : List UInt8} (h : Shortest v bs) (h' : Shortest v bs') : bs = bs' := by
  obtain ⟨w, hfit, hmin, rfl⟩ := h
  obtain ⟨w', hfit', hmin', rfl⟩ := h'
  rw [le_antisymm (hmin w' hfit') (hmin' w hfit)]

end

end Lua2wasm.Lexer
