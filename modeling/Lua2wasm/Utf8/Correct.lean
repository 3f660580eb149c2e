import Lua2wasm.Utf8.Code
import Lua2wasm.Lib.Utf8Form

/-!
# What the UTF-8 functions accept

The encoder writes the shortest form of a code point (`utf8Encode_eq`). The decoder finds any form
with a value that the mode allows (`decodeStep_of_coded`, `decodeStep_of_not_coded`): it does not
test that the form is the shortest one, so an overlong form is accepted too. Apart from those,
decoding is the inverse of encoding (`decode_exact_iff`).
-/

namespace Lua2wasm.Utf8

open Utf8Form

/-- The code points that the decoder is to give in a mode. -/
def Legal (lax : Bool) (v : ℕ) : Prop :=
  if lax then v < 2^31 else v ≤ 0x10FFFF ∧ ¬ (0xD800 ≤ v ∧ v ≤ 0xDFFF)

/-- The bytes at `p` are a form of `v` with `w` bytes, and the mode knows its lead byte. -/
structure Coded (bytes : List UInt8) (p : ℕ) (lax : Bool) (w v : ℕ) : Prop where
  /-- The value fits. -/
  fits : Fits w v
  /-- The lead bytes of longer forms are known in lax mode only. -/
  known : lax = true ∨ w ≤ 4
  /-- The bytes are there. -/
  here : ∃ rest, bytes.drop p = form w v ++ rest

/-- The bytes at `p` are a form, but not the shortest one, of a value that the mode allows. -/
def Overlong (bytes : List UInt8) (p : ℕ) (lax : Bool) : Prop :=
  ∃ w v, Coded bytes p lax w v ∧ Legal lax v ∧ ∃ w' < w, Fits w' v

variable {bytes bs rest : List UInt8} {p w w' v n i : ℕ} {lax : Bool} {cp : UInt32} {b : UInt8}

/-! ## The encoder -/

/-- Bits above others are added. -/
theorem or_eq_add {a c k : ℕ} (h : c < 2^k) : 2^k * a ||| c = 2^k * a + c :=
  (Nat.two_pow_add_eq_or_of_lt h a).symm

/-- A continuation byte of the encoder. -/
theorem contByte_eq {k : ℕ} (hk : k < 32) (cp : UInt32) :
    contByte cp (UInt32.ofNat k) = UInt8.ofNat (128 + cp.toNat / 2^k % 64) := by
  have hshift : (UInt32.ofNat k).toNat % 32 = k := by
    rw [UInt32.toNat_ofNat']
    omega
  have hsix : (cp.toNat / 2^k) % 64 < 2^7 := by omega
  have hand : (cp.toNat >>> k) &&& 0x3F = cp.toNat / 2^k % 64 := by
    rw [Nat.shiftRight_eq_div_pow]
    exact Nat.and_two_pow_sub_one_eq_mod _ 6
  apply UInt8.toNat_inj.mp
  unfold contByte
  rw [UInt32.toNat_toUInt8, UInt32.toNat_or, UInt32.toNat_and, UInt32.toNat_shiftRight, hshift]
  change (128 ||| ((cp.toNat >>> k) &&& 0x3F)) % 2^8 = _
  rw [hand, UInt8.toNat_ofNat']
  exact congrArg (· % 2^8) (or_eq_add (a := 1) hsix)

/-- A lead byte of the encoder, where the bits of the code point fit below the mark. -/
theorem leadByte_eq {k j a : ℕ} (hk : k < 32) {mark : UInt32} (hmark : mark.toNat = 2^j * a)
    (hcp : cp.toNat / 2^k < 2^j) :
    leadByte mark cp (UInt32.ofNat k) = UInt8.ofNat (2^j * a + cp.toNat / 2^k) := by
  have hshift : (UInt32.ofNat k).toNat % 32 = k := by
    rw [UInt32.toNat_ofNat']
    omega
  apply UInt8.toNat_inj.mp
  unfold leadByte
  rw [UInt32.toNat_toUInt8, UInt32.toNat_or, UInt32.toNat_shiftRight, hshift, hmark,
    Nat.shiftRight_eq_div_pow, or_eq_add hcp, UInt8.toNat_ofNat']

/-- A value that a form is shortest for does not fit the shorter ones. -/
theorem le_of_shortest (hfit : Fits w v) (hmin : ∀ w', Fits w' v → w ≤ w') {k : ℕ} (h1 : 1 ≤ k) (hk : k < w) :
    2^bits k ≤ v := by
  by_contra hlt
  have hle := hmin k ⟨h1, by have := hfit.2.1; omega, by omega⟩
  omega

/-- The continuation bytes of the encoder. -/
def contBytes (cp : UInt32) : ℕ → List UInt8
  | 0 => []
  | n + 1 => contByte cp (UInt32.ofNat (6 * n)) :: contBytes cp n

theorem contBytes_eq (hn : n ≤ 5) : contBytes cp n = tail n cp.toNat := by
  induction n with
  | zero => rfl
  | succ n ih =>
    unfold contBytes tail
    rw [contByte_eq (by omega), ih (by omega), pow_mul]
    norm_num

/-- The bytes that the encoder writes in one of its longer cases. -/
theorem wide_eq {k : ℕ} {mark : UInt32} (h1 : 1 ≤ k) (h5 : k ≤ 5) (hmark : mark.toNat = marker (k + 1))
    (hv : cp.toNat < 2^bits (k + 1)) :
    leadByte mark cp (UInt32.ofNat (6 * k)) :: contBytes cp k = form (k + 1) cp.toNat := by
  have hsplit : marker (k + 1) = 2^(6 - k) * (2^(k + 2) - 2) := by
    unfold marker
    interval_cases k <;> rfl
  have hlead : cp.toNat / 2^(6 * k) < 2^(6 - k) := by
    have h := lead_lt (w := k + 1) ⟨by omega, by omega, hv⟩
    rw [if_neg (by omega)] at h
    rw [pow_mul, show 6 - k = 7 - (k + 1) by omega]
    exact h
  unfold form
  rw [contBytes_eq h5, leadByte_eq (by omega) (hmark.trans hsplit) hlead, ← hsplit, pow_mul]
  rfl

/-- The encoder writes the shortest form. -/
theorem utf8Encode_eq (hfit : Fits w cp.toNat) (hmin : ∀ w', Fits w' cp.toNat → w ≤ w')
    (hmode : lax = true ∨ cp.toNat ≤ 0x10FFFF) : utf8Encode cp lax = some (form w cp.toNat) := by
  have hlow : ∀ k, 1 ≤ k → k < w → ¬ cp.toNat < 2^bits k :=
    fun k h1 hk => Nat.not_lt.mpr (le_of_shortest hfit hmin h1 hk)
  obtain ⟨h1, h6, hv⟩ := hfit
  have hv31 : cp.toNat < 2^31 := by
    apply Nat.lt_of_lt_of_le hv
    apply Nat.pow_le_pow_right (by decide)
    unfold bits
    split <;> omega
  have hbits₁ : cp < 0x80 ↔ cp.toNat < 2^bits 1 := UInt32.lt_iff_toNat_lt
  have hbits₂ : cp < 0x800 ↔ cp.toNat < 2^bits 2 := UInt32.lt_iff_toNat_lt
  have hbits₃ : cp < 0x10000 ↔ cp.toNat < 2^bits 3 := UInt32.lt_iff_toNat_lt
  have hbits₄ : cp < 0x200000 ↔ cp.toNat < 2^bits 4 := UInt32.lt_iff_toNat_lt
  have hbits₅ : cp < 0x4000000 ↔ cp.toNat < 2^bits 5 := UInt32.lt_iff_toNat_lt
  have hneg : ¬ (0x80000000 : UInt32) ≤ cp := by
    rw [UInt32.le_iff_toNat_le]
    exact Nat.not_le.mpr hv31
  have hstrict : ¬ (!lax && decide ((0x10FFFF : UInt32) < cp)) = true := by
    rcases hmode with rfl | hle
    · simp
    · have hle' : ¬ (0x10FFFF : UInt32) < cp := by
        rw [UInt32.lt_iff_toNat_lt]
        exact Nat.not_lt.mpr hle
      simp [hle']
  -- the longest forms are for values past the Unicode range
  have hlax : 2^21 ≤ cp.toNat → ¬ (!lax) = true := by
    intro hbig
    rcases hmode with rfl | hle
    · simp
    · omega
  unfold utf8Encode
  rw [if_neg hneg, if_neg hstrict]
  interval_cases w
  · rw [if_pos (hbits₁.mpr hv)]
    unfold form marker
    have hbyte : cp.toUInt8 = UInt8.ofNat cp.toNat := UInt8.toNat_inj.mp rfl
    rw [hbyte]
    simp [tail]
  · rw [if_neg (mt hbits₁.mp (hlow 1 (by decide) (by decide))), if_pos (hbits₂.mpr hv)]
    exact congrArg some (wide_eq (k := 1) (by decide) (by decide) rfl hv)
  · rw [if_neg (mt hbits₁.mp (hlow 1 (by decide) (by decide))),
      if_neg (mt hbits₂.mp (hlow 2 (by decide) (by decide))), if_pos (hbits₃.mpr hv)]
    exact congrArg some (wide_eq (k := 2) (by decide) (by decide) rfl hv)
  · rw [if_neg (mt hbits₁.mp (hlow 1 (by decide) (by decide))),
      if_neg (mt hbits₂.mp (hlow 2 (by decide) (by decide))),
      if_neg (mt hbits₃.mp (hlow 3 (by decide) (by decide))), if_pos (hbits₄.mpr hv)]
    exact congrArg some (wide_eq (k := 3) (by decide) (by decide) rfl hv)
  · rw [if_neg (mt hbits₁.mp (hlow 1 (by decide) (by decide))),
      if_neg (mt hbits₂.mp (hlow 2 (by decide) (by decide))),
      if_neg (mt hbits₃.mp (hlow 3 (by decide) (by decide))),
      if_neg (mt hbits₄.mp (hlow 4 (by decide) (by decide))),
      if_neg (hlax (Nat.not_lt.mp (hlow 4 (by decide) (by decide)))), if_pos (hbits₅.mpr hv)]
    exact congrArg some (wide_eq (k := 4) (by decide) (by decide) rfl hv)
  · have hle : cp ≤ 0x7FFFFFFF := by
      rw [UInt32.le_iff_toNat_le]
      exact Nat.le_of_lt_succ hv
    rw [if_neg (mt hbits₁.mp (hlow 1 (by decide) (by decide))),
      if_neg (mt hbits₂.mp (hlow 2 (by decide) (by decide))),
      if_neg (mt hbits₃.mp (hlow 3 (by decide) (by decide))),
      if_neg (mt hbits₄.mp (hlow 4 (by decide) (by decide))),
      if_neg (hlax (Nat.not_lt.mp (hlow 4 (by decide) (by decide)))),
      if_neg (mt hbits₅.mp (hlow 5 (by decide) (by decide))), if_pos hle]
    exact congrArg some (wide_eq (k := 5) (by decide) (by decide) rfl hv)

/-- The image of the encoder. -/
theorem utf8Encode_iff : utf8Encode cp lax = some bs ↔
    cp.toNat < 2^31 ∧ (lax = true ∨ cp.toNat ≤ 0x10FFFF) ∧ Shortest cp.toNat bs := by
  constructor
  · intro h
    have hsmall : cp.toNat < 2^31 := by
      by_contra hbig
      have hneg : (0x80000000 : UInt32) ≤ cp := UInt32.le_iff_toNat_le.mpr (Nat.not_lt.mp hbig)
      unfold utf8Encode at h
      rw [if_pos hneg] at h
      cases h
    have hmode : lax = true ∨ cp.toNat ≤ 0x10FFFF := by
      by_contra hno
      obtain ⟨hlax, hbig⟩ := not_or.mp hno
      have hbig' : (0x10FFFF : UInt32) < cp := UInt32.lt_iff_toNat_lt.mpr (Nat.not_le.mp hbig)
      unfold utf8Encode at h
      simp [hlax, hbig'] at h
    obtain ⟨w, hfit, hmin⟩ := exists_shortest hsmall
    rw [utf8Encode_eq hfit hmin hmode] at h
    exact ⟨hsmall, hmode, w, hfit, hmin, (Option.some.inj h).symm⟩
  · rintro ⟨-, hmode, w, hfit, hmin, rfl⟩
    exact utf8Encode_eq hfit hmin hmode

/-! ## The decoder -/

/-- The test of a byte for a continuation byte. -/
theorem isCont_iff : ¬ (b < 0x80 || 0xC0 ≤ b) = true ↔ IsCont b := by
  unfold IsCont
  rw [Bool.or_eq_true, decide_eq_true_eq, decide_eq_true_eq, UInt8.lt_iff_toNat_lt, UInt8.le_iff_toNat_le]
  change ¬ (b.toNat < 128 ∨ 192 ≤ b.toNat) ↔ _
  omega

/-- The loop that checks the continuation bytes. -/
theorem checkFrom_eq (bytes : List UInt8) : ∀ (todo i : ℕ), i + todo ≤ bytes.length →
    ∃ r, checkFrom bytes todo i = some r ∧ (r = true ↔ ∀ b ∈ (bytes.drop i).take todo, IsCont b) := by
  intro todo
  induction todo with
  | zero =>
    intro i _
    exact ⟨true, rfl, by simp⟩
  | succ todo ih =>
    intro i hi
    have hlt : i < bytes.length := by omega
    unfold checkFrom
    rw [List.getElem?_eq_getElem hlt, List.drop_eq_getElem_cons hlt, List.take_succ_cons]
    simp only [Option.bind_eq_bind, Option.bind_some, List.forall_mem_cons]
    by_cases hb : (bytes[i] < 0x80 || 0xC0 ≤ bytes[i]) = true
    · rw [if_pos hb]
      refine ⟨false, rfl, ?_⟩
      have hno : ¬ IsCont bytes[i] := fun h => isCont_iff.mpr h hb
      simp [hno]
    · rw [if_neg hb]
      obtain ⟨r, hr, hiff⟩ := ih (i + 1) (by omega)
      refine ⟨r, hr, ?_⟩
      rw [hiff]
      simp [isCont_iff.mp hb]

/-- The loop that reads the bits of the continuation bytes. Nothing is shifted out, as the bits so
far and those to come are at most 31. -/
theorem assembleFrom_eq (bytes : List UInt8) : ∀ (todo i : ℕ) (acc : UInt32), i + todo ≤ bytes.length →
    (∀ b ∈ (bytes.drop i).take todo, IsCont b) → (acc.toNat + 1) * 64^todo ≤ 2^31 →
    ∃ r, assembleFrom bytes todo i acc = some r ∧ r.toNat = extend acc.toNat ((bytes.drop i).take todo) := by
  intro todo
  induction todo with
  | zero =>
    intro i acc _ _ _
    refine ⟨acc, rfl, ?_⟩
    rw [List.take_zero, extend_nil]
  | succ todo ih =>
    intro i acc hi hcont hroom
    have hlt : i < bytes.length := by omega
    rw [List.drop_eq_getElem_cons hlt, List.take_succ_cons, List.forall_mem_cons] at hcont
    rw [List.drop_eq_getElem_cons hlt, List.take_succ_cons, extend_cons]
    obtain ⟨hb, hrest⟩ := hcont
    unfold IsCont at hb
    have hpos : 1 ≤ 64^todo := Nat.one_le_pow _ _ (by decide)
    have hsmall : (acc.toNat + 1) * 64 ≤ 2^31 := by
      calc (acc.toNat + 1) * 64 ≤ (acc.toNat + 1) * 64 * 64^todo := Nat.le_mul_of_pos_right _ hpos
        _ = (acc.toNat + 1) * 64^(todo + 1) := by rw [pow_succ]; ring
        _ ≤ 2^31 := hroom
    -- the shift and the mask are the next digit
    have hnext : ((acc <<< 6) ||| (bytes[i].toUInt32 &&& 0x3F)).toNat = acc.toNat * 64 + (bytes[i].toNat - 128) := by
      have hdigit : bytes[i].toNat &&& 0x3F = bytes[i].toNat - 128 := by
        have h := Nat.and_two_pow_sub_one_eq_mod bytes[i].toNat 6
        change bytes[i].toNat &&& 63 = _ at h
        rw [h]
        omega
      have hshift : (acc <<< 6).toNat = 2^6 * acc.toNat := by
        rw [UInt32.toNat_shiftLeft]
        change acc.toNat <<< 6 % 2^32 = _
        rw [Nat.shiftLeft_eq, Nat.mod_eq_of_lt (by omega), Nat.mul_comm]
      rw [UInt32.toNat_or, UInt32.toNat_and, UInt8.toNat_toUInt32, hshift]
      change 2^6 * acc.toNat ||| (bytes[i].toNat &&& 0x3F) = _
      rw [hdigit, or_eq_add (by omega)]
      omega
    unfold assembleFrom
    rw [List.getElem?_eq_getElem hlt]
    simp only [Option.bind_eq_bind, Option.bind_some]
    rw [← hnext]
    apply ih (i + 1) _ (by omega) hrest
    rw [hnext]
    calc (acc.toNat * 64 + (bytes[i].toNat - 128) + 1) * 64^todo
        ≤ ((acc.toNat + 1) * 64) * 64^todo := Nat.mul_le_mul_right _ (by omega)
      _ = (acc.toNat + 1) * 64^(todo + 1) := by rw [pow_succ]; ring
      _ ≤ 2^31 := hroom

/-- The bits that `$utf8_assemble` takes from a lead byte. -/
theorem leadBits {k a : ℕ} (h1 : 1 ≤ k) (h5 : k ≤ 5) (hb : b.toNat = marker (k + 1) + a)
    (ha : a < 2^(6 - k)) : (b.toUInt32 &&& (0x7F >>> UInt32.ofNat k)).toNat = a := by
  have hmask : ((0x7F : UInt32) >>> UInt32.ofNat k).toNat = 2^(7 - k) - 1 := by
    interval_cases k <;> rfl
  rw [UInt32.toNat_and, UInt8.toNat_toUInt32, hmask, Nat.and_two_pow_sub_one_eq_mod, hb]
  unfold marker
  rw [if_neg (by omega)]
  interval_cases k <;> norm_num at ha ⊢ <;> omega

/-- The lead bytes. -/
theorem contCount_iff {k : ℕ} : contCount b lax = some k ↔
    1 ≤ k ∧ k ≤ 5 ∧ (lax = true ∨ k ≤ 3) ∧ marker (k + 1) ≤ b.toNat ∧ b.toNat < marker (k + 1) + 2^(6 - k) := by
  have hlt : ∀ c : UInt8, b < c ↔ b.toNat < c.toNat := fun c => UInt8.lt_iff_toNat_lt
  have h₁ : b < 0xC0 ↔ b.toNat < 192 := hlt _
  have h₂ : b < 0xE0 ↔ b.toNat < 224 := hlt _
  have h₃ : b < 0xF0 ↔ b.toNat < 240 := hlt _
  have h₄ : b < 0xF8 ↔ b.toNat < 248 := hlt _
  have h₅ : b < 0xFC ↔ b.toNat < 252 := hlt _
  have h₆ : b < 0xFE ↔ b.toNat < 254 := hlt _
  have m₂ : marker 2 = 192 := rfl
  have m₃ : marker 3 = 224 := rfl
  have m₄ : marker 4 = 240 := rfl
  have m₅ : marker 5 = 248 := rfl
  have m₆ : marker 6 = 252 := rfl
  unfold contCount
  constructor
  · intro h
    cases lax with
    | true =>
      simp only [h₁, h₂, h₃, h₄, h₅, h₆, Bool.not_true, Bool.false_eq_true, if_false] at h
      split_ifs at h <;> cases h <;> simp [m₂, m₃, m₄, m₅, m₆] <;> omega
    | false =>
      simp only [h₁, h₂, h₃, h₄, Bool.not_false, if_true] at h
      split_ifs at h <;> cases h <;> simp [m₂, m₃, m₄] <;> omega
  · rintro ⟨h1, h5, hlax, hlo, hhi⟩
    simp only [h₁, h₂, h₃, h₄, h₅, h₆]
    interval_cases k
    · simp only [m₂, Nat.reduceAdd, Nat.reduceSub, Nat.reducePow] at hlo hhi
      rw [if_neg (by omega), if_pos (by omega)]
    · simp only [m₃, Nat.reduceAdd, Nat.reduceSub, Nat.reducePow] at hlo hhi
      rw [if_neg (by omega), if_neg (by omega), if_pos (by omega)]
    · simp only [m₄, Nat.reduceAdd, Nat.reduceSub, Nat.reducePow] at hlo hhi
      rw [if_neg (by omega), if_neg (by omega), if_neg (by omega), if_pos (by omega)]
    · simp only [m₅, Nat.reduceAdd, Nat.reduceSub, Nat.reducePow] at hlo hhi
      obtain rfl : lax = true := by simpa using hlax
      rw [if_neg (by omega), if_neg (by omega), if_neg (by omega), if_neg (by omega), if_neg (by simp),
        if_pos (by omega)]
    · simp only [m₆, Nat.reduceAdd, Nat.reduceSub, Nat.reducePow] at hlo hhi
      obtain rfl : lax = true := by simpa using hlax
      rw [if_neg (by omega), if_neg (by omega), if_neg (by omega), if_neg (by omega), if_neg (by simp),
        if_neg (by omega), if_pos (by omega)]

/-- Where a form is, its bytes are those that the loops read. -/
theorem Coded.split (h : Coded bytes p lax w v) : ∃ (b : UInt8) (hp : p < bytes.length), bytes[p] = b ∧
    b.toNat = marker w + v / 64^(w - 1) ∧ p + w ≤ bytes.length ∧
    (bytes.drop (p + 1)).take (w - 1) = tail (w - 1) v := by
  obtain ⟨rest, hrest⟩ := h.here
  obtain ⟨b, hform, hb, -⟩ := lead_cases h.fits
  have h1 := h.fits.1
  have hlen := congrArg List.length hrest
  rw [List.length_drop, List.length_append, length_form h1] at hlen
  have hp : p < bytes.length := by omega
  rw [hform, List.drop_eq_getElem_cons hp, List.cons_append] at hrest
  obtain ⟨hhead, htail⟩ := List.cons.inj hrest
  refine ⟨b, hp, hhead, hb, by omega, ?_⟩
  rw [htail, List.take_append_of_le_length (by rw [length_tail]), List.take_of_length_le (by rw [length_tail])]

/-- `$utf8_assemble` gives the value of a form. -/
theorem assemble_of_coded (h : Coded bytes p lax w v) :
    utf8Assemble bytes p w = some (UInt32.ofNat v) ∧ v < 2^31 := by
  obtain ⟨b, hp, hhead, hb, hlen, htake⟩ := h.split
  have hlead := lead_lt h.fits
  obtain ⟨h1, h6, hv⟩ := h.fits
  have hv31 : v < 2^31 := by
    apply Nat.lt_of_lt_of_le hv
    apply Nat.pow_le_pow_right (by decide)
    unfold bits
    split <;> omega
  refine ⟨?_, hv31⟩
  unfold utf8Assemble
  rw [List.getElem?_eq_getElem hp, hhead]
  simp only [Option.bind_eq_bind, Option.bind_some]
  by_cases hw : w = 1
  · subst hw
    rw [if_pos rfl]
    congr 1
    apply UInt32.toNat_inj.mp
    have hval : b.toNat = v := by
      rw [hb]
      unfold marker
      simp
    rw [UInt8.toNat_toUInt32, hval, UInt32.toNat_ofNat', Nat.mod_eq_of_lt (by omega)]
  rw [if_neg hw]
  rw [if_neg hw] at hlead
  have hbits := leadBits (b := b) (k := w - 1) (a := v / 64^(w - 1)) (by omega) (by omega)
    (by rw [show w - 1 + 1 = w by omega]; exact hb) (by rw [show 6 - (w - 1) = 7 - w by omega]; exact hlead)
  have hcont : ∀ b ∈ (bytes.drop (p + 1)).take (w - 1), IsCont b := by
    rw [htake]
    exact fun b hb => isCont_of_mem_tail hb
  obtain ⟨r, hr, hval⟩ := assembleFrom_eq bytes (w - 1) (p + 1) _ (by omega) hcont (by
    rw [hbits]
    have h' : (v / 64^(w - 1) + 1) ≤ 2^(7 - w) := hlead
    calc (v / 64^(w - 1) + 1) * 64^(w - 1) ≤ 2^(7 - w) * 64^(w - 1) := Nat.mul_le_mul_right _ h'
      _ ≤ 2^31 := by
        interval_cases w <;> decide)
  rw [hr]
  congr 1
  apply UInt32.toNat_inj.mp
  rw [hval, hbits, htake, extend_tail, UInt32.toNat_ofNat', Nat.mod_eq_of_lt (by omega)]

/-- The last test of the decoder. -/
theorem strictOk_iff (hv : v < 2^31) : strictOk (UInt32.ofNat v) = true ↔ Legal false v := by
  have hval : (UInt32.ofNat v).toNat = v := by
    rw [UInt32.toNat_ofNat']
    omega
  unfold strictOk Legal
  simp only [Bool.and_eq_true, Bool.not_eq_true', decide_eq_false_iff_not, Bool.and_eq_false_iff,
    UInt32.lt_iff_toNat_lt, UInt32.le_iff_toNat_le, hval]
  change ¬ 0x10FFFF < v ∧ (¬ 0xD800 ≤ v ∨ ¬ v ≤ 0xDFFF) ↔ _
  simp only [Bool.false_eq_true, if_false]
  omega

/-- A first byte below 128 is a form of its own. -/
theorem lt_iff_ascii : b < 0x80 ↔ b.toNat < 128 := UInt8.lt_iff_toNat_lt

/-- Where a form is, the decoder accepts it if the mode allows its value. -/
theorem decodeStep_of_coded (h : Coded bytes p lax w v) :
    (Legal lax v → utf8DecodeStep bytes p lax = some w) ∧
      (¬ Legal lax v → utf8DecodeStep bytes p lax = some 0) := by
  obtain ⟨b, hp, hhead, hb, hlen, htake⟩ := h.split
  obtain ⟨hassemble, hv31⟩ := assemble_of_coded h
  have hlead := lead_lt h.fits
  have hknown := h.known
  obtain ⟨h1, h6, hv⟩ := h.fits
  unfold utf8DecodeStep
  rw [if_neg (by omega), List.getElem?_eq_getElem hp, hhead]
  simp only [Option.bind_eq_bind, Option.bind_some]
  by_cases hw : w = 1
  · -- an ASCII character is in every mode
    subst hw
    have hsmall : v < 128 := hv
    have hval : b.toNat = v := by
      rw [hb]
      unfold marker
      simp
    rw [if_pos (lt_iff_ascii.mpr (by omega))]
    refine ⟨fun _ => rfl, fun hillegal => absurd ?_ hillegal⟩
    unfold Legal
    split <;> omega
  rw [if_neg hw] at hlead
  have hmarker : 128 ≤ marker w := by
    unfold marker
    rw [if_neg hw]
    interval_cases w <;> simp at hw ⊢
  -- the lead byte gives the number of continuation bytes
  have hcount : contCount b lax = some (w - 1) := by
    rw [contCount_iff, show w - 1 + 1 = w by omega, show 6 - (w - 1) = 7 - w by omega]
    exact ⟨by omega, by omega, hknown.imp_right fun h => by omega, by rw [hb]; exact Nat.le_add_right _ _,
      by rw [hb]; exact Nat.add_lt_add_left hlead _⟩
  have hcheck : checkFrom bytes (w - 1) (p + 1) = some true := by
    obtain ⟨r, hr, hiff⟩ := checkFrom_eq bytes (w - 1) (p + 1) (by omega)
    rw [hr, hiff.mpr]
    rw [htake]
    exact fun b hb => isCont_of_mem_tail hb
  have hnotAscii : ¬ b.toNat < 128 := by
    rw [hb]
    exact Nat.not_lt.mpr (Nat.le_trans hmarker (Nat.le_add_right _ _))
  rw [if_neg (mt lt_iff_ascii.mp hnotAscii), hcount]
  dsimp only
  rw [show w - 1 + 1 = w by omega, if_neg (by omega), hcheck]
  simp only [Option.bind_some, Bool.not_true, Bool.false_eq_true, if_false]
  -- the strict mode refuses surrogates and what is beyond 0x10FFFF
  cases lax with
  | true =>
    refine ⟨fun _ => rfl, fun hillegal => absurd ?_ hillegal⟩
    unfold Legal
    rw [if_pos rfl]
    exact hv31
  | false =>
    rw [if_neg (by simp), hassemble]
    simp only [Option.bind_some]
    constructor
    · intro hlegal
      rw [if_pos ((strictOk_iff hv31).mpr hlegal)]
    · intro hillegal
      rw [if_neg (mt (strictOk_iff hv31).mp hillegal)]

/-- Where no form is, the decoder accepts nothing. -/
theorem decodeStep_of_not_coded (h : ∀ w v, ¬ Coded bytes p lax w v) : utf8DecodeStep bytes p lax = some 0 := by
  unfold utf8DecodeStep
  by_cases hp : bytes.length ≤ p
  · rw [if_pos hp]
  have hlt : p < bytes.length := by omega
  rw [if_neg hp, List.getElem?_eq_getElem hlt]
  simp only [Option.bind_eq_bind, Option.bind_some]
  by_cases hascii : bytes[p] < 0x80
  · -- a form of one byte
    rw [lt_iff_ascii] at hascii
    refine absurd ⟨⟨le_refl 1, by omega, hascii⟩, Or.inr (by omega), bytes.drop (p + 1), ?_⟩ (h 1 bytes[p].toNat)
    rw [List.drop_eq_getElem_cons hlt]
    unfold form marker
    simp [tail]
  rw [if_neg hascii]
  cases hcount : contCount bytes[p] lax with
  | none => rfl
  | some k =>
    dsimp only
    by_cases hlen : bytes.length < p + (k + 1)
    · rw [if_pos hlen]
    obtain ⟨r, hr, hiff⟩ := checkFrom_eq bytes k (p + 1) (by omega)
    rw [if_neg hlen, hr]
    simp only [Option.bind_some]
    cases r with
    | false => rfl
    | true =>
      -- the value that the continuation bytes lead to
      obtain ⟨h1, h5, hlax, hlo, hhi⟩ := contCount_iff.mp hcount
      have hcont := hiff.mp rfl
      have hk : ((bytes.drop (p + 1)).take k).length = k := by
        rw [List.length_take, List.length_drop]
        omega
      obtain ⟨hdiv, htail⟩ := @extend_spec (bytes[p].toNat - marker (k + 1)) _ hcont
      rw [hk] at hdiv htail
      generalize hval : extend (bytes[p].toNat - marker (k + 1)) ((bytes.drop (p + 1)).take k) = v at hdiv htail
      refine absurd ⟨⟨by omega, by omega, ?_⟩, hlax.imp_right fun h => by omega, (bytes.drop (p + 1)).drop k, ?_⟩
        (h (k + 1) v)
      · have hroom : v < (bytes[p].toNat - marker (k + 1) + 1) * 64^k := by
          rw [← hdiv]
          exact Nat.lt_mul_of_div_lt (Nat.lt_succ_self _) (by positivity)
        apply Nat.lt_of_lt_of_le hroom
        calc (bytes[p].toNat - marker (k + 1) + 1) * 64^k ≤ 2^(6 - k) * 64^k := Nat.mul_le_mul_right _ (by omega)
          _ ≤ 2^bits (k + 1) := by
            unfold bits
            interval_cases k <;> decide
      · unfold form
        have hsum : marker (k + 1) + (bytes[p].toNat - marker (k + 1)) = bytes[p].toNat := by omega
        rw [show k + 1 - 1 = k by omega, htail, hdiv, hsum, List.drop_eq_getElem_cons hlt, UInt8.ofNat_toNat,
          List.cons_append, List.take_append_drop]

/-! ## Exactness -/

/-- The form at a position is the only one there. -/
theorem Coded.unique (h : Coded bytes p lax w v) {w' v' : ℕ} (h' : Fits w' v')
    (hrest : bytes.drop p = form w' v' ++ rest) : w = w' ∧ v = v' := by
  obtain ⟨rest', hrest'⟩ := h.here
  exact form_inj h.fits h' (hrest'.symm.trans hrest)

/-- What is wanted of decoding at a position. -/
structure DecodesExactly (bytes : List UInt8) (p : ℕ) (lax : Bool) : Prop where
  /-- Decoding succeeds just on the shortest form of a value that the mode allows, and tells its
  length. -/
  accepts : ∀ w, (utf8DecodeStep bytes p lax = some w ∧ w ≠ 0) ↔
    ∃ v bs rest, Legal lax v ∧ Shortest v bs ∧ bytes.drop p = bs ++ rest ∧ bs.length = w
  /-- Otherwise the result is 0. -/
  total : ∃ w, utf8DecodeStep bytes p lax = some w
  /-- An encoded code point is given back, with its length. -/
  decoded : ∀ cp bs rest, Legal lax (UInt32.toNat cp) → utf8Encode cp lax = some bs → bytes.drop p = bs ++ rest →
    utf8DecodeStep bytes p lax = some bs.length ∧ utf8Assemble bytes p bs.length = some cp
  /-- A decoded code point is encoded by the same bytes. -/
  encoded : ∀ w, utf8DecodeStep bytes p lax = some w → w ≠ 0 →
    ∃ cp, utf8Assemble bytes p w = some cp ∧ utf8Encode cp lax = some ((bytes.drop p).take w)

theorem Legal.small (h : Legal lax v) : v < 2^31 ∧ (lax = true ∨ v ≤ 0x10FFFF) := by
  unfold Legal at h
  cases lax with
  | true => exact ⟨h, Or.inl rfl⟩
  | false =>
    obtain ⟨hle, -⟩ : v ≤ 0x10FFFF ∧ ¬ (0xD800 ≤ v ∧ v ≤ 0xDFFF) := h
    exact ⟨by omega, Or.inr hle⟩

/-- The shortest form of a value that the mode allows has a lead byte that the mode knows. -/
theorem coded_of_shortest (hl : Legal lax v) (hs : Shortest v bs) (hrest : bytes.drop p = bs ++ rest) :
    Coded bytes p lax bs.length v := by
  obtain ⟨w, hfit, hmin, rfl⟩ := hs
  rw [length_form hfit.1]
  refine ⟨hfit, hl.small.2.imp_right fun hle => ?_, rest, hrest⟩
  exact hmin 4 ⟨by decide, by decide, Nat.lt_of_le_of_lt hle (by decide)⟩

/-- What is accepted at a position is a form. -/
theorem coded_of_accepted (h : utf8DecodeStep bytes p lax = some w) (hw : w ≠ 0) :
    ∃ v, Coded bytes p lax w v ∧ Legal lax v := by
  by_cases hex : ∃ w' v, Coded bytes p lax w' v
  · obtain ⟨w', v, hc⟩ := hex
    obtain ⟨hyes, hno⟩ := decodeStep_of_coded hc
    by_cases hl : Legal lax v
    · obtain rfl : w' = w := Option.some.inj ((hyes hl).symm.trans h)
      exact ⟨v, hc, hl⟩
    · exact absurd (Option.some.inj (h.symm.trans (hno hl))) hw
  · have hzero := decodeStep_of_not_coded fun w' v hc => hex ⟨w', v, hc⟩
    exact absurd (Option.some.inj (h.symm.trans hzero)) hw

theorem decodeStep_total (bytes : List UInt8) (p : ℕ) (lax : Bool) : ∃ w, utf8DecodeStep bytes p lax = some w := by
  by_cases hex : ∃ w v, Coded bytes p lax w v
  · obtain ⟨w, v, hc⟩ := hex
    obtain ⟨hyes, hno⟩ := decodeStep_of_coded hc
    by_cases hl : Legal lax v
    · exact ⟨w, hyes hl⟩
    · exact ⟨0, hno hl⟩
  · exact ⟨0, decodeStep_of_not_coded fun w v hc => hex ⟨w, v, hc⟩⟩

/-- A form that is not overlong is the shortest one. -/
theorem Coded.shortest (h : Coded bytes p lax w v) (hl : Legal lax v) (hno : ¬ Overlong bytes p lax) :
    Shortest v (form w v) := by
  refine ⟨w, h.fits, fun w' hfit => ?_, rfl⟩
  by_contra hlt
  exact hno ⟨w, v, h, hl, w', by omega, hfit⟩

/-- Decoding is exact at a position unless an overlong form is there. -/
theorem decode_exact_iff (bytes : List UInt8) (p : ℕ) (lax : Bool) :
    DecodesExactly bytes p lax ↔ ¬ Overlong bytes p lax := by
  constructor
  · rintro h ⟨w, v, hc, hl, w', hlt, hfit⟩
    have hw : w ≠ 0 := by
      have h1 := hc.fits.1
      omega
    obtain ⟨v', bs, rest, -, ⟨w₂, hfit₂, hmin, rfl⟩, hrest, -⟩ :=
      (h.accepts w).mp ⟨(decodeStep_of_coded hc).1 hl, hw⟩
    obtain ⟨rfl, rfl⟩ := hc.unique hfit₂ hrest
    have hle := hmin w' hfit
    omega
  · intro hno
    refine ⟨fun w => ⟨?_, ?_⟩, decodeStep_total bytes p lax, ?_, ?_⟩
    · rintro ⟨h, hw⟩
      obtain ⟨v, hc, hl⟩ := coded_of_accepted h hw
      obtain ⟨rest, hrest⟩ := hc.here
      exact ⟨v, form w v, rest, hl, hc.shortest hl hno, hrest, length_form hc.fits.1⟩
    · rintro ⟨v, bs, rest, hl, hs, hrest, rfl⟩
      have hc := coded_of_shortest hl hs hrest
      have h1 := hc.fits.1
      exact ⟨(decodeStep_of_coded hc).1 hl, by omega⟩
    · intro cp bs rest hl hencode hrest
      obtain ⟨-, -, hs⟩ := utf8Encode_iff.mp hencode
      have hc := coded_of_shortest hl hs hrest
      refine ⟨(decodeStep_of_coded hc).1 hl, ?_⟩
      rw [(assemble_of_coded hc).1, UInt32.ofNat_toNat]
    · intro w h hw
      obtain ⟨v, hc, hl⟩ := coded_of_accepted h hw
      obtain ⟨hassemble, hv31⟩ := assemble_of_coded hc
      have hval : (UInt32.ofNat v).toNat = v := by
        rw [UInt32.toNat_ofNat']
        omega
      obtain ⟨rest, hrest⟩ := hc.here
      refine ⟨UInt32.ofNat v, hassemble, ?_⟩
      rw [utf8Encode_iff, hval, hrest, List.take_left' (length_form hc.fits.1)]
      exact ⟨hv31, hl.small.2, hc.shortest hl hno⟩

/-- `"\xC0\x80"` is no encoding of anything, and is accepted in strict mode as two bytes. -/
theorem decode_overlong : ¬ ∀ bytes p lax, DecodesExactly bytes p lax := by
  intro h
  obtain ⟨v, bs, rest, -, ⟨w, hfit, hmin, rfl⟩, hrest, -⟩ :=
    ((h [0xC0, 0x80] 0 false).accepts 2).mp ⟨by decide, by decide⟩
  have hform : form 2 0 ++ [] = form w v ++ rest := hrest
  obtain ⟨rfl, rfl⟩ := form_inj ⟨by decide, by decide, by decide⟩ hfit hform
  exact absurd (hmin 1 ⟨by decide, by decide, by decide⟩) (by decide)

end Lua2wasm.Utf8
