import Lua2wasm.Utf8.Library
import Lua2wasm.Utf8.Correct
import Lua2wasm.Lib.Fallible

/-!
# The `utf8` library inside its strings

Whatever the bytes and the positions are, the functions of the library return or raise (`utf8_inBounds`): they do not
read outside the string, and the `for` loop over `utf8.codes` comes to its end. The other loops end by their
definitions.
-/

namespace Lua2wasm.Utf8

open Fallible
open Table (Fault orTrap)
open Pack (ok_bind)
open Strings (wrap optInt toInt_ofNat_len toInt_sub_of_bounds toInt_add_of_bounds toUInt64_of_nonneg fromEnd_toInt
  wrap_of_bounds)

variable {bytes : List UInt8} {lax : Bool} {p n w j len : ℕ} {pos : Int64}

/-- The computation does not trap, and if it succeeds its result has the property. -/
abbrev Safely {α : Type} (x : Except Fault α) (P : α → Prop) : Prop := Avoids .stuck x P

theorem safely_raise {α : Type} {msg : String} {P : α → Prop} : Safely (throw (.raised msg) : Except Fault α) P :=
  avoids_error nofun

/-! ## Positions -/

/-- The distance of a negative position from 0, also for the least of all. -/
theorem toUInt64_neg_of_neg (h : pos.toInt < 0) : ((0 - pos).toUInt64.toNat : ℤ) = -pos.toInt := by
  have hcond : pos.toInt =
      if 2 * pos.toUInt64.toNat < 2^64 then (pos.toUInt64.toNat : ℤ) else pos.toUInt64.toNat - (2^64 : ℕ) :=
    BitVec.toInt_eq_toNat_cond pos.toBitVec
  have hneg : (0 - pos).toUInt64.toNat = (2^64 - pos.toUInt64.toNat + 0) % 2^64 :=
    BitVec.toNat_sub 0 pos.toBitVec
  rw [hneg]
  split_ifs at hcond <;> omega

/-- What a position means. -/
theorem uPosrelat_toInt (hlen : len < 2^31) : (uPosrelat pos len).toInt =
    if 0 ≤ pos.toInt then pos.toInt else if pos.toInt < -len then 0 else len + pos.toInt + 1 := by
  have hl := toInt_ofNat_len hlen
  have hzero : (0 : Int64).toInt = 0 := rfl
  unfold uPosrelat
  simp only [Int64.le_iff_toInt_le, hzero]
  by_cases hpos : 0 ≤ pos.toInt
  · rw [if_pos hpos, if_pos hpos]
  have hneg := @toUInt64_neg_of_neg pos (by omega)
  have hlen64 := toUInt64_of_nonneg (v := Int64.ofNat len) (by omega)
  simp only [UInt64.lt_iff_toNat_lt]
  rw [if_neg hpos, if_neg hpos]
  by_cases hbefore : pos.toInt < -len
  · rw [if_pos (by omega), if_pos hbefore, hzero]
  · rw [if_neg (by omega), if_neg hbefore, fromEnd_toInt hlen (by omega) (by omega)]

/-- The position before, as an index. -/
theorem index_of_pos (hlo : 1 ≤ pos.toInt) (hhi : pos.toInt ≤ 2^31) :
    (wrap (pos - 1) : ℤ) = pos.toInt - 1 ∧ (wrap pos : ℤ) = pos.toInt := by
  have hone : (1 : Int64).toInt = 1 := rfl
  have hsub : (pos - 1).toInt = pos.toInt - 1 := by
    rw [toInt_sub_of_bounds (by omega) (by omega), hone]
  constructor
  · rw [wrap_of_bounds (by omega) (by omega), hsub]
  · rw [wrap_of_bounds (by omega) (by omega)]

/-! ## Reads -/

theorem safely_contAt (h : p < bytes.length) : Safely (contAt bytes p) fun _ => True := by
  unfold contAt
  rw [List.getElem?_eq_getElem h]
  exact avoids_ok trivial

theorem contIfInside_safe (bytes : List UInt8) (p : ℕ) : Safely (contIfInside bytes p) fun _ => True := by
  unfold contIfInside
  split
  · exact safely_contAt ‹_›
  · exact avoids_ok trivial

/-- Decoding reads inside the string, and so does taking the value of what has been found. -/
theorem decode_inside (bytes : List UInt8) (p : ℕ) (lax : Bool) : ∃ w, utf8DecodeStep bytes p lax = some w ∧
    (w ≠ 0 → (∃ cp, utf8Assemble bytes p w = some cp) ∧ p + w ≤ bytes.length) := by
  obtain ⟨w, hw⟩ := decodeStep_total bytes p lax
  refine ⟨w, hw, fun hpos => ?_⟩
  obtain ⟨v, hcoded, -⟩ := coded_of_accepted hw hpos
  obtain ⟨b, -, -, -, hlen, -⟩ := hcoded.split
  exact ⟨⟨_, (assemble_of_coded hcoded).1⟩, hlen⟩

/-! ## Loops -/

/-- The codes that the first loop counts are there for the second. -/
theorem countFrom_safe (bytes : List UInt8) (lax : Bool) (j p count : ℕ) :
    Safely (countFrom bytes lax j p count) fun r =>
      count ≤ r ∧ Safely (assembleCodes bytes lax (r - count) p) fun _ => True := by
  induction p, count using countFrom.induct (j := j) with
  | case1 p count h =>
    unfold countFrom
    rw [dif_pos h]
    refine avoids_ok ⟨le_refl _, ?_⟩
    rw [Nat.sub_self]
    exact avoids_ok trivial
  | case2 p count h ih =>
    obtain ⟨w, hw, hinside⟩ := decode_inside bytes p lax
    unfold countFrom
    rw [dif_neg h, hw]
    simp only [orTrap, ok_bind]
    by_cases hzero : w = 0
    · rw [dif_pos hzero]
      exact safely_raise
    rw [dif_neg hzero]
    refine (ih w hzero).mono fun r hr => ⟨by omega, ?_⟩
    -- one more code to take the value of
    obtain ⟨cp, hcp⟩ := (hinside hzero).1
    have hcount : r - count = r - (count + 1) + 1 := by omega
    rw [hcount]
    unfold assembleCodes
    rw [hw]
    simp only [orTrap, ok_bind, hcp]
    exact hr.2.bind fun rest _ => avoids_ok trivial

theorem lenFrom_safe (bytes : List UInt8) (lax : Bool) (last : ℤ) (p count : ℕ) :
    Safely (lenFrom bytes lax last p count) fun _ => True := by
  induction p, count using lenFrom.induct last with
  | case1 p count h =>
    unfold lenFrom
    rw [dif_pos h]
    exact avoids_ok trivial
  | case2 p count h ih =>
    obtain ⟨w, hw, -⟩ := decode_inside bytes p lax
    unfold lenFrom
    rw [dif_neg h, hw]
    simp only [orTrap, ok_bind]
    by_cases hzero : w = 0
    · rw [dif_pos hzero]
      exact avoids_ok trivial
    · rw [dif_neg hzero]
      exact ih w hzero

/-- Where the skipping loops stop. -/
theorem skipForward_safe (bytes : List UInt8) (p : ℕ) :
    Safely (skipForward bytes p) fun q => p ≤ q ∧ (p ≤ bytes.length → q ≤ bytes.length) := by
  induction p using skipForward.induct bytes with
  | case1 p h =>
    unfold skipForward
    rw [dif_pos h]
    exact avoids_ok ⟨le_refl p, id⟩
  | case2 p h ih =>
    unfold skipForward
    rw [dif_neg h]
    apply (safely_contAt (by omega)).bind
    intro c _
    cases c with
    | true => exact ih.mono fun q hq => ⟨by omega, fun _ => hq.2 (by omega)⟩
    | false => exact avoids_ok ⟨le_refl p, id⟩

theorem lastFrom_safe (bytes : List UInt8) (e : ℕ) : Safely (lastFrom bytes e) fun _ => True := by
  induction e using lastFrom.induct bytes with
  | case1 e h =>
    unfold lastFrom
    rw [dif_pos h]
    exact avoids_ok trivial
  | case2 e h ih =>
    unfold lastFrom
    rw [dif_neg h]
    apply (safely_contAt (by omega)).bind
    intro c _
    cases c with
    | true => exact ih
    | false => exact avoids_ok trivial

theorem skipBack_safe (h : p < bytes.length) : Safely (skipBack bytes p) fun q => q ≤ p := by
  induction p with
  | zero => exact avoids_ok (le_refl 0)
  | succ p ih =>
    unfold skipBack
    apply (safely_contAt h).bind
    intro c _
    cases c with
    | true => exact (ih (by omega)).mono fun q hq => by omega
    | false => exact avoids_ok (le_refl _)

theorem walkBack_safe (h : p ≤ bytes.length) : Safely (walkBack bytes p) fun q => q ≤ bytes.length := by
  induction p with
  | zero => exact avoids_ok h
  | succ p ih =>
    unfold walkBack
    by_cases hend : bytes.length ≤ p + 1
    · rw [if_pos hend]
      exact avoids_ok h
    rw [if_neg hend]
    apply (safely_contAt (by omega)).bind
    intro c _
    cases c with
    | true => exact ih (by omega)
    | false => exact avoids_ok h

theorem moveBack_safe (n : ℕ) (h : p ≤ bytes.length) : Safely (moveBack bytes n p) fun r => r.2 ≤ bytes.length := by
  induction n generalizing p with
  | zero => exact avoids_ok h
  | succ n ih =>
    cases p with
    | zero => exact avoids_ok h
    | succ p =>
      unfold moveBack
      exact (skipBack_safe h).bind fun q hq => ih (by omega)

theorem moveForward_safe (n : ℕ) (h : p ≤ bytes.length) :
    Safely (moveForward bytes n p) fun r => r.2 ≤ bytes.length := by
  induction n generalizing p with
  | zero => exact avoids_ok h
  | succ n ih =>
    unfold moveForward
    by_cases hend : bytes.length ≤ p
    · rw [if_pos hend]
      exact avoids_ok h
    · rw [if_neg hend]
      exact (skipForward_safe bytes (p + 1)).bind fun q hq => ih (hq.2 (by omega))

theorem offsetLast_safe (bytes : List UInt8) (p : ℕ) : Safely (offsetLast bytes p) fun _ => True := by
  unfold offsetLast
  by_cases hend : p < bytes.length
  · rw [if_pos hend, List.getElem?_eq_getElem hend]
    simp only [orTrap, ok_bind]
    split
    · split
      · exact safely_raise
      · exact lastFrom_safe bytes p
    · exact avoids_ok trivial
  · rw [if_neg hend]
    exact avoids_ok trivial

theorem offsetResult_safe (bytes : List UInt8) (p : ℕ) : Safely (utf8OffsetResult bytes p) fun _ => True :=
  (offsetLast_safe bytes p).bind fun _ _ => avoids_ok trivial

theorem moveBy_safe (n : Int64) (h : p ≤ bytes.length) : Safely (moveBy bytes n p) fun r => r.2 ≤ bytes.length := by
  unfold moveBy
  split
  · exact moveBack_safe _ h
  · exact moveForward_safe _ h

/-- A step of the iterator goes on inside the string. -/
theorem codesIter_safe (bytes : List UInt8) (ctrl : Int64) (hlen : bytes.length < 2^31) :
    Safely (utf8CodesIter bytes ctrl) fun r => ∀ pos cp, r = some (pos, cp) →
      ctrl.toInt < pos ∧ pos ≤ bytes.length := by
  have hl := toInt_ofNat_len hlen
  have hzero : (0 : Int64).toInt = 0 := rfl
  unfold utf8CodesIter
  simp only [Int64.lt_iff_toInt_lt, Int64.le_iff_toInt_le, hl, hzero]
  by_cases hrange : ctrl.toInt < 0 ∨ (bytes.length : ℤ) ≤ ctrl.toInt
  · rw [if_pos hrange]
    exact avoids_ok nofun
  have hwrap := wrap_of_bounds (v := ctrl) (by omega) (by omega)
  rw [if_neg hrange]
  apply (skipForward_safe bytes (wrap ctrl)).bind
  intro n hn
  by_cases hend : bytes.length ≤ n
  · rw [if_pos hend]
    exact avoids_ok nofun
  obtain ⟨w, hw, hinside⟩ := decode_inside bytes n false
  rw [if_neg hend, hw]
  simp only [orTrap, ok_bind]
  by_cases hpos : w = 0
  · rw [if_pos hpos]
    exact safely_raise
  rw [if_neg hpos]
  obtain ⟨⟨cp, hcp⟩, -⟩ := hinside hpos
  apply (contIfInside_safe bytes (n + w)).bind
  intro stray _
  cases stray with
  | true => exact safely_raise
  | false =>
    rw [hcp]
    apply avoids_ok
    rintro pos cp' ⟨⟩
    constructor
    · omega
    · omega

/-- The `for` loop ends: each step goes on. -/
theorem codesFrom_safe (bytes : List UInt8) (hlen : bytes.length < 2^31) (fuel : ℕ) (ctrl : Int64)
    (hlo : 0 ≤ ctrl.toInt) (hfuel : bytes.length - ctrl.toInt < fuel) (hpos : 0 < fuel) :
    Safely (codesFrom bytes fuel ctrl) fun _ => True := by
  induction fuel generalizing ctrl with
  | zero => omega
  | succ fuel ih =>
    unfold codesFrom
    apply (codesIter_safe bytes ctrl hlen).bind
    rintro (_ | ⟨pos, cp⟩) hr
    · exact avoids_ok trivial
    · obtain ⟨hon, hin⟩ := hr pos cp rfl
      have hval : (Int64.ofNat pos).toInt = pos := toInt_ofNat_len (by omega)
      refine (ih (Int64.ofNat pos) (by omega) (by omega) (by omega)).bind fun rest _ => ?_
      exact avoids_ok trivial

/-! ## Functions -/

theorem utf8Codepoint_safe (bytes : List UInt8) (i j : Option Int64) (lax : Bool) :
    Safely (utf8Codepoint bytes i j lax) fun _ => True := by
  unfold utf8Codepoint
  dsimp only
  split
  · exact safely_raise
  split
  · exact safely_raise
  split
  · exact avoids_ok trivial
  apply (countFrom_safe bytes lax _ _ 0).bind
  rintro count ⟨-, hrest⟩
  rw [Nat.sub_zero] at hrest
  exact hrest

theorem utf8Codes_safe (bytes : List UInt8) (hlen : bytes.length < 2^31) (lax : Bool) :
    Safely (utf8Codes bytes lax) fun _ => True := by
  have hzero : (0 : Int64).toInt = 0 := rfl
  unfold utf8Codes
  apply (contIfInside_safe bytes 0).bind
  intro first _
  cases first with
  | true => exact safely_raise
  | false => exact codesFrom_safe bytes hlen _ 0 (by omega) (by omega) (by omega)

theorem utf8Offset_safe (bytes : List UInt8) (hlen : bytes.length < 2^31) (n : Int64) (i : Option Int64) :
    Safely (utf8Offset bytes n i) fun _ => True := by
  have hl := toInt_ofNat_len hlen
  have hone : (1 : Int64).toInt = 1 := rfl
  unfold utf8Offset
  dsimp only
  generalize offsetStart bytes.length n i = posi
  by_cases hrange : 1 ≤ posi ∧ posi - 1 ≤ Int64.ofNat bytes.length
  · have hlo : 1 ≤ posi.toInt := by
      have h := Int64.le_iff_toInt_le.mp hrange.1
      omega
    have hhi := Int64.le_iff_toInt_le.mp hrange.2
    have hmax := Int64.toInt_lt posi
    rw [toInt_sub_of_bounds (by omega) (by omega), hone, hl] at hhi
    have hp : wrap (posi - 1) ≤ bytes.length := by
      have h := (index_of_pos hlo (by omega)).1
      omega
    have hdone : ∀ q ≤ bytes.length, Safely (utf8OffsetResult bytes q >>= fun r => pure (some r)) fun _ => True :=
      fun q _ => (offsetResult_safe bytes q).bind fun r _ => avoids_ok trivial
    rw [if_neg (not_not.mpr hrange)]
    by_cases hn : n = 0
    · rw [if_pos hn]
      exact (walkBack_safe hp).bind hdone
    rw [if_neg hn]
    apply (contIfInside_safe bytes _).bind
    intro c _
    cases c with
    | true => exact safely_raise
    | false =>
      rw [if_neg Bool.false_ne_true]
      apply (moveBy_safe n hp).bind
      rintro ⟨left, q⟩ hq
      split
      · exact avoids_ok trivial
      · exact hdone q hq
  · rw [if_pos hrange]
    exact safely_raise

theorem utf8Len_safe (bytes : List UInt8) (i j : Option Int64) (lax : Bool) :
    Safely (utf8Len bytes i j lax) fun _ => True := by
  unfold utf8Len
  dsimp only
  split
  · exact safely_raise
  split
  · exact safely_raise
  · exact lenFrom_safe bytes lax _ _ 0

/-- The functions do not trap, and the `for` loop ends. -/
structure InBounds (s : ByteString) : Prop where
  codepoint : ∀ i j lax, utf8Codepoint s.1 i j lax ≠ .error .stuck
  codesIter : ∀ ctrl, utf8CodesIter s.1 ctrl ≠ .error .stuck
  codes : ∀ lax, utf8Codes s.1 lax ≠ .error .stuck
  offset : ∀ n i, utf8Offset s.1 n i ≠ .error .stuck
  len : ∀ i j lax, utf8Len s.1 i j lax ≠ .error .stuck

theorem utf8_inBounds (s : ByteString) : InBounds s where
  codepoint i j lax := (utf8Codepoint_safe s.1 i j lax).1
  codesIter ctrl := (codesIter_safe s.1 ctrl s.2).1
  codes lax := (utf8Codes_safe s.1 s.2 lax).1
  offset n i := (utf8Offset_safe s.1 s.2 n i).1
  len i j lax := (utf8Len_safe s.1 i j lax).1

end Lua2wasm.Utf8
