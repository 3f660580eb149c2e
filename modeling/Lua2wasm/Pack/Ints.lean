import Lua2wasm.Pack.Items
import Lua2wasm.Table.Shapes

/-!
# Integers in bytes

What `$pack_write_int` writes, `$pack_read_int` reads back, in both byte orders: the low bytes
(`packReadInt_written`). From these the value comes back when it fits, by its sign (`signext_low`) or
as it is (`low_of_fits`), and the bytes beyond the eighth are the ones that `$pack_check_fit` looks for
(`packCheckFit_written`).
-/

namespace Lua2wasm.Pack

open Table (Fault setAt setAt_of_lt)

variable {buf : List UInt8} {off n k i : ℕ} {le : Bool} {val : BitVec 64}

/-- The bytes of an integer. -/
def intBytes (n : ℕ) (le : Bool) (val : BitVec 64) : List UInt8 :=
  if le then (List.range n).map (packByte val) else ((List.range n).map (packByte val)).reverse

theorem length_intBytes (n : ℕ) (le : Bool) (val : BitVec 64) : (intBytes n le val).length = n := by
  unfold intBytes
  split <;> simp

/-- The byte at a place of the bytes. -/
theorem getElem?_intBytes (hi : i < n) :
    (intBytes n le val)[if le then i else n - 1 - i]? = some (packByte val i) := by
  unfold intBytes
  cases le with
  | true => simp [hi]
  | false =>
    simp only [Bool.false_eq_true, if_false]
    rw [List.getElem?_reverse (by simp; omega)]
    simp only [List.length_map, List.length_range]
    have hback : n - 1 - (n - 1 - i) = i := by omega
    rw [hback]
    simp [hi]

theorem packIdx_eq (h : off + n ≤ 2^32) (hi : i < n) : packIdx off n le i = off + if le then i else n - 1 - i := by
  unfold packIdx u32
  apply Nat.mod_eq_of_lt
  split <;> omega

/-- Each turn of the loop writes one byte of the integer, and nothing outside of it. -/
theorem packWriteFrom_spec (le : Bool) (val : BitVec 64) (hoff : off + n ≤ 2^32) :
    ∀ (todo i : ℕ) (buf : List UInt8), off + n ≤ buf.length → i + todo = n →
      ∃ buf', packWriteFrom off n le val todo i buf = some buf' ∧ buf'.length = buf.length ∧
        (∀ j, i ≤ j → j < n → buf'[packIdx off n le j]? = some (packByte val j)) ∧
        (∀ q, (∀ j, i ≤ j → j < n → q ≠ packIdx off n le j) → buf'[q]? = buf[q]?) := by
  intro todo
  induction todo with
  | zero =>
    intro i buf _ hi
    refine ⟨buf, rfl, rfl, ?_, fun _ _ => rfl⟩
    intro j hij hjn
    omega
  | succ todo ih =>
    intro i buf hlen hi
    have hidx : packIdx off n le i < buf.length := by
      rw [packIdx_eq hoff (by omega)]
      split <;> omega
    obtain ⟨buf', hrun, hlen', hbytes, hrest⟩ := ih (i + 1) (buf.set (packIdx off n le i) (packByte val i))
      (by rw [List.length_set]; exact hlen) (by omega)
    refine ⟨buf', ?_, ?_, ?_, ?_⟩
    · unfold packWriteFrom
      rw [setAt_of_lt hidx]
      exact hrun
    · rw [hlen', List.length_set]
    · intro j hij hjn
      by_cases heq : j = i
      · subst heq
        rw [hrest]
        · exact List.getElem?_set_self hidx
        · -- the bytes that follow are elsewhere
          intro j' hj hj' hne
          rw [packIdx_eq hoff hjn, packIdx_eq hoff hj'] at hne
          split at hne <;> omega
      · exact hbytes j (by omega) hjn
    · intro q hq
      rw [hrest q fun j hj hjn => hq j (by omega) hjn]
      exact List.getElem?_set_ne (Ne.symm (hq i (Nat.le_refl i) (by omega)))

/-- `$pack_write_int` into room at the end. -/
theorem packWriteInt_spec {b : List UInt8} (hoff : b.length + n ≤ 2^32) :
    packWriteInt (b ++ List.replicate n 0) b.length n le val = some (b ++ intBytes n le val) := by
  obtain ⟨buf', hrun, hlen, hbytes, hrest⟩ := packWriteFrom_spec le val hoff n 0
    (b ++ List.replicate n 0) (by simp) (by omega)
  unfold packWriteInt
  rw [hrun]
  congr 1
  apply List.ext_getElem?
  intro q
  by_cases hlo : q < b.length
  · rw [hrest q]
    · rw [List.getElem?_append_left hlo, List.getElem?_append_left hlo]
    · intro j _ hj heq
      rw [packIdx_eq hoff hj] at heq
      omega
  · by_cases hhi : q < b.length + n
    · -- the byte that belongs here
      obtain ⟨j, hj, hq⟩ : ∃ j, j < n ∧ q = b.length + if le then j else n - 1 - j := by
        cases le with
        | true => exact ⟨q - b.length, by omega, by simp; omega⟩
        | false => exact ⟨n - 1 - (q - b.length), by omega, by simp; omega⟩
      rw [hq, ← packIdx_eq hoff hj, hbytes j (Nat.zero_le j) hj, packIdx_eq hoff hj,
        List.getElem?_append_right (by omega), Nat.add_sub_cancel_left, getElem?_intBytes hj]
    · rw [List.getElem?_eq_none (by rw [hlen]; simp; omega),
        List.getElem?_eq_none (by rw [List.length_append, length_intBytes]; omega)]

/-- The low `m` bytes of an integer. -/
def low (m : ℕ) (val : BitVec 64) : BitVec 64 := (val.setWidth (8 * m)).setWidth 64

theorem low_step (hi : i < 8) :
    low i val ||| ((packByte val i).toBitVec.setWidth 64 <<< (i * 8)) = low (i + 1) val := by
  apply BitVec.eq_of_getLsbD_eq
  intro q hq
  unfold low packByte
  rw [if_pos hi]
  simp only [BitVec.getLsbD_or, BitVec.getLsbD_shiftLeft, BitVec.getLsbD_setWidth,
    BitVec.getLsbD_ushiftRight, hq, decide_true, Bool.true_and]
  by_cases hlo : q < i * 8
  · simp [hlo, show q < 8 * i by omega, show q < 8 * (i + 1) by omega]
  · have hback : i * 8 + (q - i * 8) = q := by omega
    by_cases hhi : q < 8 * (i + 1)
    · simp [hlo, hhi, hback, show ¬ q < 8 * i by omega, show q - i * 8 < 8 by omega, show q - i * 8 < 64 by omega]
    · simp [hlo, hhi, show ¬ q < 8 * i by omega, show ¬ q - i * 8 < 8 by omega]

/-- The loop of `$pack_read_int` puts the bytes together. -/
theorem packReadFrom_spec :
    ∀ (todo i : ℕ), i + todo ≤ 8 → (∀ j, i ≤ j → j < i + todo → buf[packIdx off n le j]? = some (packByte val j)) →
      packReadFrom buf off n le todo i (low i val) = some (low (i + todo) val) := by
  intro todo
  induction todo with
  | zero =>
    intro i _ _
    rfl
  | succ todo ih =>
    intro i hi hbytes
    unfold packReadFrom
    rw [hbytes i (Nat.le_refl i) (by omega)]
    dsimp only
    rw [low_step (by omega), ih (i + 1) (by omega) fun j hj hj' => hbytes j (by omega) (by omega)]
    congr 2
    omega

/-- `$pack_read_int` reads the low bytes of what was written. -/
theorem packReadInt_written (hbytes : ∀ j, j < n → buf[packIdx off n le j]? = some (packByte val j)) :
    packReadInt buf off n le = some (low (min n 8) val) := by
  have hread : packReadFrom buf off n le (min n 8) 0 (low 0 val) = some (low (0 + min n 8) val) :=
    packReadFrom_spec (min n 8) 0 (by omega) fun j _ hj => hbytes j (by omega)
  have hzero : low 0 val = 0 := by
    unfold low
    apply BitVec.eq_of_getLsbD_eq
    intro q hq
    simp
  unfold packReadInt
  rw [← hzero, hread, Nat.zero_add]

theorem low_all (h : 8 ≤ n) : low (min n 8) val = val := by
  unfold low
  rw [Nat.min_eq_right h]
  simp

/-- An unsigned integer that fits is its low bytes. -/
theorem low_of_fits (hfits : packFitsUnsigned val n = true) : low (min n 8) val = val := by
  by_cases h8 : 8 ≤ n
  · exact low_all h8
  · unfold packFitsUnsigned at hfits
    simp only [h8, decide_false, Bool.false_or, decide_eq_true_eq] at hfits
    rw [Nat.min_eq_left (by omega)]
    unfold low
    apply BitVec.eq_of_getLsbD_eq
    intro q hq
    simp only [BitVec.getLsbD_setWidth, hq, decide_true, Bool.true_and]
    by_cases hlo : q < 8 * n
    · simp [hlo]
    · -- the bits from here on are zero
      have hbit : (val >>> (n * 8)).getLsbD (q - n * 8) = false := by
        rw [hfits]
        simp
      rw [BitVec.getLsbD_ushiftRight, show n * 8 + (q - n * 8) = q by omega] at hbit
      simp [hlo, hbit]

/-- A signed integer that fits is its low bytes with its sign. -/
theorem signext_low (hfits : packFitsSigned val n = true) : packSignext (low (min n 8) val) n = val := by
  unfold packSignext
  unfold packFitsSigned at hfits
  by_cases h8 : 8 ≤ n
  · rw [if_pos h8, low_all h8]
  · simp only [h8, decide_false, Bool.false_or, decide_eq_true_eq] at hfits
    rw [if_neg h8, Nat.min_eq_left (by omega)]
    have hshift : low n val <<< ((8 - n) * 8) = val <<< ((8 - n) * 8) := by
      unfold low
      apply BitVec.eq_of_getLsbD_eq
      intro q hq
      simp only [BitVec.getLsbD_shiftLeft, BitVec.getLsbD_setWidth, hq, decide_true, Bool.true_and]
      by_cases hlo : q < (8 - n) * 8
      · simp [hlo]
      · simp [hlo, show q - (8 - n) * 8 < 64 by omega, show q - (8 - n) * 8 < 8 * n by omega]
    rw [hshift, ← hfits]

/-- The bytes beyond the eighth repeat the sign. -/
theorem packByte_of_le (h : 8 ≤ i) : packByte val i = if val.msb then 255 else 0 := by
  unfold packByte
  rw [if_neg (by omega)]

/-- `$pack_check_fit` accepts what was written, if the sign is not lost. -/
theorem packCheckFit_written {signed : Bool} (hbytes : ∀ j, j < n → buf[packIdx off n le j]? = some (packByte val j))
    (hsign : 8 < n → signed = true ∨ val.msb = false) :
    packCheckFit buf off n le signed (low (min n 8) val) = .ok () := by
  unfold packCheckFit
  by_cases h8 : 8 < n
  · rw [low_all (by omega)]
    have hfill : packFill signed val = if val.msb then 255 else 0 := by
      unfold packFill
      obtain rfl | hmsb := hsign h8
      · simp
      · simp [hmsb]
    have hloop : ∀ (todo i : ℕ), 8 ≤ i → i + todo = n →
        packCheckFrom buf off n le (packFill signed val) todo i = .ok () := by
      intro todo
      induction todo with
      | zero =>
        intro i _ _
        rfl
      | succ todo ih =>
        intro i hi htodo
        unfold packCheckFrom
        rw [hbytes i (by omega)]
        dsimp only
        rw [packByte_of_le hi, hfill, if_neg (by simp), ← hfill]
        exact ih (i + 1) (by omega) (by omega)
    exact hloop (n - 8) 8 (Nat.le_refl 8) (by omega)
  · rw [show n - 8 = 0 by omega]
    rfl

end Lua2wasm.Pack
