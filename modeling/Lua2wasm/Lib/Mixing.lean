import Mathlib

/-!
# Operations that mix the bits of a word

The steps that random number generators and hash functions are made of lose nothing: adding a word to its shift by
exclusive or, rotating, and multiplying by a word that has an inverse are injective, and so bijections of the words.
-/

namespace Mixing

variable {w k : ℕ} {x y c d : BitVec w}

/-- A word that is its own shift has no bits. -/
theorem eq_zero_of_eq_shiftLeft (hk : 0 < k) (h : x = x <<< k) : x = 0#w := by
  have hall : ∀ n, x = x <<< (k * n) := by
    intro n
    induction n with
    | zero => simp
    | succ n ih =>
      calc x = x <<< k := h
        _ = x <<< (k * n) <<< k := by rw [← ih]
        _ = x <<< (k * (n + 1)) := by rw [← BitVec.shiftLeft_add, Nat.mul_succ]
  rw [hall w]
  exact BitVec.shiftLeft_eq_zero (Nat.le_mul_of_pos_left w hk)

theorem eq_zero_of_eq_ushiftRight (hk : 0 < k) (h : x = x >>> k) : x = 0#w := by
  have hall : ∀ n, x = x >>> (k * n) := by
    intro n
    induction n with
    | zero => simp
    | succ n ih =>
      calc x = x >>> k := h
        _ = x >>> (k * n) >>> k := by rw [← ih]
        _ = x >>> (k * (n + 1)) := by rw [← BitVec.shiftRight_add, Nat.mul_succ]
  rw [hall w]
  exact BitVec.ushiftRight_eq_zero (Nat.le_mul_of_pos_left w hk)

theorem xor_eq_of_xor_eq {a b a' b' : BitVec w} (h : a ^^^ b = a' ^^^ b') : a ^^^ a' = b ^^^ b' := by
  calc a ^^^ a' = a ^^^ b ^^^ b ^^^ a' := by rw [BitVec.xor_assoc a, BitVec.xor_self, BitVec.xor_zero]
    _ = b' ^^^ b ^^^ (a' ^^^ a') := by rw [h]; ac_rfl
    _ = b ^^^ b' := by rw [BitVec.xor_self, BitVec.xor_zero, BitVec.xor_comm]

/-- A word and its shift to the left. -/
theorem xorShiftLeft_injective (hk : 0 < k) : Function.Injective fun x : BitVec w => x ^^^ x <<< k := by
  intro x y h
  have hdiff := xor_eq_of_xor_eq h
  rw [← BitVec.shiftLeft_xor_distrib] at hdiff
  exact BitVec.xor_eq_zero_iff.mp (eq_zero_of_eq_shiftLeft hk hdiff)

/-- A word and its shift to the right. -/
theorem xorShiftRight_injective (hk : 0 < k) : Function.Injective fun x : BitVec w => x ^^^ x >>> k := by
  intro x y h
  have hdiff := xor_eq_of_xor_eq h
  rw [← BitVec.ushiftRight_xor_distrib] at hdiff
  exact BitVec.xor_eq_zero_iff.mp (eq_zero_of_eq_ushiftRight hk hdiff)

/-- A bit of a word, in the rotated word. -/
theorem getLsbD_rotated {i : ℕ} (hi : i < w) (hk : k ≤ w) :
    (x <<< k ||| x >>> (w - k)).getLsbD (if i + k < w then i + k else i + k - w) = x.getLsbD i := by
  rw [BitVec.getLsbD_or, BitVec.getLsbD_shiftLeft, BitVec.getLsbD_ushiftRight]
  split_ifs with h
  · rw [BitVec.getLsbD_of_ge x (w - k + (i + k)) (by omega), Nat.add_sub_cancel]
    simp [h]
  · rw [show w - k + (i + k - w) = i by omega]
    have hlow : i + k - w < k := by omega
    simp [hlow]

theorem rotated_injective (hk : k ≤ w) : Function.Injective fun x : BitVec w => x <<< k ||| x >>> (w - k) := by
  intro x y h
  refine BitVec.eq_of_getLsbD_eq fun i hi => ?_
  rw [← getLsbD_rotated hi hk, ← getLsbD_rotated (x := y) hi hk]
  exact congrArg (BitVec.getLsbD · _) h

/-- Multiplying by a word with an inverse. -/
theorem mul_injective (h : c * d = 1#w) : Function.Injective fun x : BitVec w => x * c := by
  intro x y hxy
  have hprod := congrArg (· * d) hxy
  simpa only [BitVec.mul_assoc, h, BitVec.mul_one] using hprod

end Mixing
