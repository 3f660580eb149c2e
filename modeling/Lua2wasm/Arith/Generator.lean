import Lua2wasm.Arith.Random
import Lua2wasm.Lib.Mixing

/-!
# The generator never gets stuck

The transition of xoshiro256** loses nothing (`rngStep_bijective`), and the state without bits is the only one that it
does not leave (`rngStep_eq_self_iff`). No seed leads to that state: SplitMix64 loses nothing either, so two words of
different seeds are not both 0 (`seeded_ne_zero`).
-/

namespace Lua2wasm.Arith

open Mixing

/-- The transition of `$rng_next`. -/
def rngStep (g : Rng) : Rng := (rngNext g).2

/-- The state without bits. -/
def Rng.zero : Rng := ⟨0, 0, 0, 0⟩

/-- The state after some calls of `math.random`, with the arguments of each. -/
def afterDraws (g : Rng) (draws : List (List Int64)) : Rng := draws.foldl (fun g args => (mathRandom args g).2) g

variable {g h : Rng} {x y : UInt64}

/-! ## Steps on words -/

theorem rotl_45_injective : Function.Injective fun x => rotl x 45 := by
  intro x y h
  exact UInt64.toBitVec_inj.mp (rotated_injective (w := 64) (k := 45) (by norm_num) (congrArg UInt64.toBitVec h))

theorem xorShl_17_injective : Function.Injective fun x : UInt64 => x ^^^ x <<< 17 := by
  intro x y h
  exact UInt64.toBitVec_inj.mp (xorShiftLeft_injective (w := 64) (k := 17) (by norm_num) (congrArg UInt64.toBitVec h))

/-- SplitMix64 loses nothing: the constants are odd. -/
theorem rngSplitmix64_injective : Function.Injective rngSplitmix64 := by
  intro x y h
  have hlast := xorShiftRight_injective (w := 64) (k := 31) (by norm_num) (congrArg UInt64.toBitVec h)
  have hmul := mul_injective (w := 64) (c := 0x94D049BB133111EB) (d := 0x319642b2d24d8ec3) (by decide) hlast
  have hmid := xorShiftRight_injective (w := 64) (k := 27) (by norm_num) hmul
  have hmul' := mul_injective (w := 64) (c := 0xBF58476D1CE4E5B9) (d := 0x96de1b173f119089) (by decide) hmid
  have hfirst := xorShiftRight_injective (w := 64) (k := 30) (by norm_num) hmul'
  exact UInt64.add_left_inj _ |>.mp (UInt64.toBitVec_inj.mp hfirst)

/-! ## The transition -/

theorem rngStep_injective : Function.Injective rngStep := by
  intro g h heq
  have h0 : g.s0 ^^^ (g.s3 ^^^ g.s1) = h.s0 ^^^ (h.s3 ^^^ h.s1) := congrArg Rng.s0 heq
  have h1 : g.s1 ^^^ (g.s2 ^^^ g.s0) = h.s1 ^^^ (h.s2 ^^^ h.s0) := congrArg Rng.s1 heq
  have h2 : g.s2 ^^^ g.s0 ^^^ g.s1 <<< 17 = h.s2 ^^^ h.s0 ^^^ h.s1 <<< 17 := congrArg Rng.s2 heq
  have h3 : g.s3 ^^^ g.s1 = h.s3 ^^^ h.s1 := rotl_45_injective (congrArg Rng.s3 heq)
  rw [h3] at h0
  have hs0 : g.s0 = h.s0 := (UInt64.xor_left_inj _).mp h0
  -- the words that hide `s1` and `s2` add up to `s1` and its shift
  have hs1 : g.s1 = h.s1 := by
    apply xorShl_17_injective
    calc g.s1 ^^^ g.s1 <<< 17 = g.s1 ^^^ (g.s2 ^^^ g.s0) ^^^ (g.s2 ^^^ g.s0 ^^^ g.s1 <<< 17) := by
          rw [UInt64.xor_assoc g.s1, ← UInt64.xor_assoc (g.s2 ^^^ g.s0), UInt64.xor_self, UInt64.zero_xor]
      _ = h.s1 ^^^ (h.s2 ^^^ h.s0) ^^^ (h.s2 ^^^ h.s0 ^^^ h.s1 <<< 17) := by rw [h1, h2]
      _ = h.s1 ^^^ h.s1 <<< 17 := by
          rw [UInt64.xor_assoc h.s1, ← UInt64.xor_assoc (h.s2 ^^^ h.s0), UInt64.xor_self, UInt64.zero_xor]
  rw [hs1, hs0] at h2
  rw [hs1] at h3
  have hs2 : g.s2 = h.s2 := (UInt64.xor_left_inj _).mp ((UInt64.xor_left_inj _).mp h2)
  have hs3 : g.s3 = h.s3 := (UInt64.xor_left_inj _).mp h3
  calc g = ⟨g.s0, g.s1, g.s2, g.s3⟩ := rfl
    _ = ⟨h.s0, h.s1, h.s2, h.s3⟩ := by rw [hs0, hs1, hs2, hs3]
    _ = h := rfl

/-- The words of a state. -/
def Rng.words : Rng ≃ UInt64 × UInt64 × UInt64 × UInt64 where
  toFun g := (g.s0, g.s1, g.s2, g.s3)
  invFun w := ⟨w.1, w.2.1, w.2.2.1, w.2.2.2⟩
  left_inv _ := rfl
  right_inv _ := rfl

instance finite_word : Finite UInt64 := Finite.of_injective UInt64.toBitVec fun _ _ => UInt64.toBitVec_inj.mp

instance : Finite Rng := Finite.of_equiv _ Rng.words.symm

/-- Every state is the successor of exactly one. -/
theorem rngStep_bijective : Function.Bijective rngStep := Finite.injective_iff_bijective.mp rngStep_injective

theorem rngStep_zero : rngStep Rng.zero = Rng.zero := by decide

theorem rngStep_eq_zero_iff : rngStep g = Rng.zero ↔ g = Rng.zero := by
  constructor
  · intro h
    exact rngStep_injective (h.trans rngStep_zero.symm)
  · rintro rfl
    exact rngStep_zero

/-- Only the state without bits is its own successor. -/
theorem rngStep_eq_self_iff : rngStep g = g ↔ g = Rng.zero := by
  constructor
  · intro heq
    have h0 : g.s0 ^^^ (g.s3 ^^^ g.s1) = g.s0 := congrArg Rng.s0 heq
    have h2 : g.s2 ^^^ g.s0 ^^^ g.s1 <<< 17 = g.s2 := congrArg Rng.s2 heq
    have h1 : g.s1 ^^^ (g.s2 ^^^ g.s0) = g.s1 := congrArg Rng.s1 heq
    have h3 : rotl (g.s3 ^^^ g.s1) 45 = g.s3 := congrArg Rng.s3 heq
    have h31 : g.s3 ^^^ g.s1 = 0 := UInt64.xor_right_inj g.s0 |>.mp (h0.trans UInt64.xor_zero.symm)
    have hs3 : g.s3 = 0 := by
      rw [← h3, h31]
      decide
    have hs1 : g.s1 = 0 := by
      rw [hs3, UInt64.zero_xor] at h31
      exact h31
    have h20 : g.s2 ^^^ g.s0 = 0 := UInt64.xor_right_inj g.s1 |>.mp (h1.trans UInt64.xor_zero.symm)
    have hs2 : g.s2 = 0 := by
      rw [← h2, h20, hs1]
      decide
    have hs0 : g.s0 = 0 := by
      rw [hs2, UInt64.zero_xor] at h20
      exact h20
    calc g = ⟨g.s0, g.s1, g.s2, g.s3⟩ := rfl
      _ = Rng.zero := by rw [hs0, hs1, hs2, hs3]; rfl
  · rintro rfl
    exact rngStep_zero

/-! ## Runs -/

/-- A call of `math.random` takes one step, or none if its arguments are out of limits. -/
theorem mathRandom_state (args : List Int64) (g : Rng) :
    (mathRandom args g).2 = rngStep g ∨ mathRandom args g = (.error outOfLimits, g) := by
  have hrange : ∀ lo hi : Int64, (randomInRange lo hi g).2 = rngStep g ∨
      randomInRange lo hi g = (.error outOfLimits, g) := by
    intro lo hi
    unfold randomInRange
    split_ifs
    · exact Or.inr rfl
    · exact Or.inl rfl
  match args with
  | [] => exact Or.inl rfl
  | [hi] =>
    dsimp only [mathRandom]
    split_ifs
    · exact Or.inl rfl
    · exact hrange 1 hi
  | lo :: hi :: _ => exact hrange lo hi

theorem mathRandom_ne_zero (hg : g ≠ Rng.zero) (args : List Int64) : (mathRandom args g).2 ≠ Rng.zero := by
  rcases mathRandom_state args g with h | h
  · rw [h]
    exact fun hzero => hg (rngStep_eq_zero_iff.mp hzero)
  · rw [h]
    exact hg

theorem afterDraws_ne_zero (hg : g ≠ Rng.zero) (draws : List (List Int64)) : afterDraws g draws ≠ Rng.zero := by
  induction draws generalizing g with
  | nil => exact hg
  | cons args draws ih => exact ih (mathRandom_ne_zero hg args)

/-- Two words of a seeded state come from a seed and its successor. -/
theorem seeded_words (seed : List Int64) : ∃ x, (mathRandomseed seed).s0 = rngSplitmix64 x ∧
    (mathRandomseed seed).s1 = rngSplitmix64 (x + 1) := by
  match seed with
  | [] => exact ⟨0x243F6A8885A308D3, rfl, rfl⟩
  | [x] => exact ⟨x.toUInt64, rfl, rfl⟩
  | x :: _ :: _ => exact ⟨x.toUInt64, rfl, rfl⟩

/-- They are not both 0. -/
theorem seeded_ne_zero (seed : List Int64) : mathRandomseed seed ≠ Rng.zero := by
  intro heq
  obtain ⟨x, h0, h1⟩ := seeded_words seed
  have hzero : rngSplitmix64 x = 0 := h0.symm.trans (congrArg Rng.s0 heq)
  have hsucc : rngSplitmix64 (x + 1) = 0 := h1.symm.trans (congrArg Rng.s1 heq)
  have hsame : x + 1 = x + 0 := by
    rw [UInt64.add_zero]
    exact rngSplitmix64_injective (hsucc.trans hzero.symm)
  exact absurd (UInt64.add_right_inj x |>.mp hsame) (by decide)

/-- From any seed and after any draws the state is not the one without bits, so the next one is another; every state is
the successor of exactly one; and a draw goes on to the successor, unless it raises the error about its limits. -/
theorem generator_never_stuck :
    (∀ (seed : List Int64) (draws : List (List Int64)),
      afterDraws (mathRandomseed seed) draws ≠ Rng.zero ∧
        rngStep (afterDraws (mathRandomseed seed) draws) ≠ afterDraws (mathRandomseed seed) draws) ∧
      Function.Bijective rngStep ∧
      ∀ (args : List Int64) (g : Rng),
        (mathRandom args g).2 = rngStep g ∨ mathRandom args g = (.error outOfLimits, g) := by
  refine ⟨fun seed draws => ?_, rngStep_bijective, mathRandom_state⟩
  have hne := afterDraws_ne_zero (seeded_ne_zero seed) draws
  exact ⟨hne, fun h => hne (rngStep_eq_self_iff.mp h)⟩

end Lua2wasm.Arith
