import Lua2wasm.Arith.Div

/-!
# `math.random`

`runtime/prelude/math.wat`: the generator (xoshiro256**, seeded by SplitMix64) and `math.random`. The number of integers
from `m` to `n` is computed modulo `2^64` and divides the output of the generator. It fits for all ranges but the one of
all integers, for which it is 0 (`rangeSize_toNat`), and `i64.rem_u` traps there: `mathRandom_in_range_iff`.
-/

namespace Lua2wasm.Arith

open Table (Fault)

/-! ## The generator -/

/-- `$g_rng0`, ..., `$g_rng3`. -/
structure Rng where
  s0 : UInt64
  s1 : UInt64
  s2 : UInt64
  s3 : UInt64
  deriving DecidableEq, Repr

/-- The state at the start. -/
def Rng.init : Rng := ⟨0x9E3779B97F4A7C15, 0xBF58476D1CE4E5B9, 0x94D049BB133111EB, 0xD1B54A32D192ED03⟩

/-- `i64.rotl`, by less than 64. -/
def rotl (x k : UInt64) : UInt64 := x <<< k ||| x >>> (64 - k)

/-- `$rng_next`. -/
def rngNext (g : Rng) : UInt64 × Rng :=
  let result := rotl (g.s1 * 5) 7 * 9
  let t := g.s1 <<< 17
  let s2 := g.s2 ^^^ g.s0
  let s3 := g.s3 ^^^ g.s1
  let s1 := g.s1 ^^^ s2
  let s0 := g.s0 ^^^ s3
  (result, ⟨s0, s1, s2 ^^^ t, rotl s3 45⟩)

/-- `$rng_splitmix64`. -/
def rngSplitmix64 (x : UInt64) : UInt64 :=
  let z := x + 0x9E3779B97F4A7C15
  let z := (z ^^^ z >>> 30) * 0xBF58476D1CE4E5B9
  let z := (z ^^^ z >>> 27) * 0x94D049BB133111EB
  z ^^^ z >>> 31

/-- `$builtin_math_randomseed`: the state that the seeds lead to. -/
def mathRandomseed (args : List Int64) : Rng :=
  let (x, y) := match args with
    | [] => (0x243F6A8885A308D3, 0x13198A2E03707344)
    | [x] => (x.toUInt64, 0)
    | x :: y :: _ => (x.toUInt64, y.toUInt64)
  ⟨rngSplitmix64 x, rngSplitmix64 (x + 1), rngSplitmix64 (y + 2), rngSplitmix64 (y + 3)⟩

/-! ## Random numbers -/

/-- What `math.random` returns. -/
inductive RandomNumber
  /-- A float. -/
  | float (q : ℚ)
  /-- An integer. -/
  | int (i : Int64)
  deriving DecidableEq

/-- "out of limits". -/
def outOfLimits : Fault := .raised "out of limits"

/-- `i64.rem_u`. -/
def i64RemU (a b : UInt64) : Except Fault UInt64 := if b = 0 then .error .stuck else .ok (a % b)

/-- `$builtin_math_random`, where it picks an integer of a range. -/
def randomInRange (lo hi : Int64) (g : Rng) : Except Fault RandomNumber × Rng :=
  if hi < lo then (.error outOfLimits, g)
  else
    let range := hi - lo + 1
    let (bits, g) := rngNext g
    (do
      let r ← i64RemU bits range.toUInt64
      .ok (.int (lo + r.toInt64)), g)

/-- `$builtin_math_random`. -/
def mathRandom (args : List Int64) (g : Rng) : Except Fault RandomNumber × Rng :=
  match args with
  | [] =>
    let (bits, g) := rngNext g
    (.ok (.float ((bits >>> 11).toNat / 2^53)), g)
  | [hi] =>
    if hi = 0 then
      let (bits, g) := rngNext g
      (.ok (.int bits.toInt64), g)
    else randomInRange 1 hi g
  | lo :: hi :: _ => randomInRange lo hi g

/-- A state that a program can reach. -/
inductive Rng.Reachable : Rng → Prop
  /-- The start. -/
  | init : Rng.Reachable Rng.init
  /-- `math.randomseed`. -/
  | seeded (args : List Int64) : Rng.Reachable (mathRandomseed args)
  /-- A call of `math.random`. -/
  | called {g : Rng} (h : Rng.Reachable g) (args : List Int64) : Rng.Reachable (mathRandom args g).2

variable {m n : Int64} {g : Rng}

/-- The call returns an integer of the range. -/
def Picks (m n : Int64) (g : Rng) : Prop :=
  ∃ r, (mathRandom [m, n] g).1 = .ok (.int r) ∧ m ≤ r ∧ r ≤ n

/-- Without arguments: the upper 53 bits of the output, as a float from 0 to 1. -/
theorem mathRandom_unit (g : Rng) : ∃ q, (mathRandom [] g).1 = .ok (.float q) ∧ 0 ≤ q ∧ q < 1 := by
  refine ⟨_, rfl, by positivity, ?_⟩
  have hlt : ((rngNext g).1 >>> 11).toNat < 2^53 := by
    rw [UInt64.toNat_shiftRight]
    change (rngNext g).1.toNat >>> 11 < 2^53
    rw [Nat.shiftRight_eq_div_pow]
    have hword := (rngNext g).1.toNat_lt
    omega
  rw [div_lt_one (by positivity)]
  exact_mod_cast hlt

/-! ## The size of a range -/

/-- The size of a range, as a word. -/
theorem rangeSize_toNat (m n : Int64) : ((n - m + 1).toUInt64.toNat : ℤ) = (n.toInt - m.toInt + 1) % 2^64 := by
  rw [toUInt64_toNat, Int64.toInt_add, Int64.toInt_sub]
  have hone : (1 : Int64).toInt = 1 := rfl
  rw [hone, Int.bmod_add_bmod]
  exact Int.bmod_emod

/-- It is 0 for the range of all integers only. -/
theorem rangeSize_eq_zero_iff (h : m ≤ n) : (n - m + 1).toUInt64 = 0 ↔ m = Int64.minValue ∧ n = Int64.maxValue := by
  have hle := Int64.le_iff_toInt_le.mp h
  have hm := m.le_toInt
  have hn := n.toInt_lt
  have hsize := rangeSize_toNat m n
  have hmin : m = Int64.minValue ↔ m.toInt = -2^63 := Int64.toInt_inj.symm
  have hmax : n = Int64.maxValue ↔ n.toInt = 2^63 - 1 := Int64.toInt_inj.symm
  rw [hmin, hmax, ← UInt64.toNat_inj, UInt64.toNat_zero]
  omega

/-- An integer of the range: the lower end plus less than the size. -/
theorem add_toInt_of_lt {r : UInt64} (hr : (r.toNat : ℤ) < n.toInt - m.toInt + 1) :
    (m + r.toInt64).toInt = m.toInt + r.toNat := by
  have hm := m.le_toInt
  have hn := n.toInt_lt
  have hbv : r.toInt64.toInt = (r.toNat : ℤ).bmod (2^64) := BitVec.toInt_eq_toNat_bmod r.toBitVec
  rw [Int64.toInt_add, hbv, Int.add_bmod_bmod]
  apply Int.bmod_eq_of_le <;> norm_num <;> omega

/-- A range that is not the one of all integers. -/
theorem picks_of_size (h : m ≤ n) (hsize : (n - m + 1).toUInt64 ≠ 0) : Picks m n g := by
  have hle := Int64.le_iff_toInt_le.mp h
  have hnat := rangeSize_toNat m n
  have hpos : 0 < (n - m + 1).toUInt64.toNat := by
    rw [Nat.pos_iff_ne_zero]
    intro hzero
    exact hsize (UInt64.toNat_inj.mp hzero)
  set r := (rngNext g).1 % (n - m + 1).toUInt64 with hr
  have hlt : (r.toNat : ℤ) < n.toInt - m.toInt + 1 := by
    have hmod : r.toNat < (n - m + 1).toUInt64.toNat := by
      rw [hr, UInt64.toNat_mod]
      exact Nat.mod_lt _ hpos
    omega
  have hsum := add_toInt_of_lt hlt
  refine ⟨m + r.toInt64, ?_, ?_, ?_⟩
  · change (randomInRange m n g).1 = _
    unfold randomInRange i64RemU
    rw [if_neg (by rw [Int64.lt_iff_toInt_lt]; omega)]
    dsimp only
    rw [if_neg hsize]
    rfl
  · rw [Int64.le_iff_toInt_le]
    omega
  · rw [Int64.le_iff_toInt_le]
    omega

/-- The range of all integers traps. -/
theorem not_picks_all : ¬ Picks Int64.minValue Int64.maxValue g := by
  rintro ⟨r, hr, -⟩
  cases hr

/-- `math.random(m, n)` returns an integer from `m` to `n`, unless they are the smallest and the largest integer. -/
theorem mathRandom_in_range_iff (g : Rng) (h : m ≤ n) :
    Picks m n g ↔ ¬ (m = Int64.minValue ∧ n = Int64.maxValue) := by
  constructor
  · rintro hpicks ⟨rfl, rfl⟩
    exact not_picks_all hpicks
  · intro hrange
    exact picks_of_size h fun hzero => hrange ((rangeSize_eq_zero_iff h).mp hzero)

/-- A die. -/
theorem mathRandom_in_range_die : Picks 1 6 Rng.init :=
  (mathRandom_in_range_iff Rng.init (by decide)).mpr (by decide)

/-- `math.random(math.mininteger, math.maxinteger)` traps at the start of a program. -/
theorem mathRandom_all_traps :
    ¬ ∀ g : Rng, g.Reachable → ∀ m n : Int64, m ≤ n → Picks m n g := by
  intro hall
  exact not_picks_all (hall Rng.init .init Int64.minValue Int64.maxValue (by decide))

end Lua2wasm.Arith
