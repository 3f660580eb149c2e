import Lua2wasm.Table.HashPart

/-!
# Integer division

Floor division and floor modulo of `runtime/prelude/arith.wat`, on integers: the branches of `$lua_fdiv` and
`$lua_mod` for two integers, and `$idiv_floor` and `$imod_floor`, which the code generator calls for operands
that it knows to be integers. WebAssembly's division truncates and traps for the quotient `2^63`; each of the
four corrects the sign on its own, by its own test, and keeps away from the trap.

`floor_division` is the result: both ways agree, and the quotient is rounded down and wraps, with the remainder
of the floor division.
-/

namespace Lua2wasm.Arith

open Table (Fault)

/-- `i64.div_s`. -/
def i64DivS (a b : Int64) : Except Fault Int64 :=
  if b = 0 ∨ (a = Int64.minValue ∧ b = -1) then .error .stuck else .ok (a / b)

/-- `i64.rem_s`. -/
def i64RemS (a b : Int64) : Except Fault Int64 := if b = 0 then .error .stuck else .ok (a % b)

/-- "attempt to divide by zero". -/
def divideByZero : Fault := .raised "attempt to divide by zero"

/-- "attempt to perform 'n%0'". -/
def moduloByZero : Fault := .raised "attempt to perform 'n%0'"

/-- `$lua_fdiv`, of two integers. -/
def luaFdiv (ai bi : Int64) : Except Fault Int64 :=
  if bi = 0 then .error divideByZero
  else if bi = -1 then .ok (0 - ai)
  else do
    let q ← i64DivS ai bi
    let r ← i64RemS ai bi
    .ok (if r ≠ 0 ∧ ai ^^^ bi < 0 then q - 1 else q)

/-- `$lua_mod`, of two integers. -/
def luaMod (ai bi : Int64) : Except Fault Int64 :=
  if bi = 0 then .error moduloByZero
  else if bi = -1 then .ok 0
  else do
    let r ← i64RemS ai bi
    .ok (if r ≠ 0 ∧ ai ^^^ bi < 0 then r + bi else r)

/-- `$idiv_floor`. -/
def idivFloor (a b : Int64) : Except Fault Int64 :=
  if b = 0 then .error divideByZero
  else if b = -1 then .ok (0 - a)
  else do
    let q ← i64DivS a b
    let r ← i64RemS a b
    .ok (if r ≠ 0 ∧ decide (a < 0) ≠ decide (b < 0) then q - 1 else q)

/-- `$imod_floor`. -/
def imodFloor (a b : Int64) : Except Fault Int64 :=
  if b = 0 then .error moduloByZero
  else if b = -1 then .ok 0
  else do
    let r ← i64RemS a b
    .ok (if r ≠ 0 ∧ decide (r < 0) ≠ decide (b < 0) then r + b else r)

variable {a b q r : Int64}

/-! ## The two tests of the signs -/

theorem xor_lt_zero (a b : Int64) : a ^^^ b < 0 ↔ decide (a < 0) ≠ decide (b < 0) := by
  have hneg : ∀ x : Int64, x < 0 ↔ x.toBitVec.msb = true := fun x => by
    rw [← BitVec.slt_zero_iff_msb_cond]
    exact Iff.rfl
  simp only [hneg, Int64.toBitVec_xor, BitVec.msb_xor]
  cases a.toBitVec.msb <;> cases b.toBitVec.msb <;> decide

theorem lt_zero_iff (a : Int64) : a < 0 ↔ a.toInt < 0 := Int64.lt_iff_toInt_lt

theorem eq_zero_iff (a : Int64) : a = 0 ↔ a.toInt = 0 := Int64.toInt_inj.symm

theorem toInt_ne_zero {a : Int64} (h : a ≠ 0) : a.toInt ≠ 0 := mt (eq_zero_iff a).mpr h

/-- A remainder has the sign of the dividend. -/
theorem tmod_neg_iff {x y : ℤ} (h : x.tmod y ≠ 0) : x.tmod y < 0 ↔ x < 0 := by
  have hpos := Int.tmod_nonneg (a := x) y
  have hneg := Int.tmod_nonneg (a := -x) y
  rw [Int.neg_tmod] at hneg
  constructor
  · intro hlt
    by_contra hx
    omega
  · intro hx
    omega

/-- The pattern of an integer, as a number. -/
theorem toUInt64_toNat (a : Int64) : (a.toUInt64.toNat : ℤ) = a.toInt % 2^64 := by
  have hbv : a.toUInt64.toNat = a.toBitVec.toNat := rfl
  have ha : a.toInt = a.toBitVec.toInt := rfl
  rw [hbv, ha, BitVec.toInt_eq_toNat_cond]
  split <;> omega

/-! ## Floors -/

/-- The quotient of the floor division, from the one that is truncated. -/
theorem fdiv_of_tdiv {x y : ℤ} (hy : y ≠ 0) :
    x.fdiv y = if x.tmod y ≠ 0 ∧ decide (x < 0) ≠ decide (y < 0) then x.tdiv y - 1 else x.tdiv y := by
  rw [Int.fdiv_eq_tdiv]
  simp only [Int.dvd_iff_tmod_eq_zero, ne_eq, decide_eq_decide]
  obtain hneg | hpos := lt_or_gt_of_ne hy
  · rw [Int.sign_eq_neg_one_of_neg hneg]
    split_ifs <;> omega
  · rw [Int.sign_eq_one_of_pos hpos]
    split_ifs <;> omega

/-- The remainder of the floor division, from the one of the truncated division. -/
theorem fmod_of_tmod {x y : ℤ} :
    x.fmod y = if x.tmod y ≠ 0 ∧ decide (x < 0) ≠ decide (y < 0) then x.tmod y + y else x.tmod y := by
  rw [Int.fmod_eq_tmod]
  simp only [Int.dvd_iff_tmod_eq_zero, ne_eq, decide_eq_decide]
  split_ifs <;> omega

theorem eq_ofInt_toInt (a : Int64) : a = Int64.ofInt a.toInt := (Int64.ofInt_toInt a).symm

theorem div_eq_ofInt (a b : Int64) : a / b = Int64.ofInt (a.toInt.tdiv b.toInt) := by
  apply Int64.toInt_inj.mp
  rw [Int64.toInt_div, Int64.toInt_ofInt]

theorem rem_eq_ofInt (a b : Int64) : a % b = Int64.ofInt (a.toInt.tmod b.toInt) := by
  rw [← Int64.toInt_mod, Int64.ofInt_toInt]

/-- The remainder of a floor division is smaller than the divisor and has its sign. -/
theorem fmod_bounds {x y : ℤ} (hy : y ≠ 0) :
    (x.fmod y).natAbs < y.natAbs ∧ (x.fmod y = 0 ∨ (x.fmod y < 0 ↔ y < 0)) := by
  have habs := Int.natAbs_tmod x y
  have hlt : x.natAbs % y.natAbs < y.natAbs := Nat.mod_lt _ (by omega)
  have hsign : x.tmod y ≠ 0 → (x.tmod y < 0 ↔ x < 0) := tmod_neg_iff
  rw [fmod_of_tmod]
  simp only [ne_eq, decide_eq_decide]
  split_ifs with h
  · have hx := hsign h.1
    constructor <;> omega
  · constructor
    · omega
    · by_cases hzero : x.tmod y = 0
      · exact Or.inl hzero
      · have hx := hsign hzero
        right
        tauto

theorem fdiv_neg_one (x : ℤ) : x.fdiv (-1) = -x := by
  rw [fdiv_of_tdiv (by omega), Int.tdiv_neg, Int.tdiv_one, Int.tmod_neg, Int.tmod_one]
  exact if_neg fun h => h.1 rfl

theorem fmod_neg_one (x : ℤ) : x.fmod (-1) = 0 := by
  have h := (fmod_bounds (x := x) (show (-1 : ℤ) ≠ 0 by omega)).1
  omega

/-! ## The four functions -/

/-- The corrected remainder. -/
theorem remainder_eq : (if a % b ≠ 0 ∧ decide (a < 0) ≠ decide (b < 0) then a % b + b else a % b) =
    Int64.ofInt (a.toInt.fmod b.toInt) := by
  rw [fmod_of_tmod]
  simp only [lt_zero_iff, Ne, eq_zero_iff (a % b), Int64.toInt_mod]
  split_ifs
  · rw [rem_eq_ofInt, Int64.ofInt_add, Int64.ofInt_toInt]
  · exact rem_eq_ofInt a b

section

variable (hb : b ≠ 0)
include hb

theorem i64DivS_eq (h1 : b ≠ -1) : i64DivS a b = .ok (a / b) := by
  unfold i64DivS
  rw [if_neg (by tauto)]

theorem i64RemS_eq : i64RemS a b = .ok (a % b) := if_neg hb

/-- The corrected quotient. -/
theorem quotient_eq : (if a % b ≠ 0 ∧ decide (a < 0) ≠ decide (b < 0) then a / b - 1 else a / b) =
    Int64.ofInt (a.toInt.fdiv b.toInt) := by
  rw [Ne, eq_zero_iff] at hb
  rw [fdiv_of_tdiv hb]
  simp only [lt_zero_iff, Ne, eq_zero_iff (a % b), Int64.toInt_mod, div_eq_ofInt]
  split_ifs
  · rw [Int64.ofInt_sub]
    rfl
  · rfl

theorem idivFloor_eq : idivFloor a b = .ok (Int64.ofInt (a.toInt.fdiv b.toInt)) := by
  unfold idivFloor
  rw [if_neg hb]
  split
  · rename_i h1
    rw [h1, show (-1 : Int64).toInt = -1 from rfl, fdiv_neg_one, Int64.ofInt_neg, Int64.ofInt_toInt, Int64.zero_sub]
  · rename_i h1
    rw [i64DivS_eq hb h1, i64RemS_eq hb, ← quotient_eq hb]
    rfl

theorem imodFloor_eq : imodFloor a b = .ok (Int64.ofInt (a.toInt.fmod b.toInt)) := by
  unfold imodFloor
  rw [if_neg hb]
  split
  · rename_i h1
    rw [h1, show (-1 : Int64).toInt = -1 from rfl, fmod_neg_one]
    rfl
  · rw [i64RemS_eq hb, ← remainder_eq]
    change Except.ok (if a % b ≠ 0 ∧ decide (a % b < 0) ≠ decide (b < 0) then a % b + b else a % b) = _
    -- the remainder is negative when the dividend is
    congr 1
    by_cases hr : a % b = 0
    · rw [if_neg (fun h => h.1 hr), if_neg (fun h => h.1 hr)]
    · have hsign : decide (a % b < 0) = decide (a < 0) := by
        rw [decide_eq_decide, lt_zero_iff, lt_zero_iff, Int64.toInt_mod]
        rw [eq_zero_iff, Int64.toInt_mod] at hr
        exact tmod_neg_iff hr
      rw [hsign]

theorem luaFdiv_eq : luaFdiv a b = .ok (Int64.ofInt (a.toInt.fdiv b.toInt)) := by
  rw [← idivFloor_eq hb]
  unfold luaFdiv idivFloor
  simp only [xor_lt_zero]

theorem luaMod_eq : luaMod a b = .ok (Int64.ofInt (a.toInt.fmod b.toInt)) := by
  unfold luaMod
  rw [if_neg hb]
  split
  · rename_i h1
    rw [h1, show (-1 : Int64).toInt = -1 from rfl, fmod_neg_one]
    rfl
  · rw [i64RemS_eq hb, ← remainder_eq]
    simp only [xor_lt_zero]
    rfl

end

/-- The inline helpers and the generic functions agree, also on the error for a divisor 0. For another divisor
they return the quotient that is rounded down, modulo `2^64`, and the remainder that belongs to it; none of the
divisions traps. -/
theorem floor_division (a b : Int64) :
    luaFdiv a b = idivFloor a b ∧ luaMod a b = imodFloor a b ∧
      if b = 0 then luaFdiv a b = .error divideByZero ∧ luaMod a b = .error moduloByZero
      else ∃ q r, luaFdiv a b = .ok q ∧ luaMod a b = .ok r ∧ q = Int64.ofInt (a.toInt.fdiv b.toInt) ∧
        a = q * b + r ∧ (r = 0 ∨ (r < 0 ↔ b < 0)) ∧ r.toInt.natAbs < b.toInt.natAbs := by
  by_cases hb : b = 0
  · rw [if_pos hb]
    unfold luaFdiv luaMod idivFloor imodFloor
    simp only [if_pos hb, and_self]
  · rw [if_neg hb, luaFdiv_eq hb, luaMod_eq hb, idivFloor_eq hb, imodFloor_eq hb]
    refine ⟨rfl, rfl, _, _, rfl, rfl, rfl, ?_, ?_⟩
    · calc a = Int64.ofInt a.toInt := eq_ofInt_toInt a
        _ = Int64.ofInt (a.toInt.fdiv b.toInt * b.toInt + a.toInt.fmod b.toInt) := by
          rw [Int.fdiv_mul_add_fmod]
        _ = Int64.ofInt (a.toInt.fdiv b.toInt) * b + Int64.ofInt (a.toInt.fmod b.toInt) := by
          rw [Int64.ofInt_add, Int64.ofInt_mul, Int64.ofInt_toInt]
    · have hb' : b.toInt ≠ 0 := fun h => hb ((eq_zero_iff b).mpr h)
      obtain ⟨hlt, hsign⟩ := fmod_bounds (x := a.toInt) hb'
      have hlo := b.le_toInt
      have hhi := b.toInt_lt
      have hto : (Int64.ofInt (a.toInt.fmod b.toInt)).toInt = a.toInt.fmod b.toInt :=
        Int64.toInt_ofInt_of_le (by omega) (by omega)
      rw [lt_zero_iff, lt_zero_iff, eq_zero_iff, hto]
      exact ⟨hsign, hlt⟩

example : luaFdiv Int64.minValue (-1) = .ok Int64.minValue := by decide

end Lua2wasm.Arith
