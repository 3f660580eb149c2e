import Lua2wasm.Ast

/-!
# Lua values

The values of the runtime (`runtime/prelude/types.wat`, `values.wat`), their raw equality
(`arith.wat`), and the hash that the tables use (`tables.wat`).

A value that the program holds is an `anyref`. Numbers are values here: an integer is one number
whether it is an `i31` or a boxed `$LuaInt`, and a float is its 64 bits. A string keeps the
identity of its object beside its bytes, because the runtime compares keys by identity before it
compares bytes. `Key` is a key as Lua's raw equality sees it, and `canon` gives the key that a
value denotes: two values are raw-equal keys exactly when they have the same one
(`luaEqRaw_iff_canon`), and then they have the same hash (`luaHash_eq_of_canon_eq`).
-/

namespace Lua2wasm

namespace F64

/-- The exponent field. -/
def expField (f : F64) : ℕ := f.bits.toNat / 2^52 % 2048

/-- The fraction field. -/
def fracField (f : F64) : ℕ := f.bits.toNat % 2^52

/-- The sign bit is set. -/
def negative (f : F64) : Bool := 2^63 ≤ f.bits.toNat

/-- The double is no number. -/
def isNaN (f : F64) : Bool := f.expField = 2047 && f.fracField ≠ 0

/-- The double is a zero of either sign. -/
def isZero (f : F64) : Bool := f.expField = 0 && f.fracField = 0

/-- The significand of a finite double, as an integer. -/
def significand (f : F64) : ℕ := if f.expField = 0 then f.fracField else f.fracField + 2^52

/-- The magnitude of a finite double, when it is a whole number. -/
def wholeMagnitude (f : F64) : Option ℕ :=
  if 1075 ≤ f.expField then some (f.significand * 2^(f.expField - 1075))
  else if f.significand % 2^(1075 - max f.expField 1) = 0 then
    some (f.significand / 2^(1075 - max f.expField 1))
  else none

/-- The integer that a double is equal to: `f64.eq f (f64.trunc f)`, and its value. -/
def whole (f : F64) : Option ℤ :=
  if f.expField = 2047 then none
  else f.wholeMagnitude.map fun m => if f.negative then -(m : ℤ) else m

/-- The integral doubles from `-2^63` up to `2^63`, with the result of `i64.trunc_f64_s`. -/
def toI64 (f : F64) : Option Int64 :=
  match f.whole with
  | some v => if -2^63 ≤ v ∧ v < 2^63 then some (Int64.ofInt v) else none
  | none => none

/-- `f64.eq`. -/
def eq (a b : F64) : Bool := !a.isNaN && !b.isNaN && (a.bits == b.bits || (a.isZero && b.isZero))

end F64

namespace Table

/-- A value of the runtime. -/
inductive Val
  /-- `nil`, the null reference. -/
  | nil
  /-- `$g_true` or `$g_false`. -/
  | bool (b : Bool)
  /-- An integer, an `i31` or a `$LuaInt`. -/
  | int (i : Int64)
  /-- A `$LuaFloat`. -/
  | float (f : F64)
  /-- A `$LuaString`, with the identity of the object. -/
  | str (obj : ℕ) (bytes : List UInt8)
  /-- A `$LuaTable`, by the number of its creation. -/
  | table (obj : ℕ)
  /-- Any other object, such as a closure. -/
  | other (obj : ℕ)
  deriving DecidableEq, Repr

/-- A table key, as raw equality sees it. -/
inductive Key
  /-- A boolean. -/
  | bool (b : Bool)
  /-- An integer, or a float with an integral value in the range of integers. -/
  | int (i : Int64)
  /-- Any other float. -/
  | float (f : F64)
  /-- A string. -/
  | str (bytes : List UInt8)
  /-- A table. -/
  | table (obj : ℕ)
  /-- Any other object. -/
  | other (obj : ℕ)
  deriving DecidableEq, Repr

/-- The key that a value denotes. `nil` and the floats that are no number denote none. -/
def canon : Val → Option Key
  | .nil => none
  | .bool b => some (.bool b)
  | .int i => some (.int i)
  | .float f =>
    if f.isNaN then none
    else match f.toI64 with
      | some i => some (.int i)
      | none => some (.float f)
  | .str _ bytes => some (.str bytes)
  | .table obj => some (.table obj)
  | .other obj => some (.other obj)

/-- `$str_hash`: FNV-1a, with 0 stored as 1. -/
def strHash (bytes : List UInt8) : UInt32 :=
  let h := bytes.foldl (fun h b => (h ^^^ b.toUInt32) * 16777619) 2166136261
  if h = 0 then 1 else h

/-- The low and the high word of an integer, exclusive-or. -/
def hashI64 (x : UInt64) : UInt32 := x.toUInt32 ^^^ (x >>> 32).toUInt32

/-- The integer fits an `i31`. -/
def isI31 (i : Int64) : Bool := -1073741824 ≤ i.toInt ∧ i.toInt < 1073741824

/-- `$lua_hash`, and `$lua_hash_other` behind it. -/
def luaHash : Val → UInt32
  | .str _ bytes => strHash bytes
  | .int i =>
    if isI31 i then i.toUInt64.toUInt32 ^^^ (i.toInt32 >>> 31).toUInt32
    else hashI64 i.toUInt64
  | .table obj => UInt32.ofNat obj * 2654435769
  | .nil => 0
  | .float f =>
    match f.toI64 with
    | some i => hashI64 i.toUInt64
    | none => hashI64 ⟨f.bits⟩
  | .bool b => if b then 1 else 0
  | .other _ => 0

/-- `$int_eq_float`. -/
def intEqFloat (i : Int64) (f : F64) : Bool := f.toI64 = some i

/-- `$num_eq`, on two numbers. -/
def numEq : Val → Val → Bool
  | .int a, .int b => a = b
  | .float a, .float b => a.eq b
  | .int i, .float f => intEqFloat i f
  | .float f, .int i => intEqFloat i f
  | _, _ => false

/-- `$lua_eq_raw` on two values that are not both tables. -/
def luaEqRaw (a b : Val) : Bool :=
  match a, b with
  | .nil, .nil => true
  | .nil, _ => false
  | _, .nil => false
  | .bool x, .bool y => x = y
  | .int _, .int _ => numEq a b
  | .int _, .float _ => numEq a b
  | .float _, .int _ => numEq a b
  | .float _, .float _ => numEq a b
  | .str _ x, .str _ y => x = y
  | _, _ => a = b

/-- `ref.eq`. Two boxes of one number count as the same object. -/
def refEq (a b : Val) : Bool := a = b

/-- `ref.test (ref $LuaString)`. -/
def Val.isStr : Val → Bool
  | .str _ _ => true
  | _ => false

/-- `ref.test (ref $LuaInt)` or `ref.test (ref $LuaFloat)`. -/
def Val.isBoxedNum : Val → Bool
  | .int i => !isI31 i
  | .float _ => true
  | _ => false

/-- What a table stores as a key: no `nil`, no NaN, and no float that is equal to an integer. -/
def Normal : Val → Prop
  | .nil => False
  | .float f => f.isNaN = false ∧ f.toI64 = none
  | _ => True

instance : DecidablePred Normal := fun v => by
  cases v <;> unfold Normal <;> infer_instance

end Table

namespace F64

theorem whole_of_isZero {f : F64} (h : f.isZero = true) : f.whole = some 0 := by
  unfold isZero at h
  simp only [Bool.and_eq_true, decide_eq_true_eq] at h
  obtain ⟨hexp, hfrac⟩ := h
  have hsig : f.significand = 0 := by
    unfold significand
    rw [if_pos hexp, hfrac]
  have hmag : f.wholeMagnitude = some 0 := by
    unfold wholeMagnitude
    rw [if_neg (by omega), hsig, Nat.zero_mod, if_pos rfl, Nat.zero_div]
  unfold whole
  simp [hexp, hmag]

theorem toI64_of_isZero {f : F64} (h : f.isZero = true) : f.toI64 = some 0 := by
  unfold toI64
  rw [whole_of_isZero h]
  rfl

/-- Doubles that are equal and different denote the integer 0. -/
theorem eq_iff {a b : F64} (ha : a.isNaN = false) (hb : b.isNaN = false) :
    a.eq b = true ↔ a = b ∨ (a.isZero = true ∧ b.isZero = true) := by
  unfold eq
  rw [ha, hb]
  constructor
  · intro h
    simp only [Bool.not_false, Bool.true_and, Bool.or_eq_true, Bool.and_eq_true, beq_iff_eq] at h
    obtain h | h := h
    · left
      cases a
      cases b
      simpa using h
    · exact Or.inr h
  · intro h
    obtain h | ⟨h1, h2⟩ := h
    · simp [h]
    · simp [h1, h2]

theorem toI64_of_isNaN {f : F64} (h : f.isNaN = true) : f.toI64 = none := by
  unfold isNaN at h
  simp only [Bool.and_eq_true, decide_eq_true_eq] at h
  have hw : f.whole = none := by
    unfold whole
    rw [if_pos h.1]
  unfold toI64
  rw [hw]

/-- A double with no integral value equals only itself. -/
theorem eq_iff_of_toI64 {a b : F64} (ha : a.isNaN = false) (hi : a.toI64 = none) :
    a.eq b = true ↔ a = b := by
  cases hb : b.isNaN with
  | true =>
    have hne : a ≠ b := by
      rintro rfl
      rw [ha] at hb
      cases hb
    have heq : a.eq b = false := by
      unfold F64.eq
      simp [hb]
    simp [heq, hne]
  | false =>
    rw [F64.eq_iff ha hb]
    constructor
    · intro h
      obtain h | ⟨hz, -⟩ := h
      · exact h
      · rw [F64.toI64_of_isZero hz] at hi
        cases hi
    · exact Or.inl

end F64

namespace Table

@[simp] theorem canon_nil : canon .nil = none := rfl

@[simp] theorem canon_bool (b : Bool) : canon (.bool b) = some (.bool b) := rfl

@[simp] theorem canon_int (i : Int64) : canon (.int i) = some (.int i) := rfl

@[simp] theorem canon_str (o : ℕ) (x : List UInt8) : canon (.str o x) = some (.str x) := rfl

@[simp] theorem canon_table (o : ℕ) : canon (.table o) = some (.table o) := rfl

@[simp] theorem canon_other (o : ℕ) : canon (.other o) = some (.other o) := rfl

/-- What a float denotes as a key. -/
theorem canon_float_cases (f : F64) :
    (f.isNaN = true ∧ f.toI64 = none ∧ canon (.float f) = none) ∨
      (∃ i, f.isNaN = false ∧ f.toI64 = some i ∧ canon (.float f) = some (.int i)) ∨
      (f.isNaN = false ∧ f.toI64 = none ∧ canon (.float f) = some (.float f)) := by
  unfold canon
  cases hn : f.isNaN with
  | true => simp [F64.toI64_of_isNaN hn, hn]
  | false =>
    cases hi : f.toI64 with
    | none => simp [hn, hi]
    | some i => simp [hn, hi]

theorem canon_float_of_normal {f : F64} (h : Normal (.float f)) : canon (.float f) = some (.float f) := by
  unfold canon
  simp only [h.1, h.2]
  rfl

theorem canon_ne_none_of_normal {v : Val} (h : Normal v) : canon v ≠ none := by
  cases v with
  | nil => exact absurd h id
  | float f => simp [canon_float_of_normal h]
  | _ => simp

/-- Raw equality with a stored key is equality of the keys that the two values denote. -/
theorem luaEqRaw_iff_canon {sk : Val} (h : Normal sk) (k : Val) :
    luaEqRaw sk k = true ↔ canon sk = canon k := by
  cases k with
  | float g =>
    -- the only values that a float can equal are numbers
    cases sk with
    | nil => exact absurd h id
    | int i =>
      obtain ⟨-, hi, hc⟩ | ⟨j, -, hj, hc⟩ | ⟨-, hi, hc⟩ := canon_float_cases g
      · simp [luaEqRaw, numEq, intEqFloat, hi, hc]
      · simp [luaEqRaw, numEq, intEqFloat, hj, hc, eq_comm]
      · simp [luaEqRaw, numEq, intEqFloat, hi, hc]
    | float f =>
      rw [canon_float_of_normal h]
      change f.eq g = true ↔ _
      rw [F64.eq_iff_of_toI64 h.1 h.2]
      obtain ⟨hn, -, hc⟩ | ⟨j, -, hj, hc⟩ | ⟨-, -, hc⟩ := canon_float_cases g
      · have hne : f ≠ g := by
          rintro rfl
          exact absurd (h.1.symm.trans hn) (by decide)
        simp [hc, hne]
      · have hne : f ≠ g := by
          rintro rfl
          exact absurd (h.2.symm.trans hj) (by simp)
        simp [hc, hne]
      · simp [hc]
    | _ =>
      obtain ⟨-, -, hc⟩ | ⟨j, -, -, hc⟩ | ⟨-, -, hc⟩ := canon_float_cases g <;>
        simp [luaEqRaw, hc]
  | _ =>
    cases sk with
    | nil => exact absurd h id
    | float f =>
      rw [canon_float_of_normal h]
      simp [luaEqRaw, numEq, intEqFloat, h.2]
    | _ => simp [luaEqRaw, numEq]

/-- The sign of a small number, spread over its high word. -/
theorem sshiftRight_setWidth_of_small (x : BitVec 64) (h1 : -1073741824 ≤ x.toInt)
    (h2 : x.toInt < 1073741824) : (x.setWidth 32).sshiftRight 31 = (x >>> 32).setWidth 32 := by
  rw [BitVec.toInt_eq_toNat_cond] at h1 h2
  apply BitVec.eq_of_toInt_eq
  rw [BitVec.toInt_sshiftRight, BitVec.toInt_eq_toNat_cond, BitVec.toInt_eq_toNat_cond,
    BitVec.toNat_setWidth, BitVec.toNat_setWidth, BitVec.toNat_ushiftRight,
    Nat.shiftRight_eq_div_pow, Int.shiftRight_eq_div_pow]
  split_ifs at h1 h2 ⊢ <;> omega

/-- An integer that fits an `i31` hashes as every integer does. -/
theorem luaHash_int (i : Int64) : luaHash (.int i) = hashI64 i.toUInt64 := by
  simp only [luaHash]
  split
  · rename_i h
    unfold isI31 at h
    simp only [decide_eq_true_eq] at h
    have hs : (Int32.toBitVec 31).smod 32 = 31#32 := by decide
    have hr : UInt64.toBitVec 32 % 64 = 32#64 := by decide
    unfold hashI64
    congr 1
    apply UInt32.toBitVec_inj.mp
    rw [UInt64.toBitVec_toUInt32]
    change (i.toInt32 >>> 31).toBitVec = _
    rw [Int32.toBitVec_shiftRight, UInt64.toBitVec_shiftRight, hs, hr, Int64.toBitVec_toInt32,
      BitVec.signExtend_eq_setWidth_of_le _ (by decide)]
    exact sshiftRight_setWidth_of_small i.toBitVec h.1 h.2
  · rfl

theorem luaHash_float_of_toI64 {f : F64} {i : Int64} (h : f.toI64 = some i) :
    luaHash (.float f) = luaHash (.int i) := by
  rw [luaHash_int]
  simp only [luaHash, h]

/-- A value that denotes the key of a stored one has the hash of it. -/
theorem luaHash_eq_of_canon_eq {sk k : Val} (h : Normal sk) (hc : canon sk = canon k) :
    luaHash sk = luaHash k := by
  cases k with
  | float g =>
    obtain ⟨-, -, hg⟩ | ⟨i, -, hi, hg⟩ | ⟨-, -, hg⟩ := canon_float_cases g
    · exact absurd (hc.trans hg) (canon_ne_none_of_normal h)
    · rw [luaHash_float_of_toI64 hi]
      cases sk with
      | float f => rw [canon_float_of_normal h, hg] at hc; simp at hc
      | int j =>
        have hj : j = i := by simpa [hg] using hc
        rw [hj]
      | _ => simp [hg] at hc
    · cases sk with
      | float f =>
        have hf : f = g := by simpa [canon_float_of_normal h, hg] using hc
        rw [hf]
      | _ => simp [hg] at hc
  | _ =>
    cases sk with
    | float f => simp [canon_float_of_normal h] at hc
    | _ => simp_all [luaHash]

end Table

end Lua2wasm
