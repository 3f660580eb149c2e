import Lua2wasm.Table.Shapes

/-!
# Integers in decimal

`$int_len`, `$int_write` and `$int_to_bytes` of `runtime/prelude/tostring.wat`. `decimal` is the text
of an integer, by the digits that Lean's own `Nat.toDigits` gives. The loops of the source count and
write exactly that (`intLen_spec`, `intWrite_spec`); they take the magnitude as an unsigned number, so
the negation of the least integer is exact.
-/

namespace Lua2wasm.Strings

open Table (setAt setAt_of_lt)

/-- The bytes of a natural number. -/
def decimalNat (n : ℕ) : List UInt8 := (Nat.toDigits 10 n).map fun c => c.toNat.toUInt8

/-- The bytes of an integer. -/
def decimal (z : ℤ) : List UInt8 := if z < 0 then 45 :: decimalNat z.natAbs else decimalNat z.natAbs

/-- The magnitude of an integer, as an unsigned number. -/
def magnitude (v : Int64) : UInt64 := if v < 0 then (0 - v).toUInt64 else v.toUInt64

/-- The loop of `$int_len`. -/
def intLenFrom : ℕ → UInt64 → ℕ → ℕ
  | 0, _, n => n
  | fuel + 1, u, n => if u < 10 then n else intLenFrom fuel (u / 10) (n + 1)

/-- `$int_len`. -/
def intLen (v : Int64) : ℕ := intLenFrom 20 (magnitude v) (if v < 0 then 2 else 1)

/-- The loop of `$int_write`, which writes the digits from right to left. It also gives where it stops. -/
def intWriteFrom : ℕ → List UInt8 → ℕ → UInt64 → Option (List UInt8 × ℕ)
  | 0, _, _, _ => none
  | _, _, 0, _ => none
  | fuel + 1, out, i + 1, u => do
    let out ← setAt out i ((u % 10).toUInt8 + 48)
    if u / 10 ≠ 0 then intWriteFrom fuel out i (u / 10) else some (out, i)

/-- `$int_write`: the bytes of `v` into `out`, ending at `stop`. -/
def intWrite (out : List UInt8) (stop : ℕ) (v : Int64) : Option (List UInt8) := do
  let (out, i) ← intWriteFrom 20 out stop (magnitude v)
  if v < 0 then
    if i = 0 then none else setAt out (i - 1) 45
  else some out

/-- `$int_to_bytes`. -/
def intToBytes (v : Int64) : Option (List UInt8) :=
  intWrite (List.replicate (intLen v) 0) (intLen v) v

/-! ## The digits -/

theorem decimalNat_of_lt {n : ℕ} (h : n < 10) : decimalNat n = [(n.toUInt8 + 48)] := by
  unfold decimalNat
  rw [Nat.toDigits_of_lt_base h]
  interval_cases n <;> decide

theorem decimalNat_of_le {n : ℕ} (h : 10 ≤ n) :
    decimalNat n = decimalNat (n / 10) ++ [((n % 10).toUInt8 + 48)] := by
  have hlast := decimalNat_of_lt (Nat.mod_lt n (show 0 < 10 by omega))
  unfold decimalNat at hlast ⊢
  rw [Nat.toDigits_of_lt_base (Nat.mod_lt n (by omega))] at hlast
  rw [Nat.toDigits_of_base_le (by omega) h, List.map_append, hlast]

theorem length_decimalNat_pos (n : ℕ) : 0 < (decimalNat n).length := by
  unfold decimalNat
  rw [List.length_map]
  exact Nat.length_toDigits_pos

theorem length_decimalNat_le {n k : ℕ} (hk : 0 < k) (h : n < 10^k) : (decimalNat n).length ≤ k := by
  unfold decimalNat
  rw [List.length_map]
  exact (Nat.length_toDigits_le_iff (by omega) hk).mpr h

theorem toNat_div_ten (u : UInt64) : (u / 10).toNat = u.toNat / 10 := UInt64.toNat_div u 10

theorem digit_eq (u : UInt64) : (u % 10).toUInt8 + 48 = (u.toNat % 10).toUInt8 + 48 := by
  rw [show (u.toNat % 10) = (u % 10).toNat from (UInt64.toNat_mod u 10).symm]
  rfl

theorem magnitude_toNat (v : Int64) : (magnitude v).toNat = v.toInt.natAbs := by
  unfold magnitude
  have hlo := v.le_toInt
  have hneg : v < 0 ↔ v.toInt < 0 := by
    rw [Int64.lt_iff_toInt_lt]
    rfl
  split
  · rename_i h
    have hlt := hneg.mp h
    have hu : ((0 - v).toUInt64.toNat : ℤ) = (0 - v.toInt) % 2^64 := by
      have hbv : (0 - v).toUInt64.toNat = (0 - v).toBitVec.toNat := rfl
      rw [hbv, Int64.toBitVec_sub, BitVec.toNat_sub]
      have hv : v.toInt = v.toBitVec.toInt := rfl
      rw [hv, BitVec.toInt_eq_toNat_cond]
      simp only [Int64.toBitVec_zero, BitVec.toNat_zero]
      split <;> omega
    rw [Int.emod_eq_of_lt (by omega) (by omega)] at hu
    omega
  · rename_i h
    have hge : ¬ v.toInt < 0 := fun hlt => h (hneg.mpr hlt)
    have hbv : v.toUInt64.toNat = v.toBitVec.toNat := rfl
    have hv : v.toInt = v.toBitVec.toInt := rfl
    rw [hv, BitVec.toInt_eq_toNat_cond] at hge ⊢
    rw [hbv]
    split at hge <;> split <;> omega

theorem intLenFrom_spec :
    ∀ (fuel : ℕ) (u : UInt64) (n : ℕ), u.toNat < 10^(fuel + 1) →
      intLenFrom fuel u n + 1 = n + (decimalNat u.toNat).length := by
  intro fuel
  induction fuel with
  | zero =>
    intro u n h
    rw [decimalNat_of_lt (by omega)]
    rfl
  | succ fuel ih =>
    intro u n h
    have hlt : u < 10 ↔ u.toNat < 10 := UInt64.lt_iff_toNat_lt
    unfold intLenFrom
    split
    · rename_i hu
      rw [decimalNat_of_lt (hlt.mp hu)]
      rfl
    · rename_i hu
      have hge : 10 ≤ u.toNat := by
        have := mt hlt.mpr hu
        omega
      have hnext := ih (u / 10) (n + 1) (by
        rw [toNat_div_ten]
        rw [Nat.pow_succ] at h
        omega)
      rw [toNat_div_ten] at hnext
      rw [decimalNat_of_le hge, List.length_append, hnext]
      simp only [List.length_cons, List.length_nil]
      omega

/-- `$int_len` is the length of the text. -/
theorem intLen_spec (v : Int64) : intLen v = (decimal v.toInt).length := by
  have hlt : (magnitude v).toNat < 10^(20 + 1) := by
    have := (magnitude v).toNat_lt
    omega
  have hneg : v < 0 ↔ v.toInt < 0 := by
    rw [Int64.lt_iff_toInt_lt]
    rfl
  have hspec := intLenFrom_spec 20 (magnitude v) (if v < 0 then 2 else 1) hlt
  rw [magnitude_toNat] at hspec
  unfold intLen decimal
  by_cases h : v < 0
  · rw [if_pos h] at hspec ⊢
    rw [if_pos (hneg.mp h), List.length_cons]
    omega
  · rw [if_neg h] at hspec ⊢
    rw [if_neg (fun hlt => h (hneg.mpr hlt))]
    omega

theorem length_decimal_le (v : Int64) : (decimal v.toInt).length ≤ 21 := by
  have hlt : v.toInt.natAbs < 10^20 := by
    rw [← magnitude_toNat]
    have := (magnitude v).toNat_lt
    omega
  have := length_decimalNat_le (by omega) hlt
  unfold decimal
  split
  · rw [List.length_cons]
    omega
  · omega

/-- The loop of `$int_write` leaves everything before and after the digits alone. -/
theorem intWriteFrom_spec :
    ∀ (fuel : ℕ) (out : List UInt8) (i : ℕ) (u : UInt64), 0 < fuel → u.toNat < 10^fuel →
      (decimalNat u.toNat).length ≤ i → i ≤ out.length →
      intWriteFrom fuel out i u = some (out.take (i - (decimalNat u.toNat).length) ++
        decimalNat u.toNat ++ out.drop i, i - (decimalNat u.toNat).length) := by
  intro fuel
  induction fuel with
  | zero =>
    intro out i u hfuel
    omega
  | succ fuel ih =>
    intro out i u _ hu hi hlen
    have hpos := length_decimalNat_pos u.toNat
    obtain ⟨i, rfl⟩ : ∃ j, i = j + 1 := ⟨i - 1, by omega⟩
    unfold intWriteFrom
    rw [setAt_of_lt (by omega), digit_eq]
    simp only [Option.bind_eq_bind, Option.bind_some]
    have hset : out.set i ((u.toNat % 10).toUInt8 + 48) =
        out.take i ++ [(u.toNat % 10).toUInt8 + 48] ++ out.drop (i + 1) := by
      rw [List.set_eq_take_append_cons_drop, if_pos (by omega)]
      simp
    have hzero : u / 10 ≠ 0 ↔ 10 ≤ u.toNat := by
      rw [Ne, ← UInt64.toNat_inj, toNat_div_ten]
      change ¬ u.toNat / 10 = 0 ↔ _
      omega
    -- the digits before this one, or none
    split
    · rename_i hne
      have hge := hzero.mp hne
      rw [decimalNat_of_le hge, List.length_append] at hi
      simp only [List.length_cons, List.length_nil] at hi
      have hfuel : 0 < fuel := by
        by_contra h0
        have : fuel = 0 := by omega
        subst this
        omega
      have hnext := ih (out.set i ((u.toNat % 10).toUInt8 + 48)) i (u / 10) hfuel
        (by rw [toNat_div_ten]; rw [Nat.pow_succ] at hu; omega)
        (by rw [toNat_div_ten]; omega)
        (by rw [List.length_set]; omega)
      rw [hnext, toNat_div_ten, decimalNat_of_le hge, List.length_append]
      simp only [List.length_cons, List.length_nil]
      have htake : (out.set i ((u.toNat % 10).toUInt8 + 48)).take
          (i - (decimalNat (u.toNat / 10)).length) =
          out.take (i - (decimalNat (u.toNat / 10)).length) := by
        rw [List.take_set_of_le (by omega)]
      have hdrop : (out.set i ((u.toNat % 10).toUInt8 + 48)).drop i =
          [(u.toNat % 10).toUInt8 + 48] ++ out.drop (i + 1) := by
        rw [hset, List.append_assoc, List.drop_append_of_le_length (by simp; omega)]
        simp
      have hsub : i + 1 - ((decimalNat (u.toNat / 10)).length + (0 + 1)) =
          i - (decimalNat (u.toNat / 10)).length := by omega
      rw [htake, hdrop, hsub]
      simp
    · rename_i hne
      have hlt : u.toNat < 10 := by
        have := mt hzero.mpr hne
        omega
      rw [decimalNat_of_lt hlt, hset, Nat.mod_eq_of_lt hlt]
      simp

/-- `$int_write` puts the text before `stop`. -/
theorem intWrite_spec (out : List UInt8) (stop : ℕ) (v : Int64) (hlo : (decimal v.toInt).length ≤ stop)
    (hhi : stop ≤ out.length) :
    intWrite out stop v =
      some (out.take (stop - (decimal v.toInt).length) ++ decimal v.toInt ++ out.drop stop) := by
  have hneg : v < 0 ↔ v.toInt < 0 := by
    rw [Int64.lt_iff_toInt_lt]
    rfl
  have hloop : ∀ (_ : (decimalNat v.toInt.natAbs).length ≤ stop),
      intWriteFrom 20 out stop (magnitude v) =
        some (out.take (stop - (decimalNat v.toInt.natAbs).length) ++ decimalNat v.toInt.natAbs ++
          out.drop stop, stop - (decimalNat v.toInt.natAbs).length) := by
    intro hle
    have hlt := (magnitude v).toNat_lt
    rw [intWriteFrom_spec 20 out stop (magnitude v) (by omega) (by omega)
      (by rw [magnitude_toNat]; exact hle) hhi, magnitude_toNat]
  unfold intWrite
  unfold decimal at hlo ⊢
  by_cases h : v < 0
  · rw [if_pos (hneg.mp h), List.length_cons] at hlo
    rw [hloop (by omega)]
    simp only [Option.bind_eq_bind, Option.bind_some]
    rw [if_pos h, if_pos (hneg.mp h), if_neg (by omega), setAt_of_lt (by simp; omega), List.length_cons]
    obtain ⟨k, hk⟩ : ∃ k, k = stop - ((decimalNat v.toInt.natAbs).length + 1) := ⟨_, rfl⟩
    have hk' : stop - (decimalNat v.toInt.natAbs).length = k + 1 := by omega
    rw [← hk, hk', Nat.add_sub_cancel, List.append_assoc, List.set_append_left _ _ (by simp; omega)]
    have hset : (out.take (k + 1)).set k 45 = out.take k ++ [45] := by
      rw [List.set_eq_take_append_cons_drop, if_pos (by simp; omega), List.take_take, List.drop_take,
        Nat.min_eq_left (by omega)]
      simp
    rw [hset]
    simp
  · have hge : ¬ v.toInt < 0 := fun hlt => h (hneg.mpr hlt)
    rw [if_neg hge] at hlo
    rw [hloop hlo]
    simp only [Option.bind_eq_bind, Option.bind_some]
    rw [if_neg h, if_neg hge]

/-- `$int_to_bytes` is the text. -/
theorem intToBytes_spec (v : Int64) : intToBytes v = some (decimal v.toInt) := by
  unfold intToBytes
  rw [intLen_spec, intWrite_spec _ _ v (Nat.le_refl _) (by rw [List.length_replicate])]
  simp

example : intToBytes (-42) = some [45, 52, 50] := by decide

end Lua2wasm.Strings
