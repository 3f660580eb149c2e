import Lua2wasm.Table.ArrayPart

/-!
# The positions of table.move, table.unpack and table.concat

The three functions take their positions as 64-bit integers and count in 32 bits (`runtime/prelude/
tablib.wat`). Here is the arithmetic of these counts, and which positions a call goes over: `move` gives the
pairs of positions that it copies, `unpack` and `concat` the positions that they read. An element that
cannot be read, written or concatenated ends a call with an error; what is said here is how a call goes
on as long as none does.

`positions_exact_iff` says exactly when the positions are the ones that the call was given. The
conversion to 32 bits drops the high words, and `ref.i31` one bit more; only the fast paths, which index
the array part itself, keep all 32 bits.
-/

namespace Lua2wasm.Positions

open Table

/-- An i32, as a signed number. -/
def i32 (z : ℤ) : ℤ := z.bmod (2^32)

/-- The number in a `ref.i31`. -/
def i31 (z : ℤ) : ℤ := z.bmod (2^31)

/-- The array part of a table. -/
structure ArrayPart where
  /-- `$alen`. -/
  alen : ℕ
  /-- The length of `$arr`. -/
  cap : ℕ
  /-- The elements are in the array. -/
  alen_le : alen ≤ cap
  /-- An array has fewer than 2^31 elements. -/
  cap_lt : cap < 2^31

/-- How a call goes on. -/
inductive Course (α : Type)
  /-- It goes over these positions. -/
  | over (positions : List α)
  /-- It leaves an array, or asks for one that is too large. -/
  | trap
  /-- Its loop has no end. -/
  | endless
  deriving DecidableEq, Repr

/-- The numbers `z`, `z + 1` and so on, of which there are `n`. -/
def upFrom (z n : ℤ) : List ℤ := (List.range n.toNat).map fun k : ℕ => z + k

/-- The loop of `$builtin_table_move`, forward: the pairs of positions read and written. -/
def moveLoop (f t n : ℤ) : List (ℤ × ℤ) := (upFrom 0 n).map fun i => (i31 (f + i), i31 (t + i))

/-- The `array.copy` of the fast path. -/
def moveFast (a1 a2 : ArrayPart) (f t n : ℤ) : Course (ℤ × ℤ) :=
  if f - 1 + n ≤ a1.cap ∧ t - 1 + n ≤ a2.cap then .over ((upFrom 0 n).map fun i => (f + i, t + i))
  else .trap

/-- The condition of the fast path of `$builtin_table_move`. -/
def MovesFast (a1 a2 : ArrayPart) (same noFloats : Bool) (f e t n : ℤ) : Prop :=
  (1 ≤ f ∧ e ≤ a1.alen) ∧ (1 ≤ t ∧ i32 (t + i32 (n - 1)) ≤ a2.alen) ∧ ¬ (same = true ∧ t = f) ∧
    noFloats = true

instance (a1 a2 : ArrayPart) (same noFloats : Bool) (f e t n : ℤ) :
    Decidable (MovesFast a1 a2 same noFloats f e t n) := by
  unfold MovesFast
  infer_instance

/-- `$builtin_table_move`, from `a1` to `a2`, which may be the same table. -/
def tableMove (a1 a2 : ArrayPart) (same noFloats : Bool) (first last dest : Int64) : Course (ℤ × ℤ) :=
  let f := wrap32 first
  let e := wrap32 last
  let t := wrap32 dest
  if f ≤ e then
    let n := i32 (e - f + 1)
    if MovesFast a1 a2 same noFloats f e t n then moveFast a1 a2 f t n
    else if same = true ∧ f < t then .over (moveLoop f t n).reverse
    else .over (moveLoop f t n)
  else .over []

/-- An argument that may be left out. -/
def argOr (default : ℤ) : Option Int64 → ℤ
  | none => default
  | some i => wrap32 i

/-- `$builtin_table_unpack`, for a table of this length. An array of 2^31 elements or more does not
exist. -/
def tableUnpack (len : Int32) (first last : Option Int64) : Course ℤ :=
  let i := argOr 1 first
  let j := argOr len.toInt last
  if j < i then .over []
  else
    let count := i32 (j - i + 1)
    if count < 0 then .trap else .over ((upFrom 0 count).map fun k => i31 (i + k))

/-- The loop of `$builtin_table_concat` passes every i32 when the last position is the largest. -/
def concatLoop (i j : ℤ) : Course ℤ :=
  if j = 2^31 - 1 then .endless else .over ((upFrom i (j - i + 1)).map i31)

/-- `$builtin_table_concat`, for a table of this length. `plain` says that the table has no metatable, and
that what its array part has at the positions are strings and integers. -/
def tableConcat (a : ArrayPart) (plain : Bool) (len : Int32) (first last : Option Int64) : Course ℤ :=
  let i := argOr 1 first
  let j := argOr len.toInt last
  if j < i then .over []
  else if plain = true ∧ 1 ≤ i ∧ j ≤ a.alen then .over (upFrom i (j - i + 1))
  else concatLoop i j

/-! ## What Lua specifies -/

/-- The pairs of positions that `table.move(a, f, e, t)` copies. -/
def copies (f e t : ℤ) : List (ℤ × ℤ) := (upFrom 0 (e - f + 1)).map fun i => (f + i, t + i)

/-- The call copies these pairs, in some order. -/
def Course.Copies (c : Course (ℤ × ℤ)) (f e t : ℤ) : Prop :=
  ∃ ps, c = .over ps ∧ ps.Perm (copies f e t)

/-- The call goes over the positions from `i` to `j`, in this order. -/
def Course.Reads (c : Course ℤ) (i j : ℤ) : Prop := c = .over (upFrom i (j - i + 1))

/-- The position is an integer of 31 bits. -/
def Fits31 (z : ℤ) : Prop := -2^30 ≤ z ∧ z < 2^30

/-- When `table.move` is exact: an empty range stays empty in 32 bits; and otherwise the ranges are within the
array parts and take the fast path, or all positions are integers of 31 bits and their number fits an
i32. -/
def MoveExact (a1 a2 : ArrayPart) (same noFloats : Bool) (first last dest : Int64) : Prop :=
  if last.toInt < first.toInt then
    wrap32 last < wrap32 first ∨ 2^31 ≤ wrap32 last - wrap32 first + 1
  else
    let f := first.toInt
    let e := last.toInt
    let t := dest.toInt
    (1 ≤ f ∧ e ≤ a1.alen ∧ 1 ≤ t ∧ t + (e - f) ≤ a2.alen ∧ ¬ (same = true ∧ t = f) ∧ noFloats = true) ∨
      (Fits31 f ∧ Fits31 e ∧ Fits31 t ∧ Fits31 (t + (e - f)) ∧ e - f + 1 < 2^31)

/-- A position that may be left out. -/
def posOr (default : ℤ) : Option Int64 → ℤ
  | none => default
  | some i => i.toInt

/-- When `table.unpack` is exact. -/
def UnpackExact (len : Int32) (first last : Option Int64) : Prop :=
  let i := posOr 1 first
  let j := posOr len.toInt last
  if j < i then
    argOr len.toInt last < argOr 1 first ∨ argOr len.toInt last - argOr 1 first + 1 = 2^32
  else Fits31 i ∧ Fits31 j ∧ j - i + 1 < 2^31

/-- When `table.concat` is exact. -/
def ConcatExact (a : ArrayPart) (plain : Bool) (len : Int32) (first last : Option Int64) : Prop :=
  let i := posOr 1 first
  let j := posOr len.toInt last
  if j < i then argOr len.toInt last < argOr 1 first
  else (plain = true ∧ 1 ≤ i ∧ j ≤ a.alen) ∨ (Fits31 i ∧ Fits31 j)

/-! ## Conversions -/

variable {a1 a2 : ArrayPart} {same noFloats plain : Bool} {first last dest : Int64} {z n x i j : ℤ}

theorem wrap32_bmod (k : Int64) : wrap32 k = i32 k.toInt := by
  unfold wrap32 i32
  rw [Int64.toInt_toInt32]

theorem i32_bounds (z : ℤ) : -2^31 ≤ i32 z ∧ i32 z < 2^31 := by
  unfold i32
  constructor
  · have h := Int.le_bmod (x := z) (m := 2^32) (by norm_num)
    omega
  · have h := Int.bmod_lt (x := z) (m := 2^32) (by norm_num)
    omega

theorem i32_of_bounds (hlo : -2^31 ≤ z) (hhi : z < 2^31) : i32 z = z := by
  unfold i32
  rw [Int.bmod_eq_of_le] <;> norm_num <;> omega

theorem i31_fits (z : ℤ) : Fits31 (i31 z) := by
  unfold i31 Fits31
  constructor
  · have h := Int.le_bmod (x := z) (m := 2^31) (by norm_num)
    omega
  · have h := Int.bmod_lt (x := z) (m := 2^31) (by norm_num)
    omega

theorem i31_of_fits (h : Fits31 z) : i31 z = z := by
  obtain ⟨hlo, hhi⟩ := h
  unfold i31
  rw [Int.bmod_eq_of_le] <;> norm_num <;> omega

theorem wrap32_of_bounds {k : Int64} (hlo : -2^31 ≤ k.toInt) (hhi : k.toInt < 2^31) : wrap32 k = k.toInt := by
  rw [wrap32_bmod, i32_of_bounds hlo hhi]

theorem mem_upFrom : x ∈ upFrom z n ↔ z ≤ x ∧ x < z + n := by
  unfold upFrom
  rw [List.mem_map]
  constructor
  · rintro ⟨k, hk, rfl⟩
    rw [List.mem_range] at hk
    omega
  · rintro ⟨hlo, hhi⟩
    refine ⟨(x - z).toNat, ?_, by omega⟩
    rw [List.mem_range]
    omega

theorem upFrom_eq_nil : upFrom z n = [] ↔ n ≤ 0 := by
  unfold upFrom
  rw [List.map_eq_nil_iff, List.range_eq_nil]
  omega

/-- Counting from 0 and adding is counting from there. -/
theorem map_upFrom (z n : ℤ) : (upFrom 0 n).map (fun k => z + k) = upFrom z n := by
  unfold upFrom
  rw [List.map_map]
  apply List.map_congr_left
  intro k _
  simp

/-- Positions of 31 bits survive `ref.i31`. -/
theorem map_i31_upFrom (hlo : Fits31 i) (hhi : Fits31 j) : (upFrom i (j - i + 1)).map i31 = upFrom i (j - i + 1) := by
  obtain ⟨hlo, -⟩ := hlo
  obtain ⟨-, hhi⟩ := hhi
  refine (List.map_congr_left fun x hx => ?_).trans (List.map_id _)
  rw [mem_upFrom] at hx
  exact i31_of_fits ⟨by omega, by omega⟩

/-! ## table.unpack and table.concat -/

theorem argOr_bounds (d : Int32) (arg : Option Int64) :
    -2^31 ≤ argOr d.toInt arg ∧ argOr d.toInt arg < 2^31 := by
  cases arg with
  | none => exact ⟨Int32.le_toInt d, Int32.toInt_lt d⟩
  | some k =>
    change -2^31 ≤ wrap32 k ∧ wrap32 k < 2^31
    rw [wrap32_bmod]
    exact i32_bounds _

theorem argOr_one_bounds (arg : Option Int64) : -2^31 ≤ argOr 1 arg ∧ argOr 1 arg < 2^31 :=
  argOr_bounds 1 arg

theorem argOr_of_bounds {d : ℤ} {arg : Option Int64} (hlo : -2^31 ≤ posOr d arg) (hhi : posOr d arg < 2^31) :
    argOr d arg = posOr d arg := by
  cases arg with
  | none => rfl
  | some k => exact wrap32_of_bounds hlo hhi

theorem argOr_of_fits {d : ℤ} {arg : Option Int64} (h : Fits31 (posOr d arg)) : argOr d arg = posOr d arg := by
  obtain ⟨hlo, hhi⟩ := h
  exact argOr_of_bounds (by omega) (by omega)

/-- The first and the last position of a range are positions of 31 bits if the range is one of such
positions. -/
theorem fits_of_map_i31 {ps : List ℤ} (hij : i ≤ j) (h : ps.map i31 = upFrom i (j - i + 1)) :
    Fits31 i ∧ Fits31 j := by
  have hmem : ∀ x, x ∈ upFrom i (j - i + 1) → Fits31 x := by
    intro x hx
    rw [← h] at hx
    obtain ⟨y, -, rfl⟩ := List.mem_map.mp hx
    exact i31_fits y
  constructor
  · exact hmem i (mem_upFrom.mpr ⟨by omega, by omega⟩)
  · exact hmem j (mem_upFrom.mpr ⟨by omega, by omega⟩)

/-- A count of 2^31 or more is negative as an i32. -/
theorem i32_of_large (hlo : 2^31 ≤ z) (hhi : z ≤ 2^32) : i32 z = z - 2^32 := by
  have h : i32 z = i32 (z - 2^32) := by
    unfold i32
    exact (Int.sub_bmod_right z (2^32)).symm
  rw [h, i32_of_bounds (by omega) (by omega)]

theorem tableUnpack_exact_iff (len : Int32) (first last : Option Int64) :
    (tableUnpack len first last).Reads (posOr 1 first) (posOr len.toInt last) ↔ UnpackExact len first last := by
  have hI := argOr_one_bounds first
  have hJ := argOr_bounds len last
  have hi : Fits31 (posOr 1 first) → argOr 1 first = posOr 1 first := argOr_of_fits
  have hj : Fits31 (posOr len.toInt last) → argOr len.toInt last = posOr len.toInt last := argOr_of_fits
  unfold tableUnpack UnpackExact Course.Reads
  generalize argOr 1 first = I at *
  generalize argOr len.toInt last = J at *
  generalize posOr 1 first = i at *
  generalize posOr len.toInt last = j at *
  by_cases hempty : j < i
  · -- there is nothing to read
    rw [if_pos hempty, upFrom_eq_nil.mpr (show j - i + 1 ≤ 0 by omega)]
    by_cases hlt : J < I
    · rw [if_pos hlt]
      exact iff_of_true rfl (Or.inl hlt)
    rw [if_neg hlt]
    by_cases hsmall : J - I + 1 < 2^31
    · -- the call reads something
      rw [i32_of_bounds (by omega) hsmall, if_neg (by omega)]
      refine iff_of_false (fun h => ?_) (by omega)
      have hnil := List.map_eq_nil_iff.mp (Course.over.inj h)
      rw [upFrom_eq_nil] at hnil
      omega
    · rw [i32_of_large (by omega) (by omega)]
      by_cases hall : J - I + 1 = 2^32
      · rw [if_neg (by omega), upFrom_eq_nil.mpr (by omega)]
        exact iff_of_true rfl (Or.inr hall)
      · rw [if_pos (by omega)]
        exact iff_of_false nofun (by omega)
  · rw [if_neg hempty]
    constructor
    · intro h
      by_cases hlt : J < I
      · -- the call reads nothing
        rw [if_pos hlt] at h
        have hnil := (Course.over.inj h).symm
        rw [upFrom_eq_nil] at hnil
        omega
      rw [if_neg hlt] at h
      by_cases hneg : i32 (J - I + 1) < 0
      · rw [if_pos hneg] at h
        cases h
      rw [if_neg hneg] at h
      -- the positions read are the ones asked for, so both ends fit
      have hps := Course.over.inj h
      rw [show (fun k => i31 (I + k)) = i31 ∘ fun k => I + k from rfl, ← List.map_map] at hps
      obtain ⟨hfi, hfj⟩ := fits_of_map_i31 (by omega) hps
      refine ⟨hfi, hfj, ?_⟩
      by_contra hlarge
      rw [hi hfi, hj hfj] at hneg hlt
      obtain ⟨hilo, -⟩ := hfi
      obtain ⟨-, hjhi⟩ := hfj
      rw [i32_of_large (by omega) (by omega)] at hneg
      omega
    · rintro ⟨hfi, hfj, hsmall⟩
      rw [hi hfi, hj hfj, if_neg hempty, i32_of_bounds (by omega) hsmall, if_neg (by omega)]
      congr 1
      calc (upFrom 0 (j - i + 1)).map (fun k => i31 (i + k))
          = ((upFrom 0 (j - i + 1)).map (fun k => i + k)).map i31 := by rw [List.map_map]; rfl
        _ = upFrom i (j - i + 1) := by rw [map_upFrom, map_i31_upFrom hfi hfj]

theorem tableConcat_exact_iff (a : ArrayPart) (plain : Bool) (len : Int32) (first last : Option Int64) :
    (tableConcat a plain len first last).Reads (posOr 1 first) (posOr len.toInt last) ↔
      ConcatExact a plain len first last := by
  have hi : -2^31 ≤ posOr 1 first → posOr 1 first < 2^31 → argOr 1 first = posOr 1 first := argOr_of_bounds
  have hj : -2^31 ≤ posOr len.toInt last → posOr len.toInt last < 2^31 →
      argOr len.toInt last = posOr len.toInt last := argOr_of_bounds
  have hcap := a.cap_lt
  have halen := a.alen_le
  unfold tableConcat ConcatExact Course.Reads concatLoop
  generalize argOr 1 first = I at *
  generalize argOr len.toInt last = J at *
  generalize posOr 1 first = i at *
  generalize posOr len.toInt last = j at *
  by_cases hempty : j < i
  · -- there is nothing to read
    rw [if_pos hempty, upFrom_eq_nil.mpr (show j - i + 1 ≤ 0 by omega)]
    by_cases hlt : J < I
    · rw [if_pos hlt]
      exact iff_of_true rfl hlt
    rw [if_neg hlt]
    refine iff_of_false (fun h => ?_) hlt
    split at h
    · have hnil := Course.over.inj h
      rw [upFrom_eq_nil] at hnil
      omega
    split at h
    · cases h
    · have hnil := List.map_eq_nil_iff.mp (Course.over.inj h)
      rw [upFrom_eq_nil] at hnil
      omega
  · rw [if_neg hempty]
    constructor
    · intro h
      by_cases hlt : J < I
      · -- the call reads nothing
        rw [if_pos hlt] at h
        have hnil := (Course.over.inj h).symm
        rw [upFrom_eq_nil] at hnil
        omega
      -- the ends of the fast path are read, so they are the positions asked for
      rw [if_neg hlt] at h
      split at h
      · -- the fast path
        rename_i hfast
        obtain ⟨hplain, hlo, hhi⟩ := hfast
        have hps := Course.over.inj h
        have hfirst : i ∈ upFrom I (J - I + 1) := by
          rw [hps]
          exact mem_upFrom.mpr ⟨by omega, by omega⟩
        have hlast : j ∈ upFrom I (J - I + 1) := by
          rw [hps]
          exact mem_upFrom.mpr ⟨by omega, by omega⟩
        rw [mem_upFrom] at hfirst hlast
        exact Or.inl ⟨hplain, by omega, by omega⟩
      split at h
      · cases h
      · exact Or.inr (fits_of_map_i31 (by omega) (Course.over.inj h))
    · rintro (⟨hplain, hlo, hhi⟩ | ⟨hfi, hfj⟩)
      · rw [hi (by omega) (by omega), hj (by omega) (by omega), if_neg hempty, if_pos ⟨hplain, hlo, hhi⟩]
      · have hilo := hfi.1
        have hjhi := hfj.2
        rw [hi (by omega) (by omega), hj (by omega) (by omega), if_neg hempty]
        split
        · rfl
        · rw [if_neg (by omega), map_i31_upFrom hfi hfj]

/-! ## table.move -/

variable {f e t F E T : ℤ} {ps : List (ℤ × ℤ)}

/-- A word of 32 bits, and the position that it was made of. -/
structure Wrapped (W w : ℤ) : Prop where
  lo : -2^31 ≤ W
  hi : W < 2^31
  eq : -2^31 ≤ w → w < 2^31 → W = w

theorem wrapped (k : Int64) : Wrapped (wrap32 k) k.toInt where
  lo := by
    rw [wrap32_bmod]
    exact (i32_bounds _).1
  hi := by
    rw [wrap32_bmod]
    exact (i32_bounds _).2
  eq := wrap32_of_bounds

/-- The first and the last pair of a range are copied. -/
theorem copies_ends (hfe : f ≤ e) (h : ps.Perm (copies f e t)) : (f, t) ∈ ps ∧ (e, t + (e - f)) ∈ ps := by
  constructor
  · rw [h.mem_iff]
    exact List.mem_map.mpr ⟨0, mem_upFrom.mpr ⟨by omega, by omega⟩, by simp⟩
  · rw [h.mem_iff]
    exact List.mem_map.mpr ⟨e - f, mem_upFrom.mpr ⟨by omega, by omega⟩, by simp⟩

theorem copies_eq_nil (h : e < f) : copies f e t = [] := by
  unfold copies
  rw [upFrom_eq_nil.mpr (by omega)]
  rfl

/-- The loop copies what it has to, if all positions are of 31 bits. -/
theorem moveLoop_eq (hf : Fits31 f) (he : Fits31 e) (ht : Fits31 t) (hte : Fits31 (t + (e - f))) :
    moveLoop f t (e - f + 1) = copies f e t := by
  obtain ⟨hflo, -⟩ := hf
  obtain ⟨-, hehi⟩ := he
  obtain ⟨htlo, -⟩ := ht
  obtain ⟨-, htehi⟩ := hte
  unfold moveLoop copies
  apply List.map_congr_left
  intro k hk
  rw [mem_upFrom] at hk
  rw [i31_of_fits ⟨by omega, by omega⟩, i31_of_fits ⟨by omega, by omega⟩]

/-- The loop copies positions of 31 bits. -/
theorem fits_of_mem_moveLoop {p : ℤ × ℤ} (h : p ∈ moveLoop F T n) : Fits31 p.1 ∧ Fits31 p.2 ∧ 0 < n := by
  obtain ⟨k, hk, rfl⟩ := List.mem_map.mp h
  rw [mem_upFrom] at hk
  exact ⟨i31_fits _, i31_fits _, by omega⟩

/-- The fast path goes over the pairs of its range, or leaves an array. -/
theorem moveFast_over (h : moveFast a1 a2 F T n = .over ps) :
    F - 1 + n ≤ a1.cap ∧ T - 1 + n ≤ a2.cap ∧ ∀ p ∈ ps, ∃ k, 0 ≤ k ∧ k < n ∧ p = (F + k, T + k) := by
  unfold moveFast at h
  split at h
  · rename_i hroom
    refine ⟨hroom.1, hroom.2, ?_⟩
    intro p hp
    rw [← Course.over.inj h] at hp
    obtain ⟨k, hk, rfl⟩ := List.mem_map.mp hp
    rw [mem_upFrom] at hk
    exact ⟨k, hk.1, by omega, rfl⟩
  · cases h

/-- `$builtin_table_move`, from its positions as words on. -/
def moveWords (a1 a2 : ArrayPart) (same noFloats : Bool) (F E T : ℤ) : Course (ℤ × ℤ) :=
  if F ≤ E then
    if MovesFast a1 a2 same noFloats F E T (i32 (E - F + 1)) then moveFast a1 a2 F T (i32 (E - F + 1))
    else if same = true ∧ F < T then .over (moveLoop F T (i32 (E - F + 1))).reverse
    else .over (moveLoop F T (i32 (E - F + 1)))
  else .over []

/-- A call goes over the pairs of the fast path, or over those of the loop in either direction. -/
theorem moveWords_over (h : moveWords a1 a2 same noFloats F E T = .over ps) (hFE : F ≤ E) :
    (MovesFast a1 a2 same noFloats F E T (i32 (E - F + 1)) ∧
      moveFast a1 a2 F T (i32 (E - F + 1)) = .over ps) ∨ ps.Perm (moveLoop F T (i32 (E - F + 1))) := by
  unfold moveWords at h
  rw [if_pos hFE] at h
  split at h
  · rename_i hfast
    exact Or.inl ⟨hfast, h⟩
  split at h
  · rw [← Course.over.inj h]
    exact Or.inr (List.reverse_perm _)
  · rw [← Course.over.inj h]
    exact Or.inr (List.Perm.refl _)

/-- A call copies nothing if its range is empty as words, or if its number is no positive `i32`. -/
theorem moveWords_nil_iff (hF : Wrapped F f) (hE : Wrapped E e) :
    (∃ ps, moveWords a1 a2 same noFloats F E T = .over ps ∧ ps.Perm []) ↔ E < F ∨ 2^31 ≤ E - F + 1 := by
  obtain ⟨hFlo, hFhi, -⟩ := hF
  obtain ⟨hElo, hEhi, -⟩ := hE
  by_cases hlt : E < F
  · refine iff_of_true ⟨[], ?_, List.Perm.nil⟩ (Or.inl hlt)
    unfold moveWords
    rw [if_neg (by omega)]
  by_cases hsmall : E - F + 1 < 2^31
  · -- the call copies something
    refine iff_of_false ?_ (by omega)
    rintro ⟨ps, h, hperm⟩
    obtain rfl := hperm.eq_nil
    have hnil : upFrom 0 (i32 (E - F + 1)) = [] := by
      obtain ⟨-, hfast⟩ | hloop := moveWords_over h (by omega)
      · unfold moveFast at hfast
        split at hfast
        · exact List.map_eq_nil_iff.mp (Course.over.inj hfast)
        · cases hfast
      · exact List.map_eq_nil_iff.mp hloop.symm.eq_nil
    rw [upFrom_eq_nil, i32_of_bounds (by omega) hsmall] at hnil
    omega
  · refine iff_of_true ⟨[], ?_, List.Perm.nil⟩ (by omega)
    have hloop : moveLoop F T (i32 (E - F + 1)) = [] := by
      rw [i32_of_large (by omega) (by omega)]
      unfold moveLoop
      rw [upFrom_eq_nil.mpr (by omega)]
      rfl
    have hslow : ¬ MovesFast a1 a2 same noFloats F E T (i32 (E - F + 1)) := by
      rintro ⟨⟨h1, h2⟩, -⟩
      omega
    unfold moveWords
    rw [if_pos (by omega), if_neg hslow, hloop]
    split
    · rfl
    · rfl

/-- A call that copies the first and the last pair of its range is exact. -/
theorem moveWords_exact (hF : Wrapped F f) (hE : Wrapped E e) (hT : Wrapped T t) (hfe : f ≤ e)
    (h : moveWords a1 a2 same noFloats F E T = .over ps) (hfirst : (f, t) ∈ ps) (hlast : (e, t + (e - f)) ∈ ps) :
    (1 ≤ f ∧ e ≤ a1.alen ∧ 1 ≤ t ∧ t + (e - f) ≤ a2.alen ∧ ¬ (same = true ∧ t = f) ∧ noFloats = true) ∨
      (Fits31 f ∧ Fits31 e ∧ Fits31 t ∧ Fits31 (t + (e - f)) ∧ e - f + 1 < 2^31) := by
  obtain ⟨hFlo, hFhi, hf⟩ := hF
  obtain ⟨hElo, hEhi, he⟩ := hE
  have hcap2 := a2.cap_lt
  have hFE : F ≤ E := by
    by_contra hlt
    unfold moveWords at h
    rw [if_neg hlt] at h
    obtain rfl := Course.over.inj h
    exact absurd hfirst List.not_mem_nil
  obtain ⟨⟨⟨hF1, hE1⟩, ⟨hT1, hT2⟩, hother, hfloats⟩, hfast⟩ | hloop := moveWords_over h hFE
  · -- the fast path
    rw [i32_of_bounds (z := E - F + 1) (by omega) (by omega)] at hfast hT2
    obtain ⟨hroom1, hroom2, hpairs⟩ := moveFast_over hfast
    obtain ⟨k, hk0, hkn, hk⟩ := hpairs _ hfirst
    obtain ⟨k', hk0', hkn', hk'⟩ := hpairs _ hlast
    obtain ⟨hfk, htk⟩ := Prod.mk.inj hk
    obtain ⟨hek, htek⟩ := Prod.mk.inj hk'
    obtain rfl : F = f := hf (by omega) (by omega)
    obtain rfl : E = e := he (by omega) (by omega)
    obtain rfl : T = t := by omega
    rw [show E - F + 1 - 1 = E - F by omega, i32_of_bounds (z := E - F) (by omega) (by omega),
      i32_of_bounds (by omega) (by omega)] at hT2
    exact Or.inl ⟨hF1, hE1, hT1, hT2, hother, hfloats⟩
  · -- the loop, in either direction
    obtain ⟨hff, hft, hpos⟩ := fits_of_mem_moveLoop (hloop.mem_iff.mp hfirst)
    obtain ⟨hfe', hfte, -⟩ := fits_of_mem_moveLoop (hloop.mem_iff.mp hlast)
    refine Or.inr ⟨hff, hfe', hft, hfte, ?_⟩
    obtain ⟨hflo, hfhi⟩ := hff
    obtain ⟨helo, hehi⟩ := hfe'
    dsimp only at hflo hfhi helo hehi
    rw [hf (by omega) (by omega), he (by omega) (by omega)] at hpos
    by_contra hlarge
    rw [i32_of_large (by omega) (by omega)] at hpos
    omega

/-- The fast path, within the array parts. -/
theorem moveWords_fast (hFE : F ≤ E) (hF1 : 1 ≤ F) (hE1 : E ≤ a1.alen) (hT1 : 1 ≤ T) (hT2 : T + (E - F) ≤ a2.alen)
    (hother : ¬ (same = true ∧ T = F)) (hfloats : noFloats = true) :
    moveWords a1 a2 same noFloats F E T = .over (copies F E T) := by
  have halen1 := a1.alen_le
  have hcap2 := a2.cap_lt
  have halen2 := a2.alen_le
  have hfast : MovesFast a1 a2 same noFloats F E T (E - F + 1) := by
    refine ⟨⟨hF1, hE1⟩, ⟨hT1, ?_⟩, hother, hfloats⟩
    rw [show E - F + 1 - 1 = E - F by omega, i32_of_bounds (z := E - F) (by omega) (by omega),
      i32_of_bounds (by omega) (by omega)]
    exact hT2
  unfold moveWords
  rw [if_pos hFE, i32_of_bounds (z := E - F + 1) (by omega) (by omega), if_pos hfast]
  unfold moveFast
  rw [if_pos ⟨by omega, by omega⟩]
  rfl

/-- Either way, with positions of 31 bits. -/
theorem moveWords_loop (hFE : F ≤ E) (hF : Fits31 F) (hE : Fits31 E) (hT : Fits31 T) (hTE : Fits31 (T + (E - F)))
    (hsmall : E - F + 1 < 2^31) :
    ∃ ps, moveWords a1 a2 same noFloats F E T = .over ps ∧ ps.Perm (copies F E T) := by
  have halen1 := a1.alen_le
  have halen2 := a2.alen_le
  have hloop := moveLoop_eq hF hE hT hTE
  obtain ⟨hTElo, hTEhi⟩ := hTE
  unfold moveWords
  rw [if_pos hFE, i32_of_bounds (z := E - F + 1) (by omega) hsmall]
  split
  · rename_i hfast
    obtain ⟨⟨hF1, hE1⟩, ⟨hT1, hT2⟩, -⟩ := hfast
    rw [show E - F + 1 - 1 = E - F by omega, i32_of_bounds (z := E - F) (by omega) (by omega),
      i32_of_bounds (by omega) (by omega)] at hT2
    unfold moveFast
    rw [if_pos ⟨by omega, by omega⟩]
    exact ⟨_, rfl, List.Perm.refl _⟩
  rw [hloop]
  split
  · exact ⟨_, rfl, List.reverse_perm _⟩
  · exact ⟨_, rfl, List.Perm.refl _⟩

theorem tableMove_exact_iff (a1 a2 : ArrayPart) (same noFloats : Bool) (first last dest : Int64) :
    (tableMove a1 a2 same noFloats first last dest).Copies first.toInt last.toInt dest.toInt ↔
      MoveExact a1 a2 same noFloats first last dest := by
  have hF := wrapped first
  have hE := wrapped last
  have hT := wrapped dest
  have hcap1 := a1.cap_lt
  have halen1 := a1.alen_le
  have hcap2 := a2.cap_lt
  have halen2 := a2.alen_le
  change (∃ ps, moveWords a1 a2 same noFloats (wrap32 first) (wrap32 last) (wrap32 dest) = .over ps ∧
    ps.Perm (copies first.toInt last.toInt dest.toInt)) ↔ _
  unfold MoveExact
  generalize wrap32 first = F at *
  generalize wrap32 last = E at *
  generalize wrap32 dest = T at *
  generalize first.toInt = f at *
  generalize last.toInt = e at *
  generalize dest.toInt = t at *
  by_cases hempty : e < f
  · rw [if_pos hempty, copies_eq_nil hempty]
    exact moveWords_nil_iff hF hE
  rw [if_neg hempty]
  constructor
  · rintro ⟨ps, h, hperm⟩
    obtain ⟨hfirst, hlast⟩ := copies_ends (by omega) hperm
    exact moveWords_exact hF hE hT (by omega) h hfirst hlast
  · rintro (⟨hf1, he1, ht1, ht2, hother, hfloats⟩ | ⟨hff, hfe, hft, hfte, hsmall⟩)
    · obtain rfl : F = f := hF.eq (by omega) (by omega)
      obtain rfl : E = e := hE.eq (by omega) (by omega)
      obtain rfl : T = t := hT.eq (by omega) (by omega)
      exact ⟨_, moveWords_fast (by omega) hf1 he1 ht1 ht2 hother hfloats, List.Perm.refl _⟩
    · obtain rfl : F = f := hF.eq (by have := hff.1; omega) (by have := hff.2; omega)
      obtain rfl : E = e := hE.eq (by have := hfe.1; omega) (by have := hfe.2; omega)
      obtain rfl : T = t := hT.eq (by have := hft.1; omega) (by have := hft.2; omega)
      exact moveWords_loop (by omega) hff hfe hft hfte hsmall

/-- The array part of `{1, 2}`. -/
def pairArr : ArrayPart := ⟨2, 2, Nat.le_refl 2, by decide⟩

end Lua2wasm.Positions
