import Lua2wasm.Table.ArrayPart
import Lua2wasm.Table.Insert

/-!
# The invariant of a table

`TabOk s skip` is the invariant of a table without a metatable that every operation keeps: both
parts are in order. As in the hash part, `skip` is a slot of the array part that has a marker and
not yet its double.

`Apart s` says that no key of the array part has a value in the hash part as well. An append can
break it. `TabState.tget` is the table as a map, and `tabGetRaw_spec` says that the raw read reads
it.
-/

namespace Lua2wasm.Table

open Raising

/-- The slot at an index of the array part. -/
def LuaTable.arrSlot (t : LuaTable) (i : ℕ) : Slot := (t.arr.getD []).getD i (.val .nil)

/-- The value at an index of the array part. -/
def LuaTable.arrValue (t : LuaTable) (i : ℕ) : Val :=
  match t.arrSlot i with
  | .val v => v
  | .mark => .float ((t.farr.getD []).getD i fzero)

/-- The table as a map. -/
def TabState.tget (s : TabState) : Key → Val
  | .int i => if inArr s.t i then s.t.arrValue (arrIndex i) else s.hget (.int i)
  | key => s.hget key

/-- The invariant of the array part. -/
structure ArrOk (t : LuaTable) (skip : Option ℕ) : Prop where
  /-- There is room for it. -/
  room : t.alen ≤ lengthOf t.arr
  /-- The last slot is not nil. -/
  last : ∀ n, t.alen = n + 1 → (t.arrSlot n).isNull = false
  /-- The doubles cover the array. -/
  farr : ∀ fa, t.farr = some fa → ∃ a, t.arr = some a ∧ fa.length = a.length
  /-- Every marker has a double. -/
  marked : ∀ i < t.alen, skip ≠ some i → t.arrSlot i = .mark → t.farr ≠ none
  /-- The length of the array is a number of 32 bits. -/
  len : lengthOf t.arr < 2^31

/-- The invariant of a table. -/
structure TabOk (s : TabState) (skip : Option ℕ) : Prop where
  /-- The hash part is in order. -/
  hash : ∃ sh, HashOk s sh none
  /-- The array part is in order. -/
  arr : ArrOk s.t skip

/-- A key of the array part has no value in the hash part. -/
def Apart (s : TabState) : Prop := ∀ i, inArr s.t i = true → s.hget (.int i) = .nil

/-- The hash part is the same. -/
structure HashSame (s s' : TabState) : Prop where
  /-- The shared shapes. -/
  shapes : s'.shapes = s.shapes
  /-- The shape of the table. -/
  shape : s'.t.shape = s.t.shape
  /-- The values. -/
  vals : s'.t.vals = s.t.vals
  /-- The doubles. -/
  fvals : s'.t.fvals = s.t.fvals

variable {s s' s'' : TabState} {sh : Shape} {skip : Option ℕ} {i j n : ℕ} {key : Key} {k v : Val} {w : Slot}
variable {t : LuaTable}

/-- The length fits an i32. -/
theorem ArrOk.small (hok : ArrOk t skip) : t.alen < 2^31 :=
  Nat.lt_of_le_of_lt hok.room hok.len

theorem HashSame.refl : HashSame s s := ⟨rfl, rfl, rfl, rfl⟩

theorem HashSame.trans (h : HashSame s s') (h' : HashSame s' s'') : HashSame s s'' :=
  ⟨h'.shapes.trans h.shapes, h'.shape.trans h.shape, h'.vals.trans h.vals, h'.fvals.trans h.fvals⟩

/-- The shape is the same. -/
theorem HashSame.shape_eq (h : HashSame s s') : s'.shape = s.shape := by
  unfold TabState.shape
  rw [h.shape, h.shapes]

theorem HashSame.slot (h : HashSame s s') (i : ℕ) : s'.t.slot i = s.t.slot i := by
  unfold LuaTable.slot
  rw [h.vals]

theorem HashSame.value (h : HashSame s s') (i : ℕ) : s'.t.value i = s.t.value i :=
  value_eq_of_slot (h.slot i) (by rw [h.fvals])

/-- So is each value of the hash part. -/
theorem HashSame.hget (h : HashSame s s') (key : Key) : s'.hget key = s.hget key := by
  unfold TabState.hget
  rw [h.shape_eq]
  cases s.shape with
  | none => rfl
  | some sh =>
    dsimp only
    cases sh.pos key with
    | none => rfl
    | some i => exact h.value i

/-- The hash part stays in order. -/
theorem HashSame.hashOk (h : HashSame s s') (hok : HashOk s sh skip) : HashOk s' sh skip where
  shapes := by
    rw [h.shapes]
    exact hok.shapes
  shape := h.shape_eq.trans hok.shape
  wf := hok.wf
  vals := by
    rw [h.vals]
    exact hok.vals
  small := by
    rw [h.vals]
    exact hok.small
  fvals := by
    rw [h.fvals, h.vals]
    exact hok.fvals
  marked i hi hne hmark := by
    rw [h.slot] at hmark
    rw [h.fvals]
    exact hok.marked i hi hne hmark
  own := by
    rw [h.shape]
    exact hok.own

theorem HashSame.grows (h : HashSame s s') : Grows s.shapes s'.shapes := by
  rw [h.shapes]
  exact Grows.refl

/-! ## Integer keys -/

theorem toInt_ofNat (h : n < 2^63) : (Int64.ofInt n).toInt = n :=
  Int64.toInt_ofInt_of_le (by omega) (by omega)

/-- The keys of the array part are `1` to its length. -/
theorem inArr_iff {i : Int64} : inArr t i = true ↔ 1 ≤ i.toInt ∧ i.toInt ≤ t.alen := by
  unfold inArr
  rw [decide_eq_true_iff]

theorem arrIndex_lt {i : Int64} (h : inArr t i = true) : arrIndex i < t.alen := by
  rw [inArr_iff] at h
  unfold arrIndex
  omega

/-- The integer key that goes with an index of the array part. -/
theorem toInt_of_inArr {i : Int64} (h : inArr t i = true) : i.toInt = (arrIndex i : ℤ) + 1 := by
  rw [inArr_iff] at h
  unfold arrIndex
  omega

/-- Two keys of the array part have two slots. -/
theorem arrIndex_inj {a b : Int64} (ha : inArr t a = true) (hb : inArr t b = true)
    (h : arrIndex a = arrIndex b) : a = b := by
  apply Int64.toInt_inj.mp
  rw [toInt_of_inArr ha, toInt_of_inArr hb, h]

/-- A key with a place in the array part denotes that integer. -/
theorem canon_of_asArrKey {i : Int64} (h : asArrKey k = some i) : canon k = some (.int i) := by
  cases k with
  | int j =>
    cases h
    rfl
  | float f =>
    have hi : f.toI64 = some i := h
    obtain ⟨-, hno, -⟩ | ⟨j, -, hj, hc⟩ | ⟨-, hno, -⟩ := canon_float_cases f
    · rw [hi] at hno
      cases hno
    · rw [hi] at hj
      cases hj
      exact hc
    · rw [hi] at hno
      cases hno
  | _ => cases h

/-- Any other key denotes no integer. -/
theorem canon_ne_int_of_asArrKey (h : asArrKey k = none) (i : Int64) : canon k ≠ some (.int i) := by
  cases k with
  | int j => cases h
  | float f =>
    have hno : f.toI64 = none := h
    obtain ⟨-, -, hc⟩ | ⟨j, -, hj, -⟩ | ⟨-, -, hc⟩ := canon_float_cases f
    · simp [hc]
    · rw [hno] at hj
      cases hj
    · simp [hc]
  | _ => simp

/-! ## Reading -/

theorem tget_of_ne_int (h : ∀ i, key ≠ .int i) : s.tget key = s.hget key := by
  cases key with
  | int i => exact absurd rfl (h i)
  | _ => rfl

/-- A key of the array part is read there. -/
theorem tget_of_inArr {i : Int64} (h : inArr s.t i = true) :
    s.tget (.int i) = s.t.arrValue (arrIndex i) := by
  simp only [TabState.tget, h]
  rfl

/-- Any other integer is read in the hash part. -/
theorem tget_of_not_inArr {i : Int64} (h : ¬ inArr s.t i = true) : s.tget (.int i) = s.hget (.int i) := by
  simp only [TabState.tget, h]
  rfl

theorem getElem?_arr (h : i < lengthOf s.t.arr) :
    ∃ a, s.t.arr = some a ∧ i < a.length ∧ a[i]? = some (s.t.arrSlot i) := by
  cases ha : s.t.arr with
  | none =>
    rw [ha] at h
    exact absurd h (Nat.not_lt_zero i)
  | some a =>
    rw [ha] at h
    refine ⟨a, rfl, h, ?_⟩
    unfold LuaTable.arrSlot
    rw [ha]
    exact getElem?_of_lt h

/-- The slot at an index of the array part can be read. -/
theorem ArrOk.tval_eq (hok : ArrOk s.t none) (hi : i < s.t.alen) :
    tval (s.t.arrSlot i) s.t.farr i = some (s.t.arrValue i) := by
  unfold LuaTable.arrValue
  cases hslot : s.t.arrSlot i with
  | val v => rfl
  | mark =>
    obtain ⟨fa, hfa⟩ := Option.ne_none_iff_exists'.mp (hok.marked i hi (by simp) hslot)
    obtain ⟨a, ha, hlen⟩ := hok.farr fa hfa
    have hroom := hok.room
    rw [ha, lengthOf_some] at hroom
    unfold tval
    rw [hfa]
    simp only [Option.bind_eq_bind, Option.bind_some, Option.getD_some]
    rw [getElem?_of_lt (show i < fa.length by omega)]
    rfl

/-- `$tab_get_raw` reads the map. -/
theorem tabGetRaw_spec (hok : TabOk s none) (k : Val) :
    tabGetRaw s k = some (((canon k).map s.tget).getD .nil) := by
  obtain ⟨sh, hhash⟩ := hok.hash
  have hget := tabGetHash_spec hhash k
  -- a key that is not an integer is looked up in the hash part
  have hother : (∀ i, canon k ≠ some (.int i)) →
      tabGetHash s k = some (((canon k).map s.tget).getD .nil) := by
    intro hne
    rw [hget]
    cases hc : canon k with
    | none => rfl
    | some key =>
      rw [Option.map_some, Option.map_some, tget_of_ne_int fun i heq => hne i (by rw [hc, heq])]
  unfold tabGetRaw
  split
  · rename_i hstr
    apply hother
    intro i
    cases k with
    | str o x => simp
    | _ => simp [Val.isStr] at hstr
  cases hi : asArrKey k with
  | none => exact hother fun i => canon_ne_int_of_asArrKey hi i
  | some i =>
    have hc := canon_of_asArrKey hi
    dsimp only
    split
    · rename_i hin
      have hlt := arrIndex_lt hin
      obtain ⟨a, ha, -, hread⟩ := getElem?_arr (Nat.lt_of_lt_of_le hlt hok.arr.room)
      rw [hc, Option.map_some, Option.getD_some, tget_of_inArr hin]
      simp only [ha, hread, Option.bind_eq_bind, Option.bind_some]
      exact hok.arr.tval_eq hlt
    · rename_i hin
      rw [hget, hc, Option.map_some, Option.map_some, tget_of_not_inArr hin]

/-! ## Room in the array part -/

/-- The array part is the same, in an array that may be larger. -/
structure ArrGrown (s s' : TabState) : Prop extends HashSame s s' where
  /-- The length of the array part. -/
  alen : s'.t.alen = s.t.alen
  /-- The array is not smaller. -/
  len : lengthOf s.t.arr ≤ lengthOf s'.t.arr
  /-- Its length is still a number of 32 bits. -/
  fits : lengthOf s.t.arr < 2^31 → lengthOf s'.t.arr < 2^31
  /-- The slots hold what they held. -/
  slot : ∀ i, s'.t.arrSlot i = s.t.arrSlot i
  /-- The doubles are there if they were. -/
  farr : ∀ fa, s'.t.farr = some fa → ∃ a, s'.t.arr = some a ∧ fa.length = a.length
  /-- They are what they were. -/
  double : ∀ i, (s'.t.farr.getD []).getD i fzero = (s.t.farr.getD []).getD i fzero
  /-- They are still there. -/
  some : s.t.farr ≠ none → s'.t.farr ≠ none

/-- An empty slot reads as `nil`. -/
theorem arrValue_of_isNull (h : (s.t.arrSlot i).isNull = true) : s.t.arrValue i = .nil := by
  unfold LuaTable.arrValue
  unfold Slot.isNull at h
  rw [of_decide_eq_true h]

/-- A slot and its double give the value. -/
theorem arrValue_eq_of_slot (hv : s'.t.arrSlot i = s.t.arrSlot j)
    (hf : (s'.t.farr.getD []).getD i fzero = (s.t.farr.getD []).getD j fzero) :
    s'.t.arrValue i = s.t.arrValue j := by
  unfold LuaTable.arrValue
  rw [hv, hf]

/-- A larger array has the same values. -/
theorem ArrGrown.value (h : ArrGrown s s') (i : ℕ) : s'.t.arrValue i = s.t.arrValue i :=
  arrValue_eq_of_slot (h.slot i) (h.double i)

/-- It is in order. -/
theorem ArrGrown.arrOk (h : ArrGrown s s') (hok : ArrOk s.t skip) : ArrOk s'.t skip where
  room := by
    have h1 := h.alen
    have h2 := h.len
    have h3 := hok.room
    omega
  last n hn := by
    rw [h.slot]
    exact hok.last n (h.alen.symm.trans hn)
  farr := h.farr
  marked i hi hne hmark := by
    rw [h.slot] at hmark
    rw [h.alen] at hi
    exact h.some (hok.marked i hi hne hmark)
  len := h.fits hok.len

/-- A larger array, with the same slots. -/
theorem arrGrow_spec {a : List Slot} {need : ℕ} (hok : ArrOk s.t skip) (ha : s.t.arr = some a)
    (hlt : a.length < need) (hneed : need < 2^31) :
    Ensures (arrGrow a need) s (fun _ s' => ArrGrown s s' ∧ need ≤ lengthOf s'.t.arr) := by
  have hcap : a.length ≤ arrCap a.length need ∧ need ≤ arrCap a.length need ∧
      arrCap a.length need < 2^31 := by
    unfold arrCap
    split <;> omega
  obtain ⟨hcap, hle, hfits⟩ := hcap
  unfold arrGrow
  apply meets_orStuck (arrayCopy_new (Nat.le_refl a.length) hcap)
  apply meets_get_bind
  obtain ⟨na, hna⟩ : ∃ na, na = a.take a.length ++
      List.replicate (arrCap a.length need - a.length) (Slot.val .nil) := ⟨_, rfl⟩
  have hnalen : na.length = arrCap a.length need := by
    rw [hna]
    exact length_copy (Nat.le_refl a.length) hcap
  -- the new slots read as `nil`, as those beyond the old array did
  have hslot : ∀ i, na.getD i (.val .nil) = s.t.arrSlot i := by
    intro i
    unfold LuaTable.arrSlot
    rw [ha, hna]
    exact getD_copy_default rfl i
  rw [← hna]
  rw [← hnalen] at hle hfits
  have hlen : lengthOf s.t.arr ≤ na.length := by
    rw [ha, lengthOf_some]
    omega
  cases hf : s.t.farr with
  | none =>
    apply meets_modify
    refine ⟨⟨⟨rfl, rfl, rfl, rfl⟩, rfl, hlen, fun _ => hfits, hslot, ?_, fun _ => rfl, fun h => h⟩, hle⟩
    intro fa hfa
    rw [hf] at hfa
    cases hfa
  | some fa =>
    obtain ⟨a', ha', hfalen⟩ := hok.farr fa hf
    rw [ha] at ha'
    cases ha'
    unfold farrGrow
    apply meets_orStuck (arrayCopy_new (Nat.le_refl fa.length) (by omega))
    apply meets_modify
    refine ⟨⟨⟨rfl, rfl, rfl, rfl⟩, rfl, hlen, fun _ => hfits, hslot, ?_, ?_, ?_⟩, hle⟩
    · intro fa' hfa'
      cases hfa'
      refine ⟨na, rfl, ?_⟩
      rw [length_copy (Nat.le_refl fa.length) (by omega), hnalen]
    · intro i
      rw [hf]
      exact getD_copy_default rfl i
    · intro _ hnone
      cases hnone

/-- `$arr_ensure` makes room. -/
theorem arrEnsure_spec {need : ℕ} (hok : ArrOk s.t skip) (hneed : need < 2^31) :
    Ensures (arrEnsure need) s (fun _ s' => ArrGrown s s' ∧ need ≤ lengthOf s'.t.arr) := by
  unfold arrEnsure
  apply meets_get_bind
  cases ha : s.t.arr with
  | none =>
    have hfarr : s.t.farr = none := by
      cases hf : s.t.farr with
      | none => rfl
      | some fa =>
        obtain ⟨a, ha', -⟩ := hok.farr fa hf
        rw [ha] at ha'
        cases ha'
    apply meets_modify
    refine ⟨⟨⟨rfl, rfl, rfl, rfl⟩, rfl, ?_, ?_, ?_, ?_, fun _ => rfl, fun h => h⟩, ?_⟩
    · rw [ha]
      exact Nat.zero_le _
    · intro _
      change (List.replicate (max 4 need) (Slot.val .nil)).length < 2^31
      rw [List.length_replicate]
      omega
    · intro i
      unfold LuaTable.arrSlot
      rw [ha]
      change (List.replicate (max 4 need) (Slot.val .nil)).getD i (.val .nil) = _
      rw [List.getD_eq_getElem?_getD, List.getElem?_replicate]
      split <;> rfl
    · intro fa hfa
      rw [hfarr] at hfa
      cases hfa
    · change need ≤ (List.replicate (max 4 need) (Slot.val .nil)).length
      rw [List.length_replicate]
      exact Nat.le_max_right 4 need
  | some a =>
    dsimp only
    split
    · rename_i hle
      have hle' : need ≤ a.length := by omega
      refine meets_pure ⟨⟨HashSame.refl, rfl, Nat.le_refl _, fun h => h, fun _ => rfl, hok.farr,
        fun _ => rfl, fun h => h⟩, ?_⟩
      rw [ha]
      exact hle'
    · rename_i hle
      exact arrGrow_spec hok ha (by omega) hneed

/-! ## Writing -/

/-- A write to a slot of the array part. -/
structure ArrWritten (s s' : TabState) (i : ℕ) (w : Slot) : Prop extends HashSame s s' where
  /-- The length of the array part. -/
  alen : s'.t.alen = s.t.alen
  /-- The size of the array. -/
  len : lengthOf s'.t.arr = lengthOf s.t.arr
  /-- The slots. -/
  slot : ∀ j, s'.t.arrSlot j = if j = i then w else s.t.arrSlot j
  /-- The doubles cover the array. -/
  covered : ∀ fa, s'.t.farr = some fa → ∃ a, s'.t.arr = some a ∧ fa.length = a.length
  /-- They are the same. -/
  farr : s'.t.farr = s.t.farr

/-- `$set_arr` writes one slot and its double. -/
theorem setArr_spec (hfarr : ∀ fa, s.t.farr = some fa → ∃ a, s.t.arr = some a ∧ fa.length = a.length)
    (hi : i < lengthOf s.t.arr) (w : Slot) :
    Ensures (setArr i w) s (fun _ s' => ArrWritten s s' i w) := by
  obtain ⟨a, ha, hlt, -⟩ := getElem?_arr hi
  unfold setArr
  apply meets_get_bind
  apply meets_orStuck ha
  apply meets_orStuck (setAt_of_lt hlt)
  apply meets_modify
  refine ⟨⟨rfl, rfl, rfl, rfl⟩, rfl, ?_, ?_, ?_, rfl⟩
  · change (a.set i w).length = lengthOf s.t.arr
    rw [List.length_set, ha, lengthOf_some]
  · intro j
    unfold LuaTable.arrSlot
    rw [ha]
    exact getD_set hlt
  · intro fa hfa
    obtain ⟨a', ha', hlen⟩ := hfarr fa hfa
    rw [ha] at ha'
    cases ha'
    refine ⟨a.set i w, rfl, ?_⟩
    rw [List.length_set]
    exact hlen

/-- The other slots keep their values. -/
theorem ArrWritten.value (h : ArrWritten s s' i w) (hj : j ≠ i) :
    s'.t.arrValue j = s.t.arrValue j := by
  apply arrValue_eq_of_slot
  · rw [h.slot, if_neg hj]
  · rw [h.farr]

theorem setAlen_spec (n : ℕ) :
    Ensures (setAlen n) s (fun _ s' => s' = { s with t := { s.t with alen := n } }) := by
  unfold setAlen
  exact meets_modify rfl

/-- The array part is one slot longer. -/
structure Pushed (s s' : TabState) (w : Slot) : Prop extends HashSame s s' where
  /-- It is in order. -/
  arr : ArrOk s'.t (if w = .mark then some s.t.alen else none)
  /-- Its length. -/
  alen : s'.t.alen = s.t.alen + 1
  /-- The new slot. -/
  last : s'.t.arrSlot s.t.alen = w
  /-- The other slots. -/
  slot : ∀ i, i ≠ s.t.alen → s'.t.arrSlot i = s.t.arrSlot i
  /-- The values. -/
  value : ∀ i, i ≠ s.t.alen → s'.t.arrValue i = s.t.arrValue i

/-- An array part that is longer by one slot is in order. -/
theorem pushed_of_written {s₁ s₂ : TabState} (hok : ArrOk s.t none)
    (hw : w.isNull = false) (hg : ArrGrown s s₁) (hroom : s.t.alen + 1 ≤ lengthOf s₁.t.arr)
    (hwr : ArrWritten s₁ s₂ s.t.alen w) :
    Pushed s { s₂ with t := { s₂.t with alen := s.t.alen + 1 } } w := by
  have hslot : ∀ i, i ≠ s.t.alen → s₂.t.arrSlot i = s.t.arrSlot i := by
    intro i hi
    rw [hwr.slot, if_neg hi, hg.slot]
  have hlast : s₂.t.arrSlot s.t.alen = w := by rw [hwr.slot, if_pos rfl]
  have hfarr : s.t.farr ≠ none → s₂.t.farr ≠ none := by
    rw [hwr.farr]
    exact hg.some
  refine ⟨⟨hwr.shapes.trans hg.shapes, hwr.shape.trans hg.shape, hwr.vals.trans hg.vals,
    hwr.fvals.trans hg.fvals⟩, ⟨?_, ?_, hwr.covered, ?_, ?_⟩, rfl, hlast, hslot, ?_⟩
  · change s.t.alen + 1 ≤ lengthOf s₂.t.arr
    rw [hwr.len]
    exact hroom
  · intro n h
    change s.t.alen + 1 = n + 1 at h
    obtain rfl : s.t.alen = n := Nat.succ.inj h
    change (s₂.t.arrSlot s.t.alen).isNull = false
    rw [hlast]
    exact hw
  · -- the new slot is the only one that can miss its double
    intro i hi hne hmark
    change i < s.t.alen + 1 at hi
    change s₂.t.arrSlot i = .mark at hmark
    by_cases hia : i = s.t.alen
    · subst hia
      rw [hlast] at hmark
      rw [if_pos hmark] at hne
      exact absurd rfl hne
    · rw [hslot i hia] at hmark
      exact hfarr (hok.marked i (by omega) (by simp) hmark)
  · change lengthOf s₂.t.arr < 2^31
    rw [hwr.len]
    exact hg.fits hok.len
  · intro i hi
    exact (hwr.value hi).trans (hg.value i)

/-- `$arr_push` puts a value behind the last one. -/
theorem arrPush_spec (hok : ArrOk s.t none) (hn : s.t.alen + 1 < 2^31) (hw : w.isNull = false) :
    Ensures (arrPush w) s (fun _ s' => Pushed s s' w) := by
  unfold arrPush
  apply meets_get_bind
  apply (arrEnsure_spec hok hn).bind
  rintro _ s₁ ⟨hg, hroom⟩
  apply (setArr_spec hg.farr (show s.t.alen < lengthOf s₁.t.arr by omega) w).bind
  intro _ s₂ hwr
  refine (setAlen_spec (s.t.alen + 1)).imp ?_
  rintro _ s' rfl
  exact pushed_of_written hok hw hg hroom hwr

/-- A slot that holds a value, or is not part of the array part, needs no double. -/
theorem ArrOk.of_skip (hok : ArrOk t (some i)) (h : i < t.alen → t.arrSlot i ≠ .mark) : ArrOk t none where
  room := hok.room
  last := hok.last
  farr := hok.farr
  marked j hj _ hmark := by
    have hne : i ≠ j := by
      rintro rfl
      exact h hj hmark
    exact hok.marked j hj (by simpa using hne) hmark
  len := hok.len

theorem ArrOk.with_skip (hok : ArrOk t none) : ArrOk t skip where
  room := hok.room
  last := hok.last
  farr := hok.farr
  marked i hi _ hmark := hok.marked i hi (by simp) hmark
  len := hok.len
/-! ## Trimming -/
/-- `$arr_trim` stops at the last slot that is not nil. -/
theorem trimLen_spec {a : List Slot} : ∀ n ≤ a.length, ∃ m ≤ n, trimLen a n = some m ∧
      (∀ i, m ≤ i → i < n → (a.getD i (.val .nil)).isNull = true) ∧
      (∀ i, m = i + 1 → (a.getD i (.val .nil)).isNull = false) := by
  intro n
  induction n with
  | zero =>
    intro _
    refine ⟨0, Nat.le_refl 0, rfl, fun i _ hi => absurd hi (Nat.not_lt_zero i), ?_⟩
    intro i hi
    omega
  | succ n ih =>
    intro hn
    unfold trimLen
    rw [getElem?_of_lt (w := .val .nil) (show n < a.length by omega)]
    simp only [Option.bind_eq_bind, Option.bind_some]
    cases hnull : (a.getD n (.val .nil)).isNull with
    | true =>
      obtain ⟨m, hm, htrim, hnulls, hlast⟩ := ih (by omega)
      refine ⟨m, by omega, htrim, ?_, hlast⟩
      intro i hmi hi
      obtain hlt | rfl := Nat.lt_succ_iff_lt_or_eq.mp hi
      · exact hnulls i hmi hlt
      · exact hnull
    | false =>
      refine ⟨n + 1, Nat.le_refl _, rfl, fun i hmi hi => by omega, ?_⟩
      intro i hi
      obtain rfl : n = i := Nat.succ.inj hi
      exact hnull

/-- What trimming does: the holes at the end are cut off. -/
structure Trimmed (s s' : TabState) : Prop extends HashSame s s' where
  /-- The array. -/
  arr : s'.t.arr = s.t.arr
  /-- The doubles. -/
  farr : s'.t.farr = s.t.farr
  /-- The length. -/
  alen : s'.t.alen ≤ s.t.alen
  /-- Only holes were cut off. -/
  holes : ∀ i, s'.t.alen ≤ i → i < s.t.alen → (s.t.arrSlot i).isNull = true
  /-- The last slot is no hole. -/
  last : ∀ i, s'.t.alen = i + 1 → (s.t.arrSlot i).isNull = false

/-- `$arr_trim` ends the array part before its empty slots. -/
theorem arrTrim_spec (hroom : s.t.alen ≤ lengthOf s.t.arr) :
    Ensures arrTrim s (fun _ s' => Trimmed s s') := by
  have hlen : (s.t.arr.getD []).length = lengthOf s.t.arr := by
    cases s.t.arr <;> rfl
  obtain ⟨m, hm, htrim, hholes, hlast⟩ := trimLen_spec (a := s.t.arr.getD []) s.t.alen (by omega)
  unfold arrTrim
  apply meets_get_bind
  apply meets_orStuck htrim
  refine (setAlen_spec m).imp ?_
  rintro _ s' rfl
  exact ⟨⟨rfl, rfl, rfl, rfl⟩, rfl, rfl, hm, hholes, hlast⟩

theorem Trimmed.slot (h : Trimmed s s') (i : ℕ) : s'.t.arrSlot i = s.t.arrSlot i := by
  unfold LuaTable.arrSlot
  rw [h.arr]

/-- No value is lost. -/
theorem Trimmed.value (h : Trimmed s s') (i : ℕ) : s'.t.arrValue i = s.t.arrValue i :=
  arrValue_eq_of_slot (h.slot i) (by rw [h.farr])

/-- A trimmed array part is in order. -/
theorem Trimmed.arrOk (h : Trimmed s s') (hroom : s.t.alen ≤ lengthOf s.t.arr)
    (hfarr : ∀ fa, s.t.farr = some fa → ∃ a, s.t.arr = some a ∧ fa.length = a.length)
    (hmarked : ∀ i < s.t.alen, skip ≠ some i → s.t.arrSlot i = .mark → s.t.farr ≠ none)
    (hlen : lengthOf s.t.arr < 2^31) : ArrOk s'.t skip := by
  have halen := h.alen
  refine ⟨?_, ?_, ?_, ?_, by rw [h.arr]; exact hlen⟩
  · rw [h.arr]
    omega
  · intro n hn
    rw [h.slot]
    exact h.last n hn
  · rw [h.farr, h.arr]
    exact hfarr
  · intro i hi hne hmark
    rw [h.slot] at hmark
    rw [h.farr]
    exact hmarked i (by omega) hne hmark

/-- A hole that is cut off had no value, so the table reads as before. -/
theorem Trimmed.tget (h : Trimmed s s') {i : Int64} (hin : inArr s.t i = true)
    (hout : ¬ inArr s'.t i = true) : s.t.arrValue (arrIndex i) = .nil := by
  have hi := arrIndex_lt hin
  have hle : s'.t.alen ≤ arrIndex i := by
    have h1 := toInt_of_inArr hin
    rw [inArr_iff] at hin hout
    omega
  have hnull := h.holes (arrIndex i) hle hi
  unfold LuaTable.arrValue
  unfold Slot.isNull at hnull
  rw [of_decide_eq_true hnull]

/-! ## Unboxed floats -/

/-- The double of a marked slot is written. -/
theorem setFarr_spec {f : F64} (hok : ArrOk s.t (some i)) (hi : i < s.t.alen) (hslot : s.t.arrSlot i = .mark) :
    Ensures (setFarr i f) s
      (fun _ s' => HashSame s s' ∧ ArrOk s'.t none ∧ s'.t.alen = s.t.alen ∧ s'.t.arr = s.t.arr ∧
        s'.t.arrValue i = .float f ∧ ∀ j, j ≠ i → s'.t.arrValue j = s.t.arrValue j) := by
  have hroom := hok.room
  obtain ⟨a, ha, hlt, -⟩ := getElem?_arr (Nat.lt_of_lt_of_le hi hroom)
  -- the doubles, which are made if there are none
  have hensure : Ensures farrEnsure s
      (fun fa s₁ => s₁ = { s with t := { s.t with farr := some fa } } ∧ fa.length = a.length ∧
        ∀ j, fa.getD j fzero = (s.t.farr.getD []).getD j fzero) := by
    unfold farrEnsure
    apply meets_get_bind
    apply meets_orStuck ha
    cases hf : s.t.farr with
    | none =>
      apply meets_pure_bind
      apply meets_modify_bind
      refine meets_pure ⟨rfl, List.length_replicate, fun j => ?_⟩
      rw [List.getD_eq_getElem?_getD, List.getElem?_replicate]
      split <;> rfl
    | some fa =>
      obtain ⟨a', ha', hlen⟩ := hok.farr fa hf
      rw [ha] at ha'
      cases ha'
      dsimp only
      rw [if_neg (by omega)]
      apply meets_pure_bind
      apply meets_modify_bind
      exact meets_pure ⟨rfl, hlen, fun _ => rfl⟩
  unfold setFarr
  apply hensure.bind
  rintro fa _ ⟨rfl, hlen, hfa⟩
  apply meets_orStuck (setAt_of_lt (show i < fa.length by omega))
  apply meets_modify
  change HashSame s { s with t := { s.t with farr := some (fa.set i f) } } ∧ _
  generalize hs' : ({ s with t := { s.t with farr := some (fa.set i f) } } : TabState) = s'
  have hslot' : ∀ j, s'.t.arrSlot j = s.t.arrSlot j := fun j => by rw [← hs']; rfl
  have hfarr' : s'.t.farr = some (fa.set i f) := by rw [← hs']
  refine ⟨⟨?_, ?_, ?_, ?_⟩, ⟨?_, ?_, ?_, ?_, ?_⟩, by rw [← hs'], by rw [← hs'], ?_, ?_⟩
  · rw [← hs']
  · rw [← hs']
  · rw [← hs']
  · rw [← hs']
  · rw [← hs']
    exact hok.room
  · intro n hn
    rw [hslot']
    rw [← hs'] at hn
    exact hok.last n hn
  · intro fa' hfa'
    rw [hfarr'] at hfa'
    cases hfa'
    refine ⟨a, ?_, ?_⟩
    · rw [← hs']
      exact ha
    · rw [List.length_set]
      exact hlen
  · intro j _ _ _ hnone
    rw [hfarr'] at hnone
    cases hnone
  · rw [← hs']
    exact hok.len
  · unfold LuaTable.arrValue
    rw [hslot', hslot, hfarr']
    simp only [Option.getD_some]
    rw [getD_set (by omega), if_pos rfl]
  · intro j hne
    apply arrValue_eq_of_slot (hslot' j)
    rw [hfarr', Option.getD_some, getD_set (by omega), if_neg hne, hfa]

end Lua2wasm.Table
