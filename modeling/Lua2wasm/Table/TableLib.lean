import Lua2wasm.Table.Shift

/-!
# `table.insert` and `table.remove`

Both do the element-wise writes of the reference manual (`insertWrites`, `removeWrites`), around the
border that `$tab_len` finds. The fast paths do them by one shift of the array part, and the result
is the same map (`insertFast_spec`, `removeFast_spec`). The slow paths do them one by one
(`runAll_spec`), each with its own condition, and a write that raises leaves the ones before it done.

A position is a number of 32 bits here, and one of 31 bits where it becomes a key. The conditions
`InsertClean` and `RemoveClean` ask that this cuts nothing off.
-/

namespace Lua2wasm.Table

open Raising

variable {s s' s'' : TabState} {sh : Shape} {skip : Option ℕ} {i j n pos : ℕ} {key : Key} {k v : Val}
  {w : Slot} {ws : List IntWrite}

/-! ## The fast paths -/

/-- The array part with a value inserted. -/
structure Opened (s s' : TabState) (pos : ℕ) (v : Val) : Prop extends HashSame s s' where
  /-- It is longer by one slot. -/
  alen : s'.t.alen = s.t.alen + 1
  /-- There is room for it. -/
  room : s.t.alen + 1 ≤ lengthOf s'.t.arr
  /-- The slots. -/
  slot : ∀ i, s'.t.arrSlot i = if i = pos - 1 then .val v
    else if pos ≤ i ∧ i < s.t.alen + 1 then s.t.arrSlot (i - 1) else s.t.arrSlot i
  /-- The values. -/
  value : ∀ i, s'.t.arrValue i = if i = pos - 1 then v
    else if pos ≤ i ∧ i < s.t.alen + 1 then s.t.arrValue (i - 1) else s.t.arrValue i
  /-- The doubles cover the array. -/
  covered : Covered s'.t
  /-- They are there if they were. -/
  some : s.t.farr ≠ none → s'.t.farr ≠ none
  /-- The length of the array is a number of 32 bits. -/
  len : lengthOf s'.t.arr < 2^31

theorem insertFast_opened (hok : TabOk s none) (hpos : 1 ≤ pos) (hle : pos ≤ s.t.alen + 1)
    (hfit : s.t.alen + 1 < 2^31) (v : Val) :
    Ensures (insertFast pos v) s (fun _ s' => Opened s s' pos v) := by
  unfold insertFast
  apply meets_get_bind
  -- room for one more value
  apply (arrEnsure_spec hok.arr hfit).bind
  rintro _ s₁ ⟨hg, hroom₁⟩
  have hne : s₁.t.arr ≠ none := by
    intro h
    rw [h] at hroom₁
    exact absurd hroom₁ (by simp [lengthOf])
  -- both parts move up by one from the position on
  apply (moveArr_spec (d := pos) (p := pos - 1) (m := s.t.alen + 1 - pos) (by omega) (by omega)
    hne).bind
  rintro _ s₂ ⟨hsame₂, halen₂, hfarr₂, ⟨a, a', ha, ha', hlen₂⟩, hslot₂⟩
  have hlen : lengthOf s₂.t.arr = lengthOf s₁.t.arr := by
    rw [ha, ha', lengthOf_some, lengthOf_some, hlen₂]
  have hcov : Covered s₂.t := by
    intro fa hfa
    rw [hfarr₂] at hfa
    obtain ⟨a₀, ha₀, h⟩ := hg.farr fa hfa
    rw [ha] at ha₀
    cases ha₀
    exact ⟨a', ha', h.trans hlen₂.symm⟩
  apply (moveFarr_spec (d := pos) (p := pos - 1) (m := s.t.alen + 1 - pos) hcov (by omega)
    (by omega)).bind
  intro _ s₃ hmoved
  have hsh := shifted_of_moved hsame₂ halen₂ hfarr₂ hlen hslot₂ hmoved
  have hroom₃ : pos - 1 < lengthOf s₃.t.arr := by
    rw [hsh.len]
    omega
  -- the value goes into the gap
  apply (setArr_spec hsh.covered hroom₃ (.val v)).bind
  intro _ s₄ hwr
  refine (setAlen_spec (s.t.alen + 1)).imp ?_
  rintro _ s' hs'
  have harr : s'.t.arr = s₄.t.arr := by
    subst hs'
    rfl
  have hfarr : s'.t.farr = s₄.t.farr := by
    subst hs'
    rfl
  have hslot₄ : ∀ i, s'.t.arrSlot i = s₄.t.arrSlot i := by
    intro i
    unfold LuaTable.arrSlot
    rw [harr]
  have hrange : ∀ i, (pos ≤ i ∧ i < pos + (s.t.alen + 1 - pos)) ↔ (pos ≤ i ∧ i < s.t.alen + 1) := by
    intro i
    omega
  refine ⟨?_, ?_, ?_, fun i => ?_, fun i => ?_, ?_, ?_, ?_⟩
  · refine ((hg.toHashSame.trans hsh.toHashSame).trans hwr.toHashSame).trans ?_
    subst hs'
    exact ⟨rfl, rfl, rfl, rfl⟩
  · subst hs'
    rfl
  · rw [harr, hwr.len, hsh.len]
    exact hroom₁
  · rw [hslot₄, hwr.slot, hsh.slot, hg.slot, hg.slot]
    simp only [hrange]
    split
    · rfl
    · split
      · congr 1
        omega
      · rfl
  · split
    · rename_i hi
      unfold LuaTable.arrValue
      rw [hslot₄, hwr.slot, if_pos hi]
    · rename_i hi
      have h : s'.t.arrValue i = s₄.t.arrValue i := arrValue_eq_of_slot (hslot₄ i) (by rw [hfarr])
      rw [h, hwr.value hi, hsh.value, hg.value, hg.value]
      simp only [hrange]
      split
      · congr 1
        omega
      · rfl
  · intro fa hfa
    rw [hfarr] at hfa
    rw [harr]
    exact hwr.covered fa hfa
  · intro h
    rw [hfarr, hwr.farr]
    exact hsh.some (hg.some h)
  · rw [harr, hwr.len, hsh.len]
    exact hg.fits hok.arr.len

/-- The array part is in order after the insertion. -/
theorem Opened.arrOk (h : Opened s s' pos v) (hok : ArrOk s.t none) (hle : pos ≤ s.t.alen + 1)
    (hpos : 1 ≤ pos) (hv : v ≠ .nil) : ArrOk s'.t none := by
  have halen := h.alen
  refine ⟨?_, ?_, h.covered, ?_, h.len⟩
  · rw [halen]
    exact h.room
  · intro i hi
    obtain rfl : s.t.alen = i := by omega
    rw [h.slot]
    split
    · exact decide_eq_false (by simpa using hv)
    · rw [if_pos (by omega)]
      exact hok.last _ (by omega)
  · intro i hi _ hmark
    apply h.some
    rw [h.slot] at hmark
    split at hmark
    · cases hmark
    · split at hmark
      · exact hok.marked (i - 1) (by omega) (by simp) hmark
      · exact hok.marked i (by omega) (by simp) hmark

/-- The insertion does the element-wise writes of `table.insert`. -/
theorem Opened.tget (h : Opened s s' pos v) (hsmall : s.t.alen + 1 < 2^31) (hpos : 1 ≤ pos)
    (hle : pos ≤ s.t.alen + 1) : s'.tget = Map.writes s.tget (insertWrites s.t.alen pos v) := by
  have halen := h.alen
  funext key
  obtain ⟨hat, habove, hother⟩ := writes_insertWrites (m := s.tget) (v := v)
    (show s.t.alen + 1 < 2^63 by omega) hpos hle key
  obtain ⟨i, hi, rfl, hget⟩ | ⟨hout, hget⟩ := tget_cases (s := s') (by omega) key
  · rw [hget, h.value]
    split
    · rename_i hi'
      rw [hat]
      rw [← ikey_succ]
      congr 1
      omega
    · split
      · rename_i hne' hi'
        rw [habove (i + 1) (by omega) (by omega) (ikey_succ i).symm, Nat.add_sub_cancel]
        obtain ⟨i, rfl⟩ := Nat.exists_eq_succ_of_ne_zero (show i ≠ 0 by omega)
        change _ = s.tget (arrKey i)
        rw [tget_arrKey_of_lt (by omega) (by omega)]
        rfl
      · rename_i hne' hi'
        rw [hother, tget_arrKey_of_lt (by omega) (by omega)]
        intro j hj hjn
        rw [← ikey_succ]
        exact ikey_ne (by omega) (by omega) (by omega)
  · -- a key that is not a position of the new array part
    have hpast : ∀ j, pos ≤ j → j ≤ s.t.alen + 1 → key ≠ ikey j := by
      intro j hj hjn heq
      obtain ⟨j, rfl⟩ := Nat.exists_eq_succ_of_ne_zero (show j ≠ 0 by omega)
      exact hout j (by omega) heq
    rw [hget, hother hpast, h.toHashSame.hget]
    obtain ⟨i, hi, rfl, -⟩ | ⟨-, hget'⟩ := tget_cases (s := s) (by omega) key
    · exact absurd rfl (hout i (by omega))
    · exact hget'.symm

/-- A length that does not fit 32 bits: nothing grows, and the shift is out of bounds. -/
theorem insertFast_full (hok : TabOk s none) (hle : pos ≤ s.t.alen + 1)
    (hfull : s.t.alen + 1 = 2^31) (v : Val) :
    Meets (insertFast pos v) s (fun _ _ => False) (fun e _ => e = .stuck) := by
  have hroom := hok.arr.room
  have hlen := hok.arr.len
  obtain ⟨a, ha, -⟩ := getElem?_arr (s := s) (i := 0) (by omega)
  rw [ha, lengthOf_some] at hlen
  have hensure : Ensures (arrEnsure (s.t.alen + 1)) s (fun _ s' => s' = s) := by
    unfold arrEnsure
    apply meets_get_bind
    rw [ha]
    dsimp only
    rw [if_pos (by omega)]
    exact meets_pure rfl
  unfold insertFast
  apply meets_get_bind
  apply hensure.bind_safe
  intro _ s₁ hs₁
  rw [hs₁]
  apply Meets.bind (Q := fun _ _ => False)
  · unfold moveArr
    apply meets_get_bind
    apply meets_orStuck ha
    have hcopy : arrayCopy a pos a (pos - 1) (s.t.alen + 1 - pos) = none := by
      unfold arrayCopy
      rw [if_neg (by omega)]
    rw [hcopy]
    exact meets_throw rfl
  · intro _ _ h
    exact h.elim

/-- The fast path of `table.insert`. It traps when the array part cannot grow. -/
theorem insertFast_spec (hok : TabOk s none) (hborder : s.hget (arrKey s.t.alen) = .nil)
    (hpos : 1 ≤ pos) (hle : pos ≤ s.t.alen + 1) (hv : v ≠ .nil) :
    Meets (insertFast pos v) s
      (fun _ s' => TabOk s' none ∧ Grows s.shapes s'.shapes ∧ (Apart s → Apart s') ∧
        s'.tget = Map.writes s.tget (insertWrites s.t.alen pos v))
      (fun e _ => e = .stuck ∧ s.t.alen + 1 = 2^31) := by
  have hsmall := hok.arr.small
  obtain ⟨sh, hash⟩ := hok.hash
  by_cases hfit : s.t.alen + 1 < 2^31
  · refine (insertFast_opened hok hpos hle hfit v).mono ?_ fun _ _ h => h.elim
    intro _ s' h
    refine ⟨⟨⟨sh, h.toHashSame.hashOk hash⟩, h.arrOk hok.arr hle hpos hv⟩, h.toHashSame.grows, ?_,
      h.tget hfit hpos hle⟩
    apply apart_of_longer (by omega) h.alen fun key _ => h.toHashSame.hget key
    rw [h.toHashSame.hget]
    exact hborder
  · have hfull : s.t.alen + 1 = 2^31 := by omega
    exact (insertFast_full hok hle hfull v).mono (fun _ _ h => h.elim) fun _ _ h => ⟨h, hfull⟩

/-- The array part with a value removed. -/
structure Closed (s s' : TabState) (pos : ℕ) : Prop extends HashSame s s' where
  /-- It is shorter by one slot, and by the holes before that. -/
  alen : s'.t.alen + 1 ≤ s.t.alen
  /-- The slots that are left. -/
  slot : ∀ i < s'.t.alen, s'.t.arrSlot i =
    if pos - 1 ≤ i then s.t.arrSlot (i + 1) else s.t.arrSlot i
  /-- The values that are left. -/
  value : ∀ i < s'.t.alen, s'.t.arrValue i =
    if pos - 1 ≤ i then s.t.arrValue (i + 1) else s.t.arrValue i
  /-- Only holes were cut off. -/
  holes : ∀ i, s'.t.alen ≤ i → i + 1 < s.t.alen →
    (if pos - 1 ≤ i then s.t.arrValue (i + 1) else s.t.arrValue i) = .nil
  /-- The array part is in order. -/
  arr : ArrOk s'.t none

theorem removeFast_closed (hok : TabOk s none) (hpos : 1 ≤ pos) (hle : pos ≤ s.t.alen) :
    Ensures (removeFast pos) s (fun a s' => a = s.t.arrValue (pos - 1) ∧ Closed s s' pos) := by
  have hroom := hok.arr.room
  obtain ⟨a, ha, -, hread⟩ := getElem?_arr (s := s) (i := pos - 1) (by omega)
  have hremoved : (do tval (← (← s.t.arr)[pos - 1]?) s.t.farr (pos - 1)) =
      some (s.t.arrValue (pos - 1)) := by
    simp only [ha, hread, Option.bind_eq_bind, Option.bind_some]
    exact hok.arr.tval_eq (by omega)
  unfold removeFast
  apply meets_get_bind
  apply meets_orStuck hremoved
  have hne : s.t.arr ≠ none := by
    rw [ha]
    exact Option.some_ne_none a
  apply (moveArr_spec (d := pos - 1) (p := pos) (m := s.t.alen - pos) (by omega) (by omega) hne).bind
  rintro _ s₂ ⟨hsame₂, halen₂, hfarr₂, ⟨b, b', hb, hb', hlen₂⟩, hslot₂⟩
  have hlen : lengthOf s₂.t.arr = lengthOf s.t.arr := by
    rw [hb, hb', lengthOf_some, lengthOf_some, hlen₂]
  have hcov : Covered s₂.t := by
    intro fa hfa
    rw [hfarr₂] at hfa
    obtain ⟨b₀, hb₀, h⟩ := hok.arr.farr fa hfa
    rw [hb] at hb₀
    cases hb₀
    exact ⟨b', hb', h.trans hlen₂.symm⟩
  apply (moveFarrDown_spec (d := pos - 1) (p := pos) (m := s.t.alen - pos) hcov (by omega)
    (by omega)).bind
  intro _ s₃ hmoved
  have hsh := shifted_of_moved hsame₂ halen₂ hfarr₂ hlen hslot₂ hmoved
  have hroom₃ : s.t.alen - 1 < lengthOf s₃.t.arr := by
    rw [hsh.len]
    omega
  apply (setArr_spec hsh.covered hroom₃ (.val .nil)).bind
  intro _ s₄ hwr
  apply (setAlen_spec (s.t.alen - 1)).bind
  intro _ s₅ hs₅
  have hsame₅ : HashSame s₄ s₅ := by
    subst hs₅
    exact ⟨rfl, rfl, rfl, rfl⟩
  have halen₅ : s₅.t.alen = s.t.alen - 1 := by
    subst hs₅
    rfl
  have harr₅ : s₅.t.arr = s₄.t.arr := by
    subst hs₅
    rfl
  have hfarr₅ : s₅.t.farr = s₄.t.farr := by
    subst hs₅
    rfl
  have hslot₅ : ∀ i, s₅.t.arrSlot i = s₄.t.arrSlot i := by
    intro i
    unfold LuaTable.arrSlot
    rw [harr₅]
  -- the slots and the values before the last
  have hslot : ∀ i, i + 1 < s.t.alen → s₅.t.arrSlot i =
      if pos - 1 ≤ i then s.t.arrSlot (i + 1) else s.t.arrSlot i := by
    intro i hi
    rw [hslot₅, hwr.slot, if_neg (by omega), hsh.slot]
    have hrange : (pos - 1 ≤ i ∧ i < pos - 1 + (s.t.alen - pos)) ↔ pos - 1 ≤ i := by omega
    simp only [hrange]
    split
    · congr 1
      omega
    · rfl
  have hvalue : ∀ i, i + 1 < s.t.alen → s₅.t.arrValue i =
      if pos - 1 ≤ i then s.t.arrValue (i + 1) else s.t.arrValue i := by
    intro i hi
    have h : s₅.t.arrValue i = s₄.t.arrValue i := arrValue_eq_of_slot (hslot₅ i) (by rw [hfarr₅])
    rw [h, hwr.value (by omega), hsh.value]
    have hrange : (pos - 1 ≤ i ∧ i < pos - 1 + (s.t.alen - pos)) ↔ pos - 1 ≤ i := by omega
    simp only [hrange]
    split
    · congr 1
      omega
    · rfl
  have hlen₅ : lengthOf s₅.t.arr = lengthOf s.t.arr := by
    rw [harr₅, hwr.len, hsh.len]
  have hroom₅ : s₅.t.alen ≤ lengthOf s₅.t.arr := by
    rw [hlen₅, halen₅]
    omega
  apply (arrTrim_spec hroom₅).bind
  intro _ s' htrim
  have halen' := htrim.alen
  refine meets_pure ⟨rfl, ?_, ?_, ?_, ?_, ?_, ?_⟩
  · exact ((hsh.toHashSame.trans hwr.toHashSame).trans hsame₅).trans htrim.toHashSame
  · omega
  · intro i hi
    rw [htrim.slot]
    exact hslot i (by omega)
  · intro i hi
    rw [htrim.value]
    exact hvalue i (by omega)
  · intro i hi hlt
    rw [← hvalue i hlt]
    have hnull := htrim.holes i hi (by omega)
    unfold LuaTable.arrValue
    unfold Slot.isNull at hnull
    rw [of_decide_eq_true hnull]
  · apply htrim.arrOk hroom₅
    · rw [hfarr₅, harr₅]
      exact hwr.covered
    · intro i hi _ hmark
      rw [hfarr₅, hwr.farr]
      apply hsh.some
      rw [hslot i (by omega)] at hmark
      split at hmark
      · exact hok.arr.marked (i + 1) (by omega) (by simp) hmark
      · exact hok.arr.marked i (by omega) (by simp) hmark
    · rw [hlen₅]
      exact hok.arr.len

/-- The removal does the element-wise writes of `table.remove`. -/
theorem Closed.tget (h : Closed s s' pos) (hapart : Apart s) (hsmall : s.t.alen < 2^31)
    (hpos : 1 ≤ pos) (hle : pos ≤ s.t.alen) :
    s'.tget = Map.writes s.tget (removeWrites s.t.alen pos) := by
  have halen := h.alen
  funext key
  obtain ⟨hlast, habove, hother⟩ := writes_removeWrites (m := s.tget)
    (show s.t.alen < 2^63 by omega) hle key
  -- the hash part has no value for a position of the old array part
  have hnil : ∀ i < s.t.alen, s.hget (arrKey i) = .nil := by
    intro i hi
    apply hapart
    rw [inArr_ofInt (by omega)]
    exact hi
  by_cases hin : ∃ i < s.t.alen, key = arrKey i
  · obtain ⟨i, hi, rfl⟩ := hin
    have hwrites : Map.writes s.tget (removeWrites s.t.alen pos) (arrKey i) =
        if i + 1 < s.t.alen then if pos - 1 ≤ i then s.t.arrValue (i + 1) else s.t.arrValue i
        else .nil := by
      split
      · split
        · rw [habove (i + 1) (by omega) (by omega) (ikey_succ i).symm, ikey_succ,
            tget_arrKey_of_lt (by omega) (by omega)]
        · rw [hother, tget_arrKey_of_lt (by omega) (by omega)]
          intro j hj hjn
          rw [← ikey_succ]
          exact ikey_ne (by omega) (by omega) (by omega)
      · apply hlast
        rw [← ikey_succ]
        congr 1
        omega
    rw [hwrites]
    by_cases hi' : i < s'.t.alen
    · rw [tget_arrKey_of_lt hi' (by omega), h.value i hi', if_pos (show i + 1 < s.t.alen by omega)]
    · -- the position was cut off, so its new value is nil
      rw [tget_arrKey_of_le (by omega) (by omega), h.toHashSame.hget, hnil i hi]
      split
      · rename_i hlt
        exact (h.holes i (by omega) hlt).symm
      · rfl
  · have hout : ∀ i < s.t.alen, key ≠ arrKey i := fun i hi heq => hin ⟨i, hi, heq⟩
    rw [hother]
    · obtain ⟨i, hi, heq, -⟩ | ⟨-, hget⟩ := tget_cases (s := s') (by omega) key
      · exact absurd heq (hout i (by omega))
      · obtain ⟨i, hi, heq, -⟩ | ⟨-, hget'⟩ := tget_cases (s := s) hsmall key
        · exact absurd heq (hout i hi)
        · rw [hget, hget', h.toHashSame.hget]
    · intro j hj hjn heq
      obtain ⟨j, rfl⟩ := Nat.exists_eq_succ_of_ne_zero (show j ≠ 0 by omega)
      exact hout j (by omega) heq

/-- The fast path of `table.remove`. -/
theorem removeFast_spec (hok : TabOk s none) (hpos : 1 ≤ pos) (hle : pos ≤ s.t.alen) :
    Ensures (removeFast pos) s
      (fun a s' => a = s.t.arrValue (pos - 1) ∧ TabOk s' none ∧ Grows s.shapes s'.shapes ∧
        (Apart s → Apart s' ∧ s'.tget = Map.writes s.tget (removeWrites s.t.alen pos))) := by
  refine (removeFast_closed hok hpos hle).imp ?_
  rintro a s' ⟨ha, h⟩
  obtain ⟨sh, hash⟩ := hok.hash
  refine ⟨ha, ⟨⟨sh, h.toHashSame.hashOk hash⟩, h.arr⟩, h.toHashSame.grows, fun hapart => ⟨?_, ?_⟩⟩
  · intro i hin
    rw [h.toHashSame.hget]
    apply hapart
    have halen := h.alen
    rw [inArr_iff] at hin ⊢
    omega
  · exact h.tget hapart hok.arr.small hpos hle

/-! ## The slow paths -/

/-- A position that fits 31 bits is its own key. -/
theorem refI31_of_lt (h : n < 2^30) : refI31 n = makeInt n := by
  unfold refI31
  rw [Int.bmod_eq_of_le (by omega) (by omega)]

/-- The runtime's element-wise write. -/
def IntWrite.run : IntWrite → TabM Unit
  | .move src dst => moveSlot src dst
  | .put dst v => tabSet (refI31 dst) v

/-- The positions of the write. -/
def IntWrite.Below (n : ℕ) : IntWrite → Prop
  | .move src dst => src < n ∧ dst < n
  | .put dst _ => dst < n

/-- The condition of an element-wise write. -/
def IntWrite.Clean (s : TabState) : IntWrite → Prop
  | .move src dst => ∀ v, tabGetRaw s (refI31 src) = some v → KeyClean s (refI31 dst) (.val v)
  | .put dst v => KeyClean s (refI31 dst) (.val v)

/-- The writes of a list, one after the other. -/
def runAll : List IntWrite → TabM Unit
  | [] => pure ()
  | w :: ws => do
    w.run
    runAll ws

/-- Each write meets its condition in the state that the writes before it lead to. -/
def WritesClean : List IntWrite → TabState → Prop
  | [], _ => True
  | w :: ws, s => w.Clean s ∧
    ∀ s', (w.run.run s : Except Fault Unit × TabState) = (.ok (), s') → WritesClean ws s'

/-- A write is done: if `P` holds and the table was apart, it is done to the map. -/
structure Wrote (P : Prop) (s s' : TabState) (m : Map) : Prop where
  /-- The table is in order. -/
  ok : TabOk s' none
  /-- No shared shape changed. -/
  grows : Grows s.shapes s'.shapes
  /-- The table as a map. -/
  exact : P → Apart s → Apart s' ∧ s'.tget = m

theorem Stored.wrote {P : Prop} (h : Stored P s s' key v) : Wrote P s s' (Map.put s.tget key v) where
  ok := h.ok
  grows := h.grows
  exact hP hapart := by
    obtain ⟨hapart', hget⟩ := h.exact hP hapart
    refine ⟨hapart', ?_⟩
    funext key'
    rw [hget, Map.put_apply]

theorem refI31_canon (n : ℤ) : ∃ i, canon (refI31 n) = some (.int i) := ⟨_, rfl⟩

theorem canon_refI31 (h : n < 2^30) : canon (refI31 n) = some (ikey n) := by
  rw [refI31_of_lt h]
  rfl

/-- One element-wise write. -/
theorem IntWrite.run_spec (hok : TabOk s none) (w : IntWrite) :
    Meets w.run s
      (fun _ s' => Wrote (w.Below (2^30) ∧ w.Clean s) s s' (Map.write s.tget w))
      (fun e s' => e ≠ .stuck ∧ Wrote (w.Below (2^30) ∧ w.Clean s) s s' s.tget) := by
  -- a store at a position
  have hput : ∀ (dst : ℕ) (v : Val), Meets (tabSet (refI31 dst) v) s
      (fun _ s' => Wrote (dst < 2^30 ∧ KeyClean s (refI31 dst) (.val v)) s s' (Map.put s.tget (ikey dst) v))
      (fun e s' => e ≠ .stuck ∧ Wrote (dst < 2^30 ∧ KeyClean s (refI31 dst) (.val v)) s s' s.tget) := by
    intro dst v
    obtain ⟨i, hc⟩ := refI31_canon dst
    refine (tabSet_spec hok hc v).mono ?_ ?_
    · intro _ s' h
      refine ⟨h.ok, h.grows, fun hP hapart => ?_⟩
      rw [canon_refI31 hP.1] at hc
      rw [Option.some.inj hc]
      exact h.wrote.exact hP.2 hapart
    · intro e s' h
      refine ⟨h.raised, h.ok, h.grows, fun hP hapart => ?_⟩
      obtain ⟨hapart', hget⟩ := h.exact hP.2 hapart
      exact ⟨hapart', funext hget⟩
  cases w with
  | put dst v => exact hput dst v
  | move src dst =>
    unfold IntWrite.run moveSlot
    apply meets_get_bind
    obtain ⟨i, hc⟩ := refI31_canon src
    have hread := tabGetRaw_spec hok (refI31 src)
    rw [hc, Option.map_some, Option.getD_some] at hread
    apply meets_orStuck hread
    have hv : src < 2^30 → s.tget (.int i) = s.tget (ikey src) := by
      intro hlt
      rw [canon_refI31 hlt] at hc
      rw [Option.some.inj hc]
    refine (hput dst (s.tget (.int i))).mono ?_ ?_
    · intro _ s' h
      refine ⟨h.ok, h.grows, fun hP hapart => ?_⟩
      obtain ⟨⟨hsrc, hdst⟩, hclean⟩ := hP
      obtain ⟨hapart', hget⟩ := h.exact ⟨hdst, hclean _ hread⟩ hapart
      refine ⟨hapart', ?_⟩
      rw [hget, hv hsrc]
      rfl
    · rintro e s' ⟨he, h⟩
      refine ⟨he, h.ok, h.grows, fun hP hapart => ?_⟩
      obtain ⟨⟨-, hdst⟩, hclean⟩ := hP
      exact h.exact ⟨hdst, hclean _ hread⟩ hapart

/-- A list of element-wise writes. If one raises, the ones before it are done. -/
theorem runAll_spec : ∀ (ws : List IntWrite) (s : TabState), TabOk s none →
    Meets (runAll ws) s
      (fun _ s' => Wrote ((∀ w ∈ ws, w.Below (2^30)) ∧ WritesClean ws s) s s' (Map.writes s.tget ws))
      (fun e s' => e ≠ .stuck ∧ ∃ p, p <+: ws ∧ p.length < ws.length ∧
        Wrote ((∀ w ∈ ws, w.Below (2^30)) ∧ WritesClean ws s) s s' (Map.writes s.tget p)) := by
  intro ws
  induction ws with
  | nil =>
    intro s hok
    exact meets_pure ⟨hok, Grows.refl, fun _ h => ⟨h, rfl⟩⟩
  | cons w ws ih =>
    intro s hok
    unfold runAll
    apply ((IntWrite.run_spec hok w).with_run.imp_error ?_).bind
    · rintro _ s₁ ⟨h, hrun⟩
      -- the rest runs from the state that the first write leads to
      have hnext : ((∀ w' ∈ w :: ws, w'.Below (2^30)) ∧ WritesClean (w :: ws) s) →
          (w.Below (2^30) ∧ w.Clean s) ∧ (∀ w' ∈ ws, w'.Below (2^30)) ∧ WritesClean ws s₁ := by
        rintro ⟨hbelow, hclean, hrest⟩
        exact ⟨⟨hbelow w List.mem_cons_self, hclean⟩,
          fun w' hw' => hbelow w' (List.mem_cons_of_mem w hw'), hrest s₁ hrun⟩
      refine (ih s₁ h.ok).mono ?_ ?_
      · intro _ s' h'
        refine ⟨h'.ok, h.grows.trans h'.grows, fun hP hapart => ?_⟩
        obtain ⟨hfirst, hrest⟩ := hnext hP
        obtain ⟨hapart₁, hget₁⟩ := h.exact hfirst hapart
        obtain ⟨hapart', hget'⟩ := h'.exact hrest hapart₁
        refine ⟨hapart', ?_⟩
        rw [hget', hget₁]
        rfl
      · rintro e s' ⟨he, p, hp, hlt, h'⟩
        refine ⟨he, w :: p, ?_, ?_, h'.ok, h.grows.trans h'.grows, fun hP hapart => ?_⟩
        · rw [List.cons_prefix_cons]
          exact ⟨rfl, hp⟩
        · simp only [List.length_cons]
          omega
        · obtain ⟨hfirst, hrest⟩ := hnext hP
          obtain ⟨hapart₁, hget₁⟩ := h.exact hfirst hapart
          obtain ⟨hapart', hget'⟩ := h'.exact hrest hapart₁
          refine ⟨hapart', ?_⟩
          rw [hget', hget₁]
          rfl
    · rintro e s' ⟨⟨he, h⟩, -⟩
      refine ⟨he, [], List.nil_prefix, by simp, h.ok, h.grows, fun hP hapart => ?_⟩
      obtain ⟨hbelow, hclean, -⟩ := hP
      exact h.exact ⟨hbelow w List.mem_cons_self, hclean⟩ hapart

theorem runAll_append (ws ws' : List IntWrite) :
    runAll (ws ++ ws') = (do
      runAll ws
      runAll ws') := by
  induction ws with
  | nil => exact (pure_bind () fun _ => runAll ws').symm
  | cons w ws ih =>
    change (w.run >>= fun _ => runAll (ws ++ ws')) = (w.run >>= fun _ => runAll ws) >>= fun _ => runAll ws'
    rw [ih, bind_assoc]

theorem runAll_singleton (w : IntWrite) : runAll [w] = w.run := bind_pure w.run

theorem shiftUpFrom_eq (todo i : ℕ) : shiftUpFrom todo i = runAll (upMoves todo i) := by
  induction todo generalizing i with
  | zero => rfl
  | succ todo ih =>
    unfold shiftUpFrom
    rw [ih]
    rfl

theorem shiftDownFrom_eq (todo i : ℕ) : shiftDownFrom todo i = runAll (downMoves todo i) := by
  induction todo generalizing i with
  | zero => rfl
  | succ todo ih =>
    unfold shiftDownFrom
    rw [ih]
    rfl

/-- The slow path of `table.insert` does its writes one by one. -/
theorem insertSlow_eq (n pos : ℕ) (v : Val) : insertSlow n pos v = runAll (insertWrites n pos v) := by
  unfold insertSlow insertWrites
  rw [runAll_append, runAll_singleton, shiftUpFrom_eq]
  rfl

/-- The slow path of `table.remove` does its writes one by one. -/
theorem removeSlow_eq (n pos : ℕ) :
    removeSlow n pos = (do
      let removed ← orStuck (tabGetRaw (← get) (refI31 pos))
      runAll (removeWrites n pos)
      pure removed) := by
  unfold removeSlow removeWrites
  rw [shiftDownFrom_eq]
  simp only [runAll_append, runAll_singleton, bind_assoc]
  rfl

theorem upMoves_below {m : ℕ} : ∀ {todo i : ℕ}, i + 1 < m → ∀ w ∈ upMoves todo i, w.Below m := by
  intro todo
  induction todo with
  | zero => exact fun _ w hw => absurd hw List.not_mem_nil
  | succ todo ih =>
    intro i hi w hw
    obtain rfl | hw := List.mem_cons.mp hw
    · exact ⟨by omega, hi⟩
    · exact ih (by omega) w hw

theorem downMoves_below {m : ℕ} : ∀ {todo i : ℕ}, i + todo < m → ∀ w ∈ downMoves todo i, w.Below m := by
  intro todo
  induction todo with
  | zero => exact fun _ w hw => absurd hw List.not_mem_nil
  | succ todo ih =>
    intro i hi w hw
    obtain rfl | hw := List.mem_cons.mp hw
    · exact ⟨by omega, by omega⟩
    · exact ih (by omega) w hw

theorem insertWrites_below {m : ℕ} (hn : n + 1 < m) (hle : pos ≤ n + 1) :
    ∀ w ∈ insertWrites n pos v, w.Below m := by
  intro w hw
  obtain hw | hw := List.mem_append.mp hw
  · exact upMoves_below hn w hw
  · rw [List.mem_singleton.mp hw]
    exact Nat.lt_of_le_of_lt hle hn

theorem removeWrites_below {m : ℕ} (hn : n + 1 < m) (hle : pos ≤ n + 1) :
    ∀ w ∈ removeWrites n pos, w.Below m := by
  intro w hw
  obtain hw | hw := List.mem_append.mp hw
  · exact downMoves_below (by omega) w hw
  · rw [List.mem_singleton.mp hw]
    change max pos n < m
    omega

/-! ## The functions -/

/-- An operation on the table is done. If `P` holds and the table was apart, it is done to the map. -/
structure Did (P : Prop) (s s' : TabState) (op : MapOp) (raised : Bool) : Prop where
  /-- The table is in order. -/
  ok : TabOk s' none
  /-- No shared shape changed. -/
  grows : Grows s.shapes s'.shapes
  /-- The table as a map. -/
  exact : P → Apart s → Apart s' ∧ Map.Step s.tget op raised s'.tget

theorem Stored.did {P : Prop} (h : Stored P s s' key v) : Did P s s' (.set (some key) v) false where
  ok := h.ok
  grows := h.grows
  exact hP hapart := by
    obtain ⟨hapart', hget⟩ := h.wrote.exact hP hapart
    refine ⟨hapart', ?_⟩
    rw [hget]
    exact Map.Step.set key v

theorem Failed.did {P : Prop} {e : Fault} (h : Failed P e s s') (key : Option Key) (v : Val) :
    Did P s s' (.set key v) true where
  ok := h.ok
  grows := h.grows
  exact hP hapart := by
    obtain ⟨hapart', hget⟩ := h.exact hP hapart
    refine ⟨hapart', ?_⟩
    rw [funext hget]
    exact Map.Step.failed key v

/-- A table that an operation did nothing to. -/
theorem Did.refused {P : Prop} {op : MapOp} (hok : TabOk s none) (h : P → op.Writes s.tget []) :
    Did P s s op true where
  ok := hok
  grows := Grows.refl
  exact hP hapart := ⟨hapart, Map.Step.interrupted op [] [] (h hP) List.nil_prefix (Or.inr rfl)⟩

theorem Wrote.did {P Q : Prop} {op : MapOp} (h : Wrote P s s' (Map.writes s.tget ws)) (hP : Q → P)
    (hws : Q → op.Writes s.tget ws) : Did Q s s' op false where
  ok := h.ok
  grows := h.grows
  exact hQ hapart := by
    obtain ⟨hapart', hget⟩ := h.exact (hP hQ) hapart
    refine ⟨hapart', ?_⟩
    rw [hget]
    exact Map.Step.library op ws (hws hQ)

theorem Wrote.interrupted {P Q : Prop} {op : MapOp} {p : List IntWrite}
    (h : Wrote P s s' (Map.writes s.tget p)) (hP : Q → P) (hws : Q → op.Writes s.tget ws)
    (hp : p <+: ws) (hlt : p.length < ws.length) : Did Q s s' op true where
  ok := h.ok
  grows := h.grows
  exact hQ hapart := by
    obtain ⟨hapart', hget⟩ := h.exact (hP hQ) hapart
    refine ⟨hapart', ?_⟩
    rw [hget]
    exact Map.Step.interrupted op ws p (hws hQ) hp (Or.inl hlt)

/-- The condition of `table.insert(t, v)`. -/
def TableAppendClean (s : TabState) (v : Val) : Prop :=
  ∀ n, tabLen s = some n → n + 1 < 2^30 ∧ KeyClean s (refI31 (n + 1)) (.val v)

/-- `table.insert(t, v)`. -/
theorem tableAppend_spec (hok : TabOk s none) (v : Val) :
    Meets (tableAppend v) s (fun _ s' => Did (TableAppendClean s v) s s' (.append v) false)
      (fun e s' => e ≠ .stuck ∧ Did (TableAppendClean s v) s s' (.append v) true) := by
  obtain ⟨n, hlen, -, -, -, hborder⟩ := tabLen_spec hok
  have hP : TableAppendClean s v → (∀ w ∈ [IntWrite.put (n + 1) v], w.Below (2^30)) ∧
      WritesClean [.put (n + 1) v] s := by
    intro h
    obtain ⟨hn, hclean⟩ := h n hlen
    exact ⟨fun w hw => by rw [List.mem_singleton.mp hw]; exact hn, hclean, fun _ _ => trivial⟩
  have hws : TableAppendClean s v → MapOp.Writes s.tget (.append v) [.put (n + 1) v] :=
    fun _ => ⟨n, hborder, rfl⟩
  unfold tableAppend
  apply meets_get_bind
  apply meets_orStuck hlen
  have hrun : tabSet (refI31 ((n : ℤ) + 1)) v = runAll [.put (n + 1) v] :=
    (runAll_singleton (.put (n + 1) v)).symm
  rw [hrun]
  refine (runAll_spec [.put (n + 1) v] s hok).mono (fun _ s' h => h.did hP hws) ?_
  rintro e s' ⟨he, p, hp, hlt, h⟩
  exact ⟨he, h.interrupted hP hws hp hlt⟩

/-- The condition of `table.insert(t, pos, v)`: a position within bounds is not cut off, and the
writes of the slow path go right. -/
def InsertClean (s : TabState) (i : Int64) (v : Val) : Prop :=
  ∀ n, tabLen s = some n → InBounds n (wrap32 i) ∨ InBounds n i.toInt →
    wrap32 i = i.toInt ∧
      ((n = s.t.alen ∧ v ≠ .nil) ∨
        (n + 1 < 2^30 ∧ WritesClean (insertWrites n (wrap32 i).toNat v) s))

/-- `table.insert(t, pos, v)`. It traps when the array part cannot grow. -/
theorem tableInsert_spec (hok : TabOk s none) (i : Int64) (v : Val) :
    Meets (tableInsert i v) s
      (fun _ s' => Did (InsertClean s i v) s s' (.insert i.toInt v) false)
      (fun e s' => (e = .stuck ∧ s.t.alen + 1 = 2^31) ∨
        (e ≠ .stuck ∧ Did (InsertClean s i v) s s' (.insert i.toInt v) true)) := by
  obtain ⟨n, hlen, -, -, hnil, hborder⟩ := tabLen_spec hok
  unfold tableInsert
  apply meets_get_bind
  apply meets_orStuck hlen
  dsimp only
  split
  · -- out of bounds
    rename_i hout
    refine meets_throw (Or.inr ⟨by simp [outOfBounds], Did.refused hok fun hclean => ⟨n, hborder, ?_⟩⟩)
    rw [if_neg]
    intro hin
    have hcut := (hclean n hlen (Or.inr hin)).1
    unfold InBounds at hin
    omega
  rename_i hin
  have hin' : InBounds n (wrap32 i) := by
    unfold InBounds
    omega
  have hws : InsertClean s i v →
      MapOp.Writes s.tget (.insert i.toInt v) (insertWrites n (wrap32 i).toNat v) := by
    intro hclean
    have hcut := (hclean n hlen (Or.inl hin')).1
    refine ⟨n, hborder, ?_⟩
    rw [← hcut, if_pos hin']
  have hpos : 1 ≤ (wrap32 i).toNat ∧ (wrap32 i).toNat ≤ n + 1 := by
    unfold InBounds at hin'
    omega
  split
  · rename_i hfast
    obtain ⟨rfl, hv⟩ := hfast
    refine (insertFast_spec hok hnil hpos.1 hpos.2 hv).mono ?_ fun _ _ h => Or.inl h
    rintro _ s' ⟨hok', hgrows, hapart', hget⟩
    refine ⟨hok', hgrows, fun hclean hapart => ⟨hapart' hapart, ?_⟩⟩
    rw [hget]
    exact Map.Step.library _ _ (hws hclean)
  · rename_i hslow
    have hP : InsertClean s i v → (∀ w ∈ insertWrites n (wrap32 i).toNat v, w.Below (2^30)) ∧
        WritesClean (insertWrites n (wrap32 i).toNat v) s := by
      intro hclean
      obtain hfast | ⟨hn, hwrites⟩ := (hclean n hlen (Or.inl hin')).2
      · exact absurd hfast hslow
      · exact ⟨insertWrites_below hn hpos.2, hwrites⟩
    rw [insertSlow_eq]
    refine (runAll_spec _ s hok).mono (fun _ s' h => h.did hP hws) ?_
    rintro e s' ⟨he, p, hp, hlt, h⟩
    exact Or.inr ⟨he, h.interrupted hP hws hp hlt⟩

/-- The condition of `table.remove(t, pos)`: an allowed position is not cut off, and the writes of
the slow path go right. -/
def RemoveClean (s : TabState) (i : Option Int64) : Prop :=
  ∀ n, tabLen s = some n →
    (∀ j, i = some j → Removable n (wrap32 j) ∨ Removable n j.toInt → wrap32 j = j.toInt) ∧
      (Removable n ((i.map wrap32).getD n) →
        (n = s.t.alen ∧ 1 ≤ (i.map wrap32).getD n ∧ (i.map wrap32).getD n ≤ n) ∨
          (n + 1 < 2^30 ∧ WritesClean (removeWrites n ((i.map wrap32).getD n).toNat) s))

/-- `table.remove(t, pos)`. -/
theorem tableRemove_spec (hok : TabOk s none) (i : Option Int64) :
    Meets (tableRemove i) s
      (fun _ s' => Did (RemoveClean s i) s s' (.remove (i.map Int64.toInt)) false)
      (fun e s' => e ≠ .stuck ∧ Did (RemoveClean s i) s s' (.remove (i.map Int64.toInt)) true) := by
  obtain ⟨n, hlen, -, -, -, hborder⟩ := tabLen_spec hok
  unfold tableRemove
  apply meets_get_bind
  apply meets_orStuck hlen
  dsimp only
  generalize hpos : (i.map wrap32).getD (n : ℤ) = pos
  split
  · -- out of bounds
    rename_i hout
    refine meets_throw ⟨by simp [outOfBounds], Did.refused hok fun hclean => ?_⟩
    cases i with
    | none =>
      have h : (n : ℤ) = pos := hpos
      omega
    | some j =>
      have hcut : wrap32 j = pos := hpos
      refine ⟨n, hborder, ?_⟩
      rw [if_neg]
      intro hin
      have h := (hclean n hlen).1 j rfl (Or.inr hin)
      unfold Removable InBounds at hin
      omega
  rename_i hin
  have hin' : Removable n pos := by
    unfold Removable InBounds
    omega
  -- a position within the bounds is the same number after the narrowing
  have hws : RemoveClean s i →
      MapOp.Writes s.tget (.remove (i.map Int64.toInt)) (removeWrites n pos.toNat) := by
    intro hclean
    cases i with
    | none =>
      have h : (n : ℤ) = pos := hpos
      refine ⟨n, hborder, ?_⟩
      rw [← h, Int.toNat_natCast]
    | some j =>
      have h : wrap32 j = pos := hpos
      have hcut := (hclean n hlen).1 j rfl (Or.inl (by rw [h]; exact hin'))
      refine ⟨n, hborder, ?_⟩
      rw [← hcut, h, if_pos hin']
  have hle : pos.toNat ≤ n + 1 := by
    unfold Removable InBounds at hin'
    omega
  split
  · rename_i hfast
    -- the array part has all positions
    obtain ⟨hn, h1, h2⟩ := hfast
    refine (removeFast_spec hok (show 1 ≤ pos.toNat by omega) (by omega)).mono ?_ fun _ _ h => h.elim
    rintro _ s' ⟨-, hok', hgrows, hexact⟩
    refine ⟨hok', hgrows, fun hclean hapart => ?_⟩
    obtain ⟨hapart', hget⟩ := hexact hapart
    refine ⟨hapart', ?_⟩
    rw [hget, ← hn]
    exact Map.Step.library _ _ (hws hclean)
  · rename_i hslow
    -- the loop writes one key after the other
    have hP : RemoveClean s i → (∀ w ∈ removeWrites n pos.toNat, w.Below (2^30)) ∧
        WritesClean (removeWrites n pos.toNat) s := by
      intro hclean
      have h := (hclean n hlen).2
      rw [hpos] at h
      obtain hfast | ⟨hn, hwrites⟩ := h hin'
      · exact absurd hfast hslow
      · exact ⟨removeWrites_below hn hle, hwrites⟩
    rw [removeSlow_eq]
    apply meets_get_bind
    apply meets_orStuck (tabGetRaw_spec hok _)
    apply Meets.bind (Q := fun _ s' => Did (RemoveClean s i) s s' (.remove (i.map Int64.toInt)) false)
    · refine (runAll_spec _ s hok).mono (fun _ s' h => h.did hP hws) ?_
      rintro e s' ⟨he, p, hp, hlt, h⟩
      exact ⟨he, h.interrupted hP hws hp hlt⟩
    · intro _ s' h
      exact meets_pure h

end Lua2wasm.Table
