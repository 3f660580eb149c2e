import Lua2wasm.Table.World

/-!
# Element-wise copies

The loops of `table.insert`, `table.remove` and `table.move` copy slots one by one, by raw reads and writes,
upwards or downwards (`copyUp`, `copyDown`). `table.move` (`tablib.wat`) does so when its fast path does not
apply; the loops of the other two are instances (`shiftUpFrom_eq_copy`, `shiftDownFrom_eq_copy`).

As long as a copy stays within the array part and does not end it with a hole, each of its writes is done in
place, and the result is the array part with the values moved (`copyUp_spec`, `copyDown_spec`). `ArrIs` says
what the array part is up to the holes at its end, and two tables of which it says the same cannot be told
apart (`ArrIs.alike`).
-/

namespace Lua2wasm.Table

open Raising

/-- The table that a copy reads from: the one that it writes to, or another one. -/
def sourceState (src : Option LuaTable) (s : TabState) : TabState :=
  match src with
  | none => s
  | some t => { s with t := t }

/-- One step of the loops of `table.move`. -/
def copySlot (src : Option LuaTable) (f t : ℤ) : TabM Unit := do
  let v ← orStuck (tabGetRaw (sourceState src (← get)) (refI31 f))
  tabSet (refI31 t) v

/-- The loop that goes backward, from the index `i - 1` down to 0. -/
def copyDown (src : Option LuaTable) (f t : ℤ) : ℕ → TabM Unit
  | 0 => pure ()
  | i + 1 => do
    copySlot src (f + i) (t + i)
    copyDown src f t i

/-- The loop that goes forward, from the index `i` on. -/
def copyUp (src : Option LuaTable) (f t : ℤ) : ℕ → ℕ → TabM Unit
  | 0, _ => pure ()
  | todo + 1, i => do
    copySlot src (f + i) (t + i)
    copyUp src f t todo (i + 1)

/-- The loops of `table.move`, over `n` values. -/
def copyLoop (src : Option LuaTable) (f t n : ℤ) : TabM Unit :=
  if src.isNone ∧ f < t then copyDown src f t n.toNat else copyUp src f t n.toNat 0

/-- The fast path of `table.move`. -/
def copyArr (src : Option LuaTable) (f t n : ℕ) : TabM Unit := do
  let s ← get
  let a ← orStuck s.t.arr
  let a₁ ← orStuck (sourceState src s).t.arr
  let a ← orStuck (arrayCopy a (t - 1) a₁ (f - 1) n)
  modifyTable fun t => { t with arr := some a }
  arrTrim

/-- A sum of 32 bits. -/
def sum32 (n : ℤ) : ℤ := n.bmod (2^32)

/-- The conditions of the fast path of `table.move`: both ranges are in the array parts, and the source has no
unboxed floats. -/
def CopiesArr (src : Option LuaTable) (s : TabState) (f e t n : ℤ) : Prop :=
  (1 ≤ f ∧ e ≤ (sourceState src s).t.alen) ∧ (1 ≤ t ∧ sum32 (t + sum32 (n - 1)) ≤ s.t.alen) ∧
    ¬ (src.isNone = true ∧ t = f) ∧ (sourceState src s).t.farr = none

instance (src : Option LuaTable) (s : TabState) (f e t n : ℤ) : Decidable (CopiesArr src s f e t n) :=
  inferInstanceAs (Decidable ((_ ∧ _) ∧ (_ ∧ _) ∧ _ ∧ _ = none))

variable {s s' s'' s₁ s₂ : TabState} {sh : Shape} {i j n pos a b todo : ℕ} {key : Key} {v : Val} {g g' : ℕ → Val}
  {src : Option LuaTable}

theorem moveSlot_eq_copy (src dst : ℕ) : moveSlot src dst = copySlot none src dst := rfl

variable (pos) in
/-- The loop of `table.insert`. -/
theorem shiftUpFrom_eq_copy (todo : ℕ) (hpos : 1 ≤ pos) :
    shiftUpFrom todo (pos + todo - 1) = copyDown none pos ((pos : ℤ) + 1) todo := by
  induction todo with
  | zero => rfl
  | succ todo ih =>
    unfold shiftUpFrom copyDown shiftUp
    rw [moveSlot_eq_copy, show pos + (todo + 1) - 1 = pos + todo by omega, ih]
    push_cast
    rw [show (pos : ℤ) + todo + 1 = pos + 1 + todo by ring]

variable (pos) in
/-- The loop of `table.remove`. -/
theorem shiftDownFrom_eq_copy (todo i : ℕ) :
    shiftDownFrom todo (pos + i) = copyUp none ((pos : ℤ) + 1) pos todo i := by
  induction todo generalizing i with
  | zero => rfl
  | succ todo ih =>
    unfold shiftDownFrom copyUp shiftDown
    rw [moveSlot_eq_copy, show pos + i + 1 = pos + (i + 1) by omega, ih]
    push_cast
    rw [show (pos : ℤ) + (i + 1) = pos + 1 + i by ring]

/-! ## Reads and writes in place -/

/-- A raw read of a position of the array part. -/
theorem tabGetRaw_arr (hok : TabOk s none) (hi : i < s.t.alen) (hfit : i + 1 < 2^30) :
    tabGetRaw s (refI31 ((i : ℤ) + 1)) = some (s.t.arrValue i) := by
  have hc := canon_refI31 hfit
  push_cast at hc
  rw [tabGetRaw_spec hok, hc, Option.map_some, Option.getD_some, ikey_succ, tget_arrKey_of_lt hi (by omega)]

/-- A raw write at a position. -/
theorem tabSet_refI31 (hfit : i + 1 < 2^30) (v : Val) :
    tabSet (refI31 ((i : ℤ) + 1)) v = tabSetIk (Int64.ofInt ((i : ℤ) + 1)) v := by
  have hint := refI31_of_lt hfit
  push_cast at hint
  rw [hint]
  rfl

/-- A slot of the array part was written. -/
structure ArrPut (s s' : TabState) (i : ℕ) (v : Val) : Prop extends HashSame s s' where
  /-- The table is in order. -/
  ok : TabOk s' none
  /-- The length of the array part. -/
  alen : s'.t.alen = s.t.alen
  /-- Its values. -/
  value : ∀ j, s'.t.arrValue j = if j = i then v else s.t.arrValue j

/-- The last slot of the array part was emptied, and the holes before it are cut off. -/
structure ArrCut (s s' : TabState) (i : ℕ) : Prop extends HashSame s s' where
  /-- The table is in order. -/
  ok : TabOk s' none
  /-- The length of the array part. -/
  alen : s'.t.alen ≤ i
  /-- The values that are left. -/
  value : ∀ j < s'.t.alen, s'.t.arrValue j = s.t.arrValue j
  /-- Only holes were cut off. -/
  holes : ∀ j, s'.t.alen ≤ j → j < i → s.t.arrValue j = .nil

/-- What `$tab_set` does at a position of the array part. -/
theorem tabSet_inArr (hok : TabOk s none) (hi : i < s.t.alen) (hfit : i + 1 < 2^30) (v : Val) :
    Ensures (tabSet (refI31 ((i : ℤ) + 1)) v) s
      (fun _ s' => if v = .nil ∧ i + 1 = s.t.alen then ArrCut s s' i else ArrPut s s' i v) := by
  have hroom := hok.arr.room
  have hidx := arrIndex_ofInt (i := i) (by omega)
  have hin : inArr s.t (Int64.ofInt ((i : ℤ) + 1)) = true := (inArr_ofInt (by omega)).mpr hi
  have hto := toInt_ofNat (n := i + 1) (by omega)
  push_cast at hto
  rw [tabSet_refI31 hfit]
  unfold tabSetIk tabSetArr
  apply Meets.bind (Q := fun c s' => c = true ∧
    if v = .nil ∧ i + 1 = s.t.alen then ArrCut s s' i else ArrPut s s' i v)
  · apply meets_get_bind
    rw [if_pos hin]
    have hset := setInArr_spec (P := False) hok hin (.val v)
    -- `setInArr_spec` speaks of the map only, so the slots are followed as well
    have hdetail : Ensures (setInArr (Int64.ofInt ((i : ℤ) + 1)) (.val v)) s
        (fun _ s' => ∃ s₁, ArrWritten s s₁ i (.val v) ∧
          if v = .nil ∧ i + 1 = s.t.alen then Trimmed s₁ s' else s' = s₁) := by
      unfold setInArr
      apply meets_get_bind
      rw [hidx, hto]
      apply (setArr_spec hok.arr.farr (show i < lengthOf s.t.arr by omega) (.val v)).bind
      intro _ s₁ hwr
      have hiff : ((Slot.val v).isNull = true ∧ (i : ℤ) + 1 = s.t.alen) ↔ v = .nil ∧ i + 1 = s.t.alen := by
        unfold Slot.isNull
        rw [decide_eq_true_iff, Slot.val.injEq]
        exact and_congr_right fun _ => by omega
      simp only [hiff]
      split
      · rename_i hlast
        refine (arrTrim_spec ?_).imp (fun _ s' htrim => ⟨s₁, hwr, ?_⟩)
        · rw [hwr.alen, hwr.len]
          exact hroom
        · exact htrim
      · exact meets_pure ⟨s₁, hwr, rfl⟩
    apply ((hset.and hdetail).imp_error fun _ _ h => h.1).bind
    rintro _ s' ⟨harr, s₁, hwr, hafter⟩
    refine meets_pure ⟨rfl, ?_⟩
    have hok' : TabOk s' none := (ArrSet.stored harr).ok
    have hvalue : ∀ j, s₁.t.arrValue j = if j = i then v else s.t.arrValue j := by
      intro j
      split
      · rename_i hj
        unfold LuaTable.arrValue
        rw [hwr.slot, if_pos hj]
      · rename_i hj
        exact hwr.value hj
    split
    · rename_i hlast
      rw [if_pos hlast] at hafter
      -- the last slot was emptied: the array part ends before it
      have htrim : Trimmed s₁ s' := hafter
      have hempty : s'.t.alen ≤ i := by
        by_contra hlt
        have hle := htrim.alen
        rw [hwr.alen] at hle
        have hnull := htrim.last i (by omega)
        rw [hwr.slot, if_pos rfl, hlast.1] at hnull
        cases hnull
      refine ⟨hwr.toHashSame.trans htrim.toHashSame, hok', hempty, fun j hj => ?_, fun j hj hji => ?_⟩
      · rw [htrim.value, hvalue, if_neg (by omega)]
      · have hnull := htrim.holes j hj (by rw [hwr.alen]; omega)
        rw [← arrValue_of_isNull hnull, hvalue, if_neg (by omega)]
    · rename_i hlast
      rw [if_neg hlast] at hafter
      obtain rfl : s' = s₁ := hafter
      exact ⟨hwr.toHashSame, hok', hwr.alen, hvalue⟩
  · rintro c s' ⟨rfl, h⟩
    exact meets_pure h

/-! ## The array part up to the holes at its end -/

/-- The array part has the first `n` values of `g`, without the holes at their end. -/
structure ArrIs (s s' : TabState) (n : ℕ) (g : ℕ → Val) : Prop extends HashSame s s' where
  /-- The table is in order. -/
  ok : TabOk s' none
  /-- The length of the array part. -/
  alen : s'.t.alen ≤ n
  /-- The values. -/
  value : ∀ j < s'.t.alen, s'.t.arrValue j = g j
  /-- The holes. -/
  holes : ∀ j, s'.t.alen ≤ j → j < n → g j = .nil

theorem arrValue_last (hok : TabOk s none) (hn : s.t.alen = n + 1) : s.t.arrValue n ≠ .nil :=
  arrValue_ne_nil (hok.arr.last n hn)

/-- The holes at the end are those of `g`. -/
theorem ArrIs.alen_eq (h₁ : ArrIs s s₁ n g) (h₂ : ArrIs s s₂ n g) : s₁.t.alen = s₂.t.alen := by
  have hle : ∀ {s₁ s₂}, ArrIs s s₁ n g → ArrIs s s₂ n g → s₁.t.alen ≤ s₂.t.alen := by
    intro s₁ s₂ h₁ h₂
    by_contra hlt
    obtain ⟨m, hm⟩ := Nat.exists_eq_add_of_lt (show s₂.t.alen < s₁.t.alen by omega)
    have halen := h₁.alen
    have hlast := arrValue_last h₁.ok hm
    rw [h₁.value _ (by omega), h₂.holes _ (by omega) (by omega)] at hlast
    exact hlast rfl
  exact Nat.le_antisymm (hle h₁ h₂) (hle h₂ h₁)

/-- The same values at every key, and the same length. -/
structure Alike (s s' : TabState) : Prop where
  /-- The values. -/
  get : ∀ k, tabGetRaw s' k = tabGetRaw s k
  /-- The length. -/
  len : tabLen s' = tabLen s

/-- The length is the first nil from the array part on. -/
theorem tabLen_eq (hok₁ : TabOk s₁ none) (hok₂ : TabOk s₂ none) (hget : s₂.tget = s₁.tget)
    (hle : s₁.t.alen ≤ s₂.t.alen)
    (hrun : ∀ j, s₁.t.alen ≤ j → j < s₂.t.alen → s₂.tget (arrKey j) ≠ .nil) : tabLen s₂ = tabLen s₁ := by
  have hsmall₂ := hok₂.arr.small
  obtain ⟨n₁, hn₁, hle₁, hmax₁, hnil₁, -⟩ := tabLen_spec hok₁
  obtain ⟨n₂, hn₂, hle₂, hmax₂, hnil₂, -⟩ := tabLen_spec hok₂
  unfold valsMax at hmax₁ hmax₂
  rw [hn₁, hn₂]
  congr 1
  apply Nat.le_antisymm
  · -- the first nil of the one table is one of the other
    have hn : s₂.tget (arrKey n₁) = .nil := by
      rw [hget, tget_arrKey_of_le hle₁ (by omega)]
      exact hnil₁
    have hlt : s₂.t.alen ≤ n₁ := by
      by_contra hlt
      exact hrun n₁ hle₁ (by omega) hn
    rw [tget_arrKey_of_le hlt (by omega)] at hn
    exact tabLen_le hok₂ hn₂ hlt hn
  · have hn : s₁.tget (arrKey n₂) = .nil := by
      rw [← hget, tget_arrKey_of_le hle₂ (by omega)]
      exact hnil₂
    rw [tget_arrKey_of_le (by omega) (by omega)] at hn
    exact tabLen_le hok₁ hn₁ (by omega) hn

theorem Alike.of_tget (hok₁ : TabOk s₁ none) (hok₂ : TabOk s₂ none) (hget : s₂.tget = s₁.tget)
    (hlen : tabLen s₂ = tabLen s₁) : Alike s₁ s₂ where
  get k := by rw [tabGetRaw_spec hok₁, tabGetRaw_spec hok₂, hget]
  len := hlen

theorem ArrIs.tget_eq (h₁ : ArrIs s s₁ n g) (h₂ : ArrIs s s₂ n g) : s₂.tget = s₁.tget := by
  have halen := h₁.alen_eq h₂
  have hsmall := h₁.ok.arr.small
  funext key
  obtain ⟨i, hi, rfl, hget⟩ | ⟨hout, hget⟩ := tget_cases hsmall key
  · rw [hget, tget_arrKey_of_lt (by omega) (by omega), h₂.value i (by omega), h₁.value i hi]
  · obtain ⟨i, hi, rfl, -⟩ | ⟨-, hget₂⟩ := tget_cases h₂.ok.arr.small key
    · exact absurd rfl (hout i (by omega))
    · rw [hget, hget₂, h₁.toHashSame.hget, h₂.toHashSame.hget]

/-- Nothing that is read tells the two tables apart. -/
theorem ArrIs.alike (h₁ : ArrIs s s₁ n g) (h₂ : ArrIs s s₂ n g) : Alike s₁ s₂ := by
  have halen := h₁.alen_eq h₂
  have hget := h₁.tget_eq h₂
  exact Alike.of_tget h₁.ok h₂.ok hget (tabLen_eq h₁.ok h₂.ok hget (by omega) fun j hj hlt => by omega)

theorem ArrIs.congr (h : ArrIs s s' n g) (hg : ∀ j < n, g' j = g j) : ArrIs s s' n g' where
  toHashSame := h.toHashSame
  ok := h.ok
  alen := h.alen
  value j hj := by
    rw [hg j (Nat.lt_of_lt_of_le hj h.alen)]
    exact h.value j hj
  holes j hj hlt := by
    rw [hg j hlt]
    exact h.holes j hj hlt

theorem ArrIs.refl (hok : TabOk s none) : ArrIs s s s.t.alen s.t.arrValue :=
  ⟨HashSame.refl, hok, Nat.le_refl _, fun _ _ => rfl, fun j hj hlt => by omega⟩

/-- One more slot is written. If the last one is emptied, nothing may be written after it. -/
theorem ArrIs.put (h : ArrIs s s₁ n g) (halen : s₁.t.alen = n) (hi : i < n) (hfit : i + 1 < 2^30) (v : Val) :
    Ensures (tabSet (refI31 ((i : ℤ) + 1)) v) s₁
      (fun _ s' => ArrIs s s' n (fun j => if j = i then v else g j) ∧
        (v ≠ .nil ∨ i + 1 < n → s'.t.alen = n)) := by
  refine (tabSet_inArr h.ok (by omega) hfit v).imp ?_
  intro _ s' hset
  split at hset
  · rename_i hlast
    have hle := hset.alen
    refine ⟨⟨h.toHashSame.trans hset.toHashSame, hset.ok, by omega, fun j hj => ?_, fun j hj hlt => ?_⟩, ?_⟩
    · rw [if_neg (by omega), hset.value j hj, h.value j (by omega)]
    · split
      · exact hlast.1
      · rw [← h.value j (by omega)]
        exact hset.holes j hj (by omega)
    · rintro (hv | hlt)
      · exact absurd hlast.1 hv
      · omega
  · refine ⟨⟨h.toHashSame.trans hset.toHashSame, hset.ok, by rw [hset.alen]; omega, fun j hj => ?_,
      fun j hj hlt => ?_⟩, fun _ => hset.alen.trans halen⟩
    · rw [hset.value]
      rw [hset.alen] at hj
      split
      · rfl
      · exact h.value j hj
    · rw [hset.alen] at hj
      omega

/-! ## Copies within the array part -/

/-- The values with those of `r` from `i` up to `m`, at the places from `b` on. -/
def copied (base r : ℕ → Val) (b i m : ℕ) (j : ℕ) : Val :=
  if b + i ≤ j ∧ j < b + m then r (j - b) else base j

theorem copied_empty (base r : ℕ → Val) (b i : ℕ) : copied base r b i i = base := by
  funext j
  exact if_neg (by omega)

/-- One more value at the upper end. -/
theorem copied_succ (base r : ℕ → Val) (b i j : ℕ) :
    copied base r b 0 (i + 1) j = if j = b + i then r i else copied base r b 0 i j := by
  unfold copied
  by_cases hj : j = b + i
  · rw [if_pos (by omega), if_pos hj, hj, Nat.add_sub_cancel_left]
  · rw [if_neg hj]
    exact if_congr (by omega) rfl rfl

/-- One more value at the lower end. -/
theorem copied_pred (base r : ℕ → Val) {b i m : ℕ} (hi : i < m) (j : ℕ) :
    copied base r b i m j = if j = b + i then r i else copied base r b (i + 1) m j := by
  unfold copied
  by_cases hj : j = b + i
  · rw [if_pos (by omega), if_pos hj, hj, Nat.add_sub_cancel_left]
  · rw [if_neg hj]
    exact if_congr (by omega) rfl rfl

section Loops

variable {r : ℕ → Val} {m : ℕ} {f : ℤ}

/-- One step of a copy. -/
theorem copySlot_spec (h : ArrIs s s₁ n g) (halen : s₁.t.alen = n) (hi : b + i < n) (hfit : b + i + 1 < 2^30)
    (hread : tabGetRaw (sourceState src s₁) (refI31 (f + i)) = some v) :
    Ensures (copySlot src (f + i) ((b : ℤ) + 1 + i)) s₁
      (fun _ s' => ArrIs s s' n (fun j => if j = b + i then v else g j) ∧
        (v ≠ .nil ∨ b + i + 1 < n → s'.t.alen = n)) := by
  have hput := h.put halen hi hfit v
  rw [show (b : ℤ) + 1 + i = b + i + 1 by ring]
  unfold copySlot
  apply meets_get_bind
  apply meets_orStuck hread
  exact hput

variable (src) in
/-- A copy upwards, whose reads are those of `r`. -/
theorem copyUp_spec (hok : TabOk s none) (hend : b + m ≤ s.t.alen) (hfit : b + m < 2^30)
    (hread : ∀ i < m, ∀ s₁, ArrIs s s₁ s.t.alen (copied s.t.arrValue r b 0 i) → s₁.t.alen = s.t.alen →
      tabGetRaw (sourceState src s₁) (refI31 (f + i)) = some (r i)) :
    Ensures (copyUp src f ((b : ℤ) + 1) m 0) s
      (fun _ s' => ArrIs s s' s.t.alen (copied s.t.arrValue r b 0 m) ∧
        (s'.t.alen = s.t.alen ∨ b + m = s.t.alen)) := by
  have hloop : ∀ todo i s₁, i + todo = m → ArrIs s s₁ s.t.alen (copied s.t.arrValue r b 0 i) →
      (s₁.t.alen = s.t.alen ∨ todo = 0 ∧ b + m = s.t.alen) →
      Ensures (copyUp src f ((b : ℤ) + 1) todo i) s₁
        (fun _ s' => ArrIs s s' s.t.alen (copied s.t.arrValue r b 0 m) ∧
          (s'.t.alen = s.t.alen ∨ b + m = s.t.alen)) := by
    intro todo
    induction todo with
    | zero =>
      rintro i s₁ rfl h halen
      exact meets_pure ⟨h, halen.imp_right And.right⟩
    | succ todo ih =>
      rintro i s₁ him h (halen | ⟨hzero, -⟩)
      · apply (copySlot_spec h halen (by omega) (by omega) (hread i (by omega) s₁ h halen)).bind
        rintro _ s₂ ⟨h₂, halen₂⟩
        apply ih (i + 1) s₂ (by omega) (h₂.congr fun j _ => copied_succ _ _ _ _ _)
        -- only the last step can write the last slot
        by_cases hlast : b + i + 1 < s.t.alen
        · exact Or.inl (halen₂ (Or.inr hlast))
        · exact Or.inr ⟨by omega, by omega⟩
      · exact absurd hzero (Nat.succ_ne_zero todo)
  apply hloop m 0 s (Nat.zero_add m) _ (Or.inl rfl)
  rw [copied_empty]
  exact ArrIs.refl hok

variable (src) in
/-- A copy downwards, whose reads are those of `r`. It does not write nil to the last slot. -/
theorem copyDown_spec (hok : TabOk s none) (hend : b + m ≤ s.t.alen) (hfit : b + m < 2^30)
    (hlast : ∀ i < m, r i ≠ .nil ∨ b + i + 1 < s.t.alen)
    (hread : ∀ i < m, ∀ s₁, ArrIs s s₁ s.t.alen (copied s.t.arrValue r b (i + 1) m) →
      s₁.t.alen = s.t.alen → tabGetRaw (sourceState src s₁) (refI31 (f + i)) = some (r i)) :
    Ensures (copyDown src f ((b : ℤ) + 1) m) s
      (fun _ s' => ArrIs s s' s.t.alen (copied s.t.arrValue r b 0 m) ∧ s'.t.alen = s.t.alen) := by
  have hloop : ∀ i ≤ m, ∀ s₁, ArrIs s s₁ s.t.alen (copied s.t.arrValue r b i m) → s₁.t.alen = s.t.alen →
      Ensures (copyDown src f ((b : ℤ) + 1) i) s₁
        (fun _ s' => ArrIs s s' s.t.alen (copied s.t.arrValue r b 0 m) ∧ s'.t.alen = s.t.alen) := by
    intro i
    induction i with
    | zero => exact fun _ s₁ h halen => meets_pure ⟨h, halen⟩
    | succ i ih =>
      intro him s₁ h halen
      apply (copySlot_spec h halen (by omega) (by omega) (hread i him s₁ h halen)).bind
      rintro _ s₂ ⟨h₂, halen₂⟩
      exact ih (by omega) s₂ (h₂.congr fun j _ => copied_pred _ _ him j) (halen₂ (hlast i him))
  apply hloop m (Nat.le_refl m) s _ rfl
  rw [copied_empty]
  exact ArrIs.refl hok

/-- What a copy reads from the table that it writes to, as long as it is not written yet. -/
theorem ArrIs.read {lo hi : ℕ} (h : ArrIs s s₁ s.t.alen (copied s.t.arrValue r b lo hi))
    (halen : s₁.t.alen = s.t.alen) (ha : a + i < s.t.alen) (hfit : a + i + 1 < 2^30)
    (hout : ¬ (b + lo ≤ a + i ∧ a + i < b + hi)) :
    tabGetRaw (sourceState none s₁) (refI31 ((a : ℤ) + 1 + i)) = some (s.t.arrValue (a + i)) := by
  have hget := tabGetRaw_arr h.ok (i := a + i) (by omega) hfit
  have hval := h.value (a + i) (by omega)
  unfold copied at hval
  rw [if_neg hout] at hval
  rw [show (a : ℤ) + 1 + i = a + i + 1 by ring]
  exact hget.trans (congrArg some hval)

/-- What it reads from another table. -/
theorem ArrIs.read_other {t : LuaTable} (h : ArrIs s s₁ n g) (hok : TabOk (sourceState (some t) s) none)
    (ha : a + i < t.alen) (hfit : a + i + 1 < 2^30) :
    tabGetRaw (sourceState (some t) s₁) (refI31 ((a : ℤ) + 1 + i)) = some (t.arrValue (a + i)) := by
  have hsame : sourceState (some t) s₁ = sourceState (some t) s := by
    unfold sourceState
    rw [← h.toHashSame.shapes]
  have hget := tabGetRaw_arr hok (i := a + i) ha hfit
  rw [hsame, show (a : ℤ) + 1 + i = a + i + 1 by ring]
  exact hget

end Loops

end Lua2wasm.Table
