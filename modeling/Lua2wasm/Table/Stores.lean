import Lua2wasm.Table.ArrayWrite

/-!
# Raw stores

The stores that choose between the two parts of a table: `$tab_set_arr` and, over it, `$tab_set`,
`$tab_set_ik` and `$lua_tabset_ik_f`. Each keeps both parts in order, whatever it stores. `Stored`
says that it changes the map at its key alone, under the condition `StoreClean` on the state before
it, and `Failed` that a store that raises leaves the map as it was.
-/

namespace Lua2wasm.Table

open Raising

variable {s s' s'' : TabState} {sh : Shape} {skip : Option ℕ} {i : Int64} {key : Key} {k v : Val}
  {w : Slot} {P P' : Prop}

/-! ## The condition of an append -/

/-- An append to the array part goes right: it finds no value for its key in the hash part, and if
it has to move the array part out, there is room for all of it. -/
def AppendClean (s : TabState) (w : Slot) : Prop :=
  w.isNull = false → s.t.alen < arrMax →
    if mostlyHoles s.t = some true then ∃ s', (tabDemote.run s : Except Fault Unit × TabState) = (.ok (), s')
    else tabGetHash s (makeInt (s.t.alen + 1)) = some .nil

/-- A store at an integer key goes right, as far as the array part is concerned. -/
def StoreClean (s : TabState) (i : Int64) (w : Slot) : Prop :=
  i.toInt = s.t.alen + 1 → AppendClean s w

/-- A store at any key. -/
def KeyClean (s : TabState) (k : Val) (w : Slot) : Prop :=
  ∀ i, asArrKey k = some i → StoreClean s i w

/-! ## What a store does -/

/-- The store is done. If `P` holds and the table was apart, it changed the map at its key alone. -/
structure Stored (P : Prop) (s s' : TabState) (key : Key) (v : Val) : Prop where
  /-- The table is in order. -/
  ok : TabOk s' none
  /-- No shared shape changed. -/
  grows : Grows s.shapes s'.shapes
  /-- The table as a map. -/
  exact : P → Apart s → Apart s' ∧ ∀ key', s'.tget key' = if key' = key then v else s.tget key'

/-- The store raised. If `P` holds and the table was apart, it did not change the map. -/
structure Failed (P : Prop) (e : Fault) (s s' : TabState) : Prop where
  /-- A Lua error was raised. -/
  raised : e ≠ .stuck
  /-- The table is in order. -/
  ok : TabOk s' none
  /-- No shared shape changed. -/
  grows : Grows s.shapes s'.shapes
  /-- The table as a map. -/
  exact : P → Apart s → Apart s' ∧ ∀ key, s'.tget key = s.tget key

/-- The array part took the store. -/
structure ArrSet (P : Prop) (s s' : TabState) (i : Int64) (w : Slot) : Prop where
  /-- The hash part is in order. -/
  hash : ∃ sh, HashOk s' sh none
  /-- The array part is in order, but for the double of the slot. -/
  arr : ArrOk s'.t (some (arrIndex i))
  /-- No shared shape changed. -/
  grows : Grows s.shapes s'.shapes
  /-- The key is one that the array part can have. -/
  pos : 1 ≤ i.toInt
  /-- The slot holds what was stored. -/
  slot : inArr s'.t i = true → s'.t.arrSlot (arrIndex i) = w
  /-- Only nil is not kept in the array part. -/
  kept : w.isNull = false → inArr s'.t i = true
  /-- The key is not in the hash part, and the other keys are as they were. -/
  exact : P → Apart s → Apart s' ∧ s'.hget (.int i) = .nil ∧
    ∀ key, key ≠ .int i → s'.tget key = s.tget key

/-- The array part declined the store. -/
structure Declined (P : Prop) (s s' : TabState) (i : Int64) : Prop where
  /-- The table is in order. -/
  ok : TabOk s' none
  /-- No shared shape changed. -/
  grows : Grows s.shapes s'.shapes
  /-- The key is not in the array part. -/
  out : ¬ inArr s'.t i = true
  /-- The map is as it was. -/
  exact : P → Apart s → Apart s' ∧ ∀ key, s'.tget key = s.tget key

theorem Failed.mono (h : Failed P s₀ s s') (hP : P' → P) : Failed P' s₀ s s' :=
  ⟨h.raised, h.ok, h.grows, fun hp => h.exact (hP hp)⟩

theorem Stored.mono (h : Stored P s s' key v) (hP : P' → P) : Stored P' s s' key v :=
  ⟨h.ok, h.grows, fun hp => h.exact (hP hp)⟩

/-! ## Stores to the hash part -/

/-- A step that leaves the array part alone keeps it in order. -/
theorem Frame.arrOk (h : Frame s s') (hok : ArrOk s.t skip) : ArrOk s'.t skip := by
  have hslot : ∀ i, s'.t.arrSlot i = s.t.arrSlot i := by
    intro i
    unfold LuaTable.arrSlot
    rw [h.arr]
  refine ⟨?_, ?_, ?_, ?_, ?_⟩
  · rw [h.alen, h.arr]
    exact hok.room
  · intro n hn
    rw [h.alen] at hn
    rw [hslot]
    exact hok.last n hn
  · rw [h.farr, h.arr]
    exact hok.farr
  · intro i hi hne hmark
    rw [h.alen] at hi
    rw [hslot] at hmark
    rw [h.farr]
    exact hok.marked i hi hne hmark
  · rw [h.arr]
    exact hok.len

theorem Frame.inArr_eq (h : Frame s s') (i : Int64) : inArr s'.t i = inArr s.t i := by
  unfold inArr
  rw [h.alen]

theorem Frame.arrValue (h : Frame s s') (i : ℕ) : s'.t.arrValue i = s.t.arrValue i := by
  apply arrValue_eq_of_slot
  · unfold LuaTable.arrSlot
    rw [h.arr]
  · rw [h.farr]

/-- A store to the hash part, at a key that is not in the array part, changes the map at its key. -/
theorem HashSet.tget_put (h : HashSet s s' key v) (hout : ∀ i, key = .int i → ¬ inArr s.t i = true) (key' : Key) :
    s'.tget key' = if key' = key then v else s.tget key' := by
  cases key' with
  | int j =>
    by_cases hin : inArr s.t j = true
    · have hne : Key.int j ≠ key := fun heq => hout j heq.symm hin
      have hin' := hin
      rw [← h.toFrame.inArr_eq] at hin'
      rw [if_neg hne, tget_of_inArr hin, tget_of_inArr hin', h.toFrame.arrValue]
    · have hin' := hin
      rw [← h.toFrame.inArr_eq] at hin'
      rw [tget_of_not_inArr hin, tget_of_not_inArr hin']
      split
      · rename_i heq
        rw [heq]
        exact h.get
      · rename_i hne
        exact h.other _ hne
  | _ =>
    rw [tget_of_ne_int (by simp), tget_of_ne_int (by simp)]
    split
    · rename_i heq
      rw [heq]
      exact h.get
    · rename_i hne
      exact h.other _ hne

/-- It is done. -/
theorem HashSet.stored (h : HashSet s s' key v) (hok : TabOk s none)
    (hout : ∀ i, key = .int i → ¬ inArr s.t i = true) : Stored P s s' key v where
  ok := ⟨h.ok, h.toFrame.arrOk hok.arr⟩
  grows := h.grows
  exact _ hapart := by
    refine ⟨?_, h.tget_put hout⟩
    intro j hin
    rw [h.toFrame.inArr_eq] at hin
    rw [h.other]
    · exact hapart j hin
    · intro heq
      exact hout j heq.symm hin

/-- A step that changes nothing about the map. -/
theorem Unchanged.tget (h : Unchanged s s') (key : Key) : s'.tget key = s.tget key := by
  cases key with
  | int j =>
    by_cases hin : inArr s.t j = true
    · have hin' := hin
      rw [← h.toFrame.inArr_eq] at hin'
      rw [tget_of_inArr hin, tget_of_inArr hin', h.toFrame.arrValue]
    · have hin' := hin
      rw [← h.toFrame.inArr_eq] at hin'
      rw [tget_of_not_inArr hin, tget_of_not_inArr hin', h.get]
  | _ => exact h.get _

theorem Unchanged.apart (h : Unchanged s s') (hapart : Apart s) : Apart s' := by
  intro j hin
  rw [h.toFrame.inArr_eq] at hin
  rw [h.get]
  exact hapart j hin

theorem Overflow.failed {e : Fault} (h : Overflow e s s') (hok : TabOk s none) : Failed P e s s' where
  raised := by
    rw [h.error]
    simp [tableOverflow]
  ok := ⟨h.ok, h.toFrame.arrOk hok.arr⟩
  grows := h.grows
  exact _ hapart := ⟨h.toUnchanged.apart hapart, h.toUnchanged.tget⟩

/-- A store to the hash part, at a key that is not in the array part. -/
theorem tabSetHash_stored (hok : TabOk s none) (hk : Normal k) (hc : canon k = some key)
    (hout : ∀ i, key = .int i → ¬ inArr s.t i = true) (v : Val) :
    Meets (tabSetHash k v) s (fun _ s' => Stored P s s' key v) (fun e s' => Failed P e s s') := by
  obtain ⟨sh, hash⟩ := hok.hash
  exact (tabSetHash_spec hash hk hc v).mono (fun _ s' h => h.stored hok hout)
    fun _ _ h => h.failed hok

/-- A store that follows a step that did not change the map. -/
theorem Stored.after (h : Declined P s s' i) (h' : Stored P s' s'' key v) : Stored P s s'' key v where
  ok := h'.ok
  grows := h.grows.trans h'.grows
  exact hP hapart := by
    obtain ⟨hapart', hget⟩ := h.exact hP hapart
    obtain ⟨hapart'', hget'⟩ := h'.exact hP hapart'
    refine ⟨hapart'', fun key' => ?_⟩
    rw [hget', hget]

theorem Failed.after {e : Fault} (h : Declined P s s' i) (h' : Failed P e s' s'') : Failed P e s s'' where
  raised := h'.raised
  ok := h'.ok
  grows := h.grows.trans h'.grows
  exact hP hapart := by
    obtain ⟨hapart', hget⟩ := h.exact hP hapart
    obtain ⟨hapart'', hget'⟩ := h'.exact hP hapart'
    refine ⟨hapart'', fun key' => ?_⟩
    rw [hget', hget]

/-! ## Stores to the array part -/

theorem mostlyHoles_spec (hok : ArrOk s.t skip) : ∃ b, mostlyHoles s.t = some b := by
  have hroom := hok.room
  unfold mostlyHoles
  cases ha : s.t.arr with
  | none => exact ⟨false, rfl⟩
  | some a =>
    rw [ha, lengthOf_some] at hroom
    dsimp only
    split
    · unfold arrHoles
      rw [if_pos hroom]
      exact ⟨_, rfl⟩
    · exact ⟨false, rfl⟩

/-- The array part has grown by a slot that holds `w`, and by the keys that continue it. -/
structure Appended (s s' : TabState) (w : Slot) : Prop where
  /-- The array part is longer. -/
  alen : s.t.alen < s'.t.alen
  /-- The first new slot. -/
  last : s'.t.arrSlot s.t.alen = w
  /-- The other keys are as they were. -/
  tget : ∀ key, key ≠ arrKey s.t.alen → s'.tget key = s.tget key
  /-- The keys that continue it had values. -/
  live : ∀ j, s.t.alen < j → j < s'.t.alen → s.tget (arrKey j) ≠ .nil

/-- The value joins the array part. -/
theorem arrPush_stored (hok : TabOk s none) (hn : s.t.alen < arrMax) (hw : w.isNull = false)
    (hi : i.toInt = s.t.alen + 1)
    (hclean : P → s.hget (.int i) = .nil) :
    Ensures (do
        arrPush w
        absorbAll
        pure true) s (fun b s' => b = true ∧ ArrSet P s s' i w ∧ Appended s s' w) := by
  have hmax : s.t.alen + 1 < 2^31 := by
    unfold arrMax at hn
    omega
  have hi' : i = Int64.ofInt ((s.t.alen : ℤ) + 1) := ofInt_toInt_succ (by omega) hi
  have hkey : Key.int i = arrKey s.t.alen := by
    rw [hi']
    rfl
  have hidx : arrIndex i = s.t.alen := by
    unfold arrIndex
    omega
  obtain ⟨sh, hash⟩ := hok.hash
  apply (arrPush_spec hok.arr hmax hw).bind
  intro _ s₁ hp
  have harr₁ : ArrOk s₁.t (some s.t.alen) := by
    have harr := hp.arr
    split at harr
    · exact harr
    · exact harr.with_skip
  -- the keys that follow move from the hash part
  apply (absorbAll_spec (hp.toHashSame.hashOk hash) harr₁).bind
  intro _ s' habs
  have halen : s.t.alen < s'.t.alen := by
    have h1 := hp.alen
    have h2 := habs.alen
    omega
  have hin : inArr s'.t i = true := by
    rw [inArr_iff]
    omega
  have hget₁ : ∀ key, key ≠ arrKey s.t.alen → s₁.hget key = s.hget key :=
    fun key _ => hp.toHashSame.hget key
  have hlast : s'.t.arrSlot s.t.alen = w := by
    rw [habs.slot _ (by have := hp.alen; omega)]
    exact hp.last
  have htget : ∀ key, key ≠ arrKey s.t.alen → s₁.tget key = s.tget key := by
    intro key hne
    rw [tget_of_longer (by omega) hp.alen (fun j hj => hp.value j (by omega)) hget₁, if_neg hne]
  refine meets_pure ⟨rfl, ⟨⟨sh, habs.hash⟩, ?_, hp.toHashSame.grows.trans habs.grows, by omega, ?_,
    fun _ => hin, ?_⟩, halen, hlast, fun key hne => (habs.tget key).trans (htget key hne), ?_⟩
  · rw [hidx]
    exact habs.arr
  · intro _
    rw [hidx]
    exact hlast
  · intro hP hapart
    have hnil := hclean hP
    rw [hkey] at hnil
    -- the pushed key had no value in the hash part
    have hapart₁ : Apart s₁ := by
      apply apart_of_longer (by omega) hp.alen hget₁ _ hapart
      rw [hp.toHashSame.hget]
      exact hnil
    have hapart' := habs.apart hapart₁
    refine ⟨hapart', hapart' i hin, fun key hne => ?_⟩
    rw [hkey] at hne
    rw [habs.tget, htget key hne]
  · intro j hj hlt
    have hsmall := habs.arr.small
    have hne : arrKey j ≠ arrKey s.t.alen := by
      intro heq
      have hinj := arrKey_inj (by omega) (by omega) heq
      omega
    rw [← htget _ hne]
    exact habs.live j (by have := hp.alen; omega) hlt

/-- `$arr_append`. -/
theorem arrAppend_spec (hok : TabOk s none) (hi : i.toInt = s.t.alen + 1) :
    Meets (arrAppend w) s
      (fun b s' => if b then ArrSet (AppendClean s w) s s' i w else Declined (AppendClean s w) s s' i)
      (fun e s' => Failed (AppendClean s w) e s s') := by
  have hout : ¬ inArr s.t i = true := by
    rw [inArr_iff]
    omega
  have hsame : Declined (AppendClean s w) s s i := ⟨hok, Grows.refl, hout, fun _ h => ⟨h, fun _ => rfl⟩⟩
  unfold arrAppend
  apply meets_get_bind
  dsimp only
  split
  · exact meets_pure hsame
  rename_i hnull
  have hw : w.isNull = false := by simpa using hnull
  split
  · exact meets_pure hsame
  rename_i hmax
  obtain ⟨b, hb⟩ := mostlyHoles_spec hok.arr
  apply meets_orStuck hb
  cases b with
  | true =>
    rw [if_pos rfl]
    apply Meets.bind (Q := fun _ s' => Declined (AppendClean s w) s s' i)
    · refine (tabDemote_spec hok).with_run.mono ?_ ?_
      · rintro _ s' ⟨⟨hok', hgrows, hzero, hget⟩, -⟩
        have hempty : ∀ j, ¬ inArr s'.t j = true := by
          intro j
          rw [inArr_iff]
          omega
        exact ⟨hok', hgrows, hempty i, fun _ hapart =>
          ⟨fun j hin => absurd hin (hempty j), hget hapart⟩⟩
      · rintro e s' ⟨⟨he, hok', hgrows, -⟩, hrun⟩
        refine ⟨?_, hok', hgrows, fun hclean => ?_⟩
        · rw [he]
          simp [tableOverflow]
        · -- the move stopped half way, so the condition did not hold
          have hend := hclean hw (by omega)
          rw [hb, if_pos rfl, hrun] at hend
          obtain ⟨_, hend⟩ := hend
          cases hend
    · intro _ s' h
      exact meets_pure h
  | false =>
    rw [if_neg (by simp)]
    refine (arrPush_stored (P := AppendClean s w) hok (by omega) hw hi ?_).mono ?_ fun _ _ h => h.elim
    · intro h
      have h' := h hw (by omega)
      obtain ⟨sh, hash⟩ := hok.hash
      have hi' := ofInt_toInt_succ (n := s.t.alen) (by have := hok.arr.small; omega) hi
      rw [hb, if_neg (by simp), tabGetHash_spec hash] at h'
      rw [hi']
      exact Option.some.inj h'
    · rintro _ s' ⟨rfl, h, -⟩
      exact h

/-- A write of a slot of the array part leaves the other keys alone. -/
theorem ArrWritten.tget_other (h : ArrWritten s s' (arrIndex i) w) (hin : inArr s.t i = true) (hne : key ≠ .int i) :
    s'.tget key = s.tget key := by
  have hsame : ∀ j, inArr s'.t j = inArr s.t j := by
    intro j
    unfold inArr
    rw [h.alen]
  cases key with
  | int j =>
    by_cases hj : inArr s.t j = true
    · have hj' := hj
      rw [← hsame] at hj'
      have hji : arrIndex j ≠ arrIndex i := by
        intro h
        exact hne (by rw [arrIndex_inj hj hin h])
      rw [tget_of_inArr hj, tget_of_inArr hj', h.value hji]
    · have hj' := hj
      rw [← hsame] at hj'
      rw [tget_of_not_inArr hj, tget_of_not_inArr hj', h.toHashSame.hget]
  | _ => exact h.toHashSame.hget _

/-- The array part is in order after the write, unless its last slot was emptied. -/
theorem ArrWritten.arrOk {j : ℕ} (h : ArrWritten s s' j w) (hok : ArrOk s.t none)
    (hw : w.isNull = true → j + 1 ≠ s.t.alen) : ArrOk s'.t (some j) := by
  refine ⟨?_, ?_, h.covered, ?_, ?_⟩
  · rw [h.alen, h.len]
    exact hok.room
  · intro n hn
    rw [h.alen] at hn
    rw [h.slot]
    split
    · rename_i hni
      have hwnull : ¬ w.isNull = true := fun hnull => hw hnull (by omega)
      simpa using hwnull
    · exact hok.last n hn
  · intro k hk hne hmark
    have hkj : k ≠ j := fun h => hne (by rw [h])
    rw [h.slot, if_neg hkj] at hmark
    rw [h.farr]
    rw [h.alen] at hk
    exact hok.marked k hk (by simp) hmark
  · rw [h.len]
    exact hok.len

/-- A store to a slot of the array part. -/
theorem setInArr_spec (hok : TabOk s none) (hin : inArr s.t i = true) (w : Slot) :
    Ensures (setInArr i w) s (fun _ s' => ArrSet P s s' i w) := by
  have hlt := arrIndex_lt hin
  have hroom := hok.arr.room
  have hlen := hok.arr.len
  obtain ⟨sh, hash⟩ := hok.hash
  unfold setInArr
  apply meets_get_bind
  apply (setArr_spec hok.arr.farr (show arrIndex i < lengthOf s.t.arr by omega) w).bind
  intro _ s₁ hwr
  have hhash₁ := hwr.toHashSame.hashOk hash
  have hroom₁ : s₁.t.alen ≤ lengthOf s₁.t.arr := by
    rw [hwr.alen, hwr.len]
    exact hroom
  have hmarked : ∀ j < s₁.t.alen, some (arrIndex i) ≠ some j → s₁.t.arrSlot j = .mark →
      s₁.t.farr ≠ none := by
    intro j hj hne hmark
    have hji : j ≠ arrIndex i := fun h => hne (by rw [h])
    rw [hwr.slot, if_neg hji] at hmark
    rw [hwr.farr]
    rw [hwr.alen] at hj
    exact hok.arr.marked j hj (by simp) hmark
  have hin₁ : ∀ j, inArr s₁.t j = inArr s.t j := by
    intro j
    unfold inArr
    rw [hwr.alen]
  have hget₁ : ∀ key, key ≠ .int i → s₁.tget key = s.tget key := fun key => hwr.tget_other hin
  split
  · -- the last slot was emptied
    rename_i hnull
    refine (arrTrim_spec hroom₁).imp ?_
    intro _ s' htrim
    -- the length falls below the slot, so the key is in the hash part now
    have hout : ¬ inArr s'.t i = true := by
      intro h
      have hi := (inArr_iff.mp h).2
      have halen := htrim.alen
      have hs₁ := hwr.alen
      have hlast := htrim.last (arrIndex i) (by
        have h1 := toInt_of_inArr hin
        omega)
      rw [hwr.slot, if_pos rfl, hnull.1] at hlast
      cases hlast
    refine ⟨⟨sh, htrim.toHashSame.hashOk hhash₁⟩, htrim.arrOk hroom₁ hwr.covered hmarked ?_,
      hwr.toHashSame.grows.trans htrim.toHashSame.grows, (inArr_iff.mp hin).1,
      fun h => absurd h hout, ?_, fun _ hapart => ?_⟩
    · rw [hwr.len]
      exact hlen
    · intro hw
      rw [hnull.1] at hw
      cases hw
    · have hless : ∀ j, inArr s'.t j = true → inArr s₁.t j = true := by
        intro j hj
        have halen := htrim.alen
        rw [inArr_iff] at hj ⊢
        omega
      have hhget : ∀ key, s'.hget key = s.hget key := by
        intro key
        rw [htrim.toHashSame.hget, hwr.toHashSame.hget]
      refine ⟨fun j hj => ?_, ?_, fun key hne => ?_⟩
      · have hj' := hless j hj
        rw [hin₁] at hj'
        rw [hhget]
        exact hapart j hj'
      · rw [hhget]
        exact hapart i hin
      · rw [← hget₁ key hne]
        cases key with
        | int j =>
          by_cases hj : inArr s'.t j = true
          · rw [tget_of_inArr hj, tget_of_inArr (hless j hj), htrim.value]
          · rw [tget_of_not_inArr hj, hhget]
            by_cases hj₁ : inArr s₁.t j = true
            · -- a hole that was cut off has no value in the hash part
              rw [tget_of_inArr hj₁, htrim.tget hj₁ hj]
              rw [hin₁] at hj₁
              exact hapart j hj₁
            · rw [tget_of_not_inArr hj₁, hwr.toHashSame.hget]
        | _ => exact htrim.toHashSame.hget _
  · rename_i hnull
    apply meets_pure
    refine ⟨⟨sh, hhash₁⟩, hwr.arrOk hok.arr ?_, hwr.toHashSame.grows, (inArr_iff.mp hin).1, ?_, ?_, ?_⟩
    · intro hw hlast
      have hi := toInt_of_inArr hin
      exact hnull ⟨hw, by omega⟩
    · intro _
      rw [hwr.slot, if_pos rfl]
    · intro _
      rw [hin₁]
      exact hin
    · intro _ hapart
      refine ⟨fun j hj => ?_, ?_, hget₁⟩
      · rw [hin₁] at hj
        rw [hwr.toHashSame.hget]
        exact hapart j hj
      · rw [hwr.toHashSame.hget]
        exact hapart i hin

/-- `$tab_set_arr`. -/
theorem tabSetArr_spec (hok : TabOk s none) (i : Int64) (w : Slot) :
    Meets (tabSetArr i w) s
      (fun b s' => if b then ArrSet (StoreClean s i w) s s' i w else Declined (StoreClean s i w) s s' i)
      (fun e s' => Failed (StoreClean s i w) e s s') := by
  unfold tabSetArr
  apply meets_get_bind
  dsimp only
  split
  · rename_i hin
    apply (setInArr_spec hok hin w).bind_safe
    intro _ s' h
    exact meets_pure h
  rename_i hout
  split
  · rename_i hi
    have hP : StoreClean s i w → AppendClean s w := fun h => h hi
    refine (arrAppend_spec hok hi).mono ?_ fun e s' h => h.mono hP
    intro b s' h
    cases b with
    | true => exact ⟨h.hash, h.arr, h.grows, h.pos, h.slot, h.kept, fun hp => h.exact (hP hp)⟩
    | false => exact ⟨h.ok, h.grows, h.out, fun hp => h.exact (hP hp)⟩
  · exact meets_pure ⟨hok, Grows.refl, hout, fun _ h => ⟨h, fun _ => rfl⟩⟩

/-- A value that the array part took is stored. -/
theorem ArrSet.stored (h : ArrSet P s s' i (.val v)) : Stored P s s' (.int i) v where
  ok := by
    refine ⟨h.hash, h.arr.of_skip fun hi => ?_⟩
    have hpos := h.pos
    have hin : inArr s'.t i = true := by
      unfold arrIndex at hi
      rw [inArr_iff]
      omega
    rw [h.slot hin]
    simp
  grows := h.grows
  exact hP hapart := by
    obtain ⟨hapart', hnil, hget⟩ := h.exact hP hapart
    refine ⟨hapart', fun key => ?_⟩
    split
    · rename_i heq
      subst heq
      by_cases hin : inArr s'.t i = true
      · rw [tget_of_inArr hin]
        unfold LuaTable.arrValue
        rw [h.slot hin]
      · rw [tget_of_not_inArr hin, hnil]
        by_contra hv
        exact hin (h.kept (decide_eq_false (by simpa using Ne.symm hv)))
    · rename_i hne
      exact hget key hne

/-! ## The stores of the runtime -/

/-- `$tab_set_ik` stores the value at the integer key. -/
theorem tabSetIk_spec (hok : TabOk s none) (i : Int64) (v : Val) :
    Meets (tabSetIk i v) s (fun _ s' => Stored (StoreClean s i (.val v)) s s' (.int i) v)
      (fun e s' => Failed (StoreClean s i (.val v)) e s s') := by
  unfold tabSetIk
  apply (tabSetArr_spec hok i (.val v)).bind
  intro b s₁ h
  cases b with
  | true => exact meets_pure (ArrSet.stored h)
  | false =>
    have h : Declined (StoreClean s i (.val v)) s s₁ i := h
    have hout : ∀ j, Key.int i = .int j → ¬ inArr s₁.t j = true := by
      intro j hj
      obtain rfl := Key.int.inj hj
      exact h.out
    exact (tabSetHash_stored h.ok (normal_int i) rfl hout v).mono (fun _ _ h' => Stored.after h h')
      fun _ _ h' => Failed.after h h'

/-- `$lua_tabset_ik_f` stores the double at the integer key. -/
theorem tabsetIkF_spec (hok : TabOk s none) (i : Int64) (f : F64) :
    Meets (tabsetIkF i f) s (fun _ s' => Stored (StoreClean s i .mark) s s' (.int i) (.float f))
      (fun e s' => Failed (StoreClean s i .mark) e s s') := by
  unfold tabsetIkF
  apply (tabSetArr_spec hok i .mark).bind
  intro b s₁ h
  cases b with
  | true =>
    have h : ArrSet (StoreClean s i .mark) s s₁ i .mark := h
    obtain ⟨sh, hash⟩ := h.hash
    have hin := h.kept rfl
    refine (setFarr_spec h.arr (arrIndex_lt hin) (h.slot hin)).mono ?_ fun _ _ h => h.elim
    rintro _ s' ⟨hsame, harr, halen, -, hvalue, hothers⟩
    have hin' : ∀ j, inArr s'.t j = inArr s₁.t j := by
      intro j
      unfold inArr
      rw [halen]
    refine ⟨⟨⟨sh, hsame.hashOk hash⟩, harr⟩, h.grows.trans hsame.grows, fun hP hapart => ?_⟩
    obtain ⟨hapart₁, -, hget⟩ := h.exact hP hapart
    constructor
    · intro j hj
      rw [hin'] at hj
      rw [hsame.hget]
      exact hapart₁ j hj
    · intro key
      split
      · rename_i heq
        subst heq
        rw [tget_of_inArr (by rw [hin']; exact hin)]
        exact hvalue
      · rename_i hne
        rw [← hget key hne]
        cases key with
        | int j =>
          by_cases hj : inArr s₁.t j = true
          · have hji : arrIndex j ≠ arrIndex i := by
              intro heq
              exact hne (by rw [arrIndex_inj hj hin heq])
            rw [tget_of_inArr hj, tget_of_inArr (by rw [hin']; exact hj), hothers _ hji]
          · rw [tget_of_not_inArr hj, tget_of_not_inArr (by rw [hin']; exact hj), hsame.hget]
        | _ => exact hsame.hget _
  | false =>
    have h : Declined (StoreClean s i .mark) s s₁ i := h
    obtain ⟨sh, hash⟩ := h.ok.hash
    have hout : ∀ j, Key.int i = .int j → ¬ inArr s₁.t j = true := by
      intro j hj
      obtain rfl := Key.int.inj hj
      exact h.out
    exact (tabSetFHash_spec hash (normal_int i) rfl f).mono
      (fun _ _ h' => Stored.after h (h'.stored h.ok hout)) fun _ _ h' => Failed.after h (h'.failed h.ok)

theorem canon_of_isNaN {f : F64} (h : f.isNaN = true) : canon (.float f) = none := by
  obtain ⟨-, -, hc⟩ | ⟨_, hno, -, -⟩ | ⟨hno, -, -⟩ := canon_float_cases f
  · exact hc
  · exact absurd (hno.symm.trans h) (by decide)
  · exact absurd (hno.symm.trans h) (by decide)

theorem normal_of_asArrKey (hc : canon k = some key) (hi : asArrKey k = none) : Normal k := by
  cases k with
  | nil => cases hc
  | float f =>
    obtain ⟨-, -, hno⟩ | ⟨i, -, hf, -⟩ | ⟨hnan, hf, -⟩ := canon_float_cases f
    · rw [hno] at hc
      cases hc
    · have hi' : f.toI64 = none := hi
      rw [hf] at hi'
      cases hi'
    · exact ⟨hnan, hf⟩
  | _ => trivial

/-- `$tab_set` stores the value at the key that `k` denotes. -/
theorem tabSet_spec (hok : TabOk s none) (hc : canon k = some key) (v : Val) :
    Meets (tabSet k v) s (fun _ s' => Stored (KeyClean s k (.val v)) s s' key v)
      (fun e s' => Failed (KeyClean s k (.val v)) e s s') := by
  unfold tabSet
  split
  · rename_i hstr
    cases k with
    | str o x =>
      have hk : Normal (.str o x) := trivial
      refine tabSetHash_stored hok hk hc ?_ v
      rintro i rfl
      cases hc
    | _ => cases hstr
  split
  · rename_i hnil
    rw [hnil] at hc
    cases hc
  split
  · rename_i hnan
    cases k with
    | float f =>
      have hnan' : f.isNaN = true := hnan
      rw [canon_of_isNaN hnan'] at hc
      cases hc
    | _ => cases hnan
  cases hi : asArrKey k with
  | some i =>
    obtain rfl : Key.int i = key := by
      rw [canon_of_asArrKey hi] at hc
      exact Option.some.inj hc
    have hP : KeyClean s k (.val v) → StoreClean s i (.val v) := fun h => h i hi
    exact (tabSetIk_spec hok i v).mono (fun _ _ h => h.mono hP) fun _ _ h => h.mono hP
  | none =>
    refine tabSetHash_stored hok (normal_of_asArrKey hc hi) hc ?_ v
    rintro i rfl
    exact absurd hc (canon_ne_int_of_asArrKey hi i)

/-- `$tab_set` raises for a key that is nil or NaN, and does nothing. -/
theorem tabSet_none (hc : canon k = none) (v : Val) :
    Meets (tabSet k v) s (fun _ _ => False) (fun e s' => e ≠ .stuck ∧ s' = s) := by
  unfold tabSet
  split
  · rename_i hstr
    cases k with
    | str o x => cases hc
    | _ => cases hstr
  split
  · exact meets_throw ⟨by simp, rfl⟩
  rename_i hnil
  split
  · exact meets_throw ⟨by simp, rfl⟩
  · rename_i hnan
    cases k with
    | nil => exact absurd rfl hnil
    | float f =>
      obtain ⟨hnan', -, -⟩ | ⟨i, -, -, hf⟩ | ⟨-, -, hf⟩ := canon_float_cases f
      · exact absurd hnan' hnan
      · rw [hf] at hc
        cases hc
      · rw [hf] at hc
        cases hc
    | _ => cases hc

end Lua2wasm.Table
