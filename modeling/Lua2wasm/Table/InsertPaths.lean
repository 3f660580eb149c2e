import Lua2wasm.Table.Copies
import Lua2wasm.Table.Raises

/-!
# The two ways of `table.insert`

The fast path of `table.insert` against the loop of raw reads and writes that it stands for (`Agree`). The loop begins
with a store at the key after the array part. Usually that is an append. But the array part may be full and mostly
holes, and is moved out then; or it has the largest size that an append gives it, and the store goes to the hash part.
From there on the array part is only as long as it was, so that a hole that the loop copies to its last slot cuts it
off. `insert_agree_iff` says exactly when both ways are the same.
-/

namespace Lua2wasm.Table

open Raising

variable {s s' s₁ s₂ : TabState} {sh : Shape} {i j k n pos a b m : ℕ} {key : Key} {v : Val} {x : Int64} {g : ℕ → Val}

/-- Both return the same, and leave tables that nothing tells apart. -/
def Agree {α : Type} (x y : TabM α) (s : TabState) : Prop :=
  ∃ a s₁ s₂, Returns x s a s₁ ∧ Returns y s a s₂ ∧ Alike s₁ s₂

/-! ## What is written -/

/-- What `table.insert` does at a position. -/
theorem insertWrites_arrKey {f : Key → Val} (hn : n + 1 < 2^63) (hb : b ≤ n) (hi : i + 1 < 2^63) :
    Map.writes f (insertWrites n (b + 1) v) (arrKey i) =
      if i = b then v else if b < i ∧ i ≤ n then f (arrKey (i - 1)) else f (arrKey i) := by
  obtain ⟨hat, habove, hother⟩ := writes_insertWrites (m := f) (v := v) hn (Nat.le_add_left 1 b)
    (Nat.succ_le_succ hb) (arrKey i)
  split
  · rename_i hib
    rw [hib] at hat ⊢
    exact hat rfl
  rename_i hne
  split
  · rename_i hrange
    obtain ⟨i, rfl⟩ := Nat.exists_eq_succ_of_ne_zero (show i ≠ 0 by omega)
    exact habove (i + 2) (by omega) (by omega) rfl
  · rename_i hrange
    apply hother
    intro j hj hjn heq
    obtain ⟨j, rfl⟩ := Nat.exists_eq_succ_of_ne_zero (show j ≠ 0 by omega)
    have hinj := arrKey_inj (by omega) (by omega) heq
    omega

/-- What it does elsewhere. -/
theorem insertWrites_other {f : Key → Val} (hn : n + 1 < 2^63) (hb : b ≤ n)
    (hkey : ∀ i ≤ n, key ≠ arrKey i) : Map.writes f (insertWrites n (b + 1) v) key = f key := by
  obtain ⟨-, -, hother⟩ := writes_insertWrites (m := f) (v := v) hn (Nat.le_add_left 1 b)
    (Nat.succ_le_succ hb) key
  apply hother
  intro j hj hjn
  obtain ⟨j, rfl⟩ := Nat.exists_eq_succ_of_ne_zero (show j ≠ 0 by omega)
  exact hkey j (by omega)

/-- A store at the position after the array part, which takes it. -/
theorem tabSet_append (hok : TabOk s none) (hmax : s.t.alen < arrMax) (hholes : mostlyHoles s.t ≠ some true)
    (hv : v ≠ .nil) :
    Ensures (tabSet (refI31 ((s.t.alen : ℤ) + 1)) v) s (fun _ s' => TabOk s' none ∧ Appended s s' (.val v)) := by
  obtain ⟨h, hb⟩ := mostlyHoles_spec hok.arr
  unfold arrMax at hmax
  have hto := toInt_ofNat (n := s.t.alen + 1) (by omega)
  push_cast at hto
  have hout : ¬ inArr s.t (Int64.ofInt ((s.t.alen : ℤ) + 1)) = true := by
    rw [inArr_ofInt (by omega)]
    exact Nat.lt_irrefl _
  have hnull : (Slot.val v).isNull = false := decide_eq_false (by simpa using hv)
  have hpush := arrPush_stored (P := False) hok hmax hnull hto fun h => h.elim
  rw [tabSet_refI31 (by omega)]
  unfold tabSetIk tabSetArr
  apply Meets.bind (Q := fun c s' => c = true ∧ TabOk s' none ∧ Appended s s' (.val v))
  · apply meets_get_bind
    rw [if_neg hout, if_pos hto]
    unfold arrAppend
    apply meets_get_bind
    unfold arrMax
    rw [if_neg (by simp [hnull]), if_neg (by omega)]
    apply meets_orStuck hb
    rw [if_neg (by rintro rfl; exact hholes hb)]
    exact hpush.imp (fun _ _ h => ⟨h.1, (ArrSet.stored h.2.1).ok, h.2.2⟩)
  · rintro c s' ⟨rfl, h⟩
    exact meets_pure h

/-- A table that is read as `table.insert` says. -/
theorem eq_insertWrites {f f' : Key → Val} (hn : n + 1 < 2^63) (hb : b ≤ n)
    (hin : ∀ i ≤ n, f' (arrKey i) = if i = b then v else if b < i then f (arrKey (i - 1)) else f (arrKey i))
    (hout : ∀ key, (∀ i ≤ n, key ≠ arrKey i) → f' key = f key) :
    f' = Map.writes f (insertWrites n (b + 1) v) := by
  funext key
  by_cases hkey : ∃ i ≤ n, key = arrKey i
  · obtain ⟨i, hi, rfl⟩ := hkey
    rw [hin i hi, insertWrites_arrKey hn hb (by omega)]
    simp only [hi, and_true]
  · have hother : ∀ i ≤ n, key ≠ arrKey i := fun i hi heq => hkey ⟨i, hi, heq⟩
    rw [hout key hother, insertWrites_other hn hb hother]

/-- A key that the copies do not reach. -/
theorem ArrIs.tget_other (h : ArrIs s s' s.t.alen g) (halen : s'.t.alen = s.t.alen)
    (hg : ∀ i, m ≤ i → g i = s.t.arrValue i) (hkey : ∀ i < m, key ≠ arrKey i) : s'.tget key = s.tget key := by
  have hsmall := h.ok.arr.small
  obtain ⟨i, hi, rfl, hget⟩ | ⟨hout, hget⟩ := tget_cases hsmall key
  · have him : m ≤ i := by
      by_contra hlt
      exact hkey i (by omega) rfl
    rw [hget, h.value i hi, hg i him, tget_arrKey_of_lt (by omega) (by omega)]
  · obtain ⟨i, hi, rfl, -⟩ | ⟨-, hget'⟩ := tget_cases (s := s) (by omega) key
    · exact absurd rfl (hout i (by omega))
    · rw [hget, hget', h.toHashSame.hget]

/-! ## The first store -/

/-- The hash part takes the key: it has the key already, or room for one more. -/
def HasRoom (s : TabState) (key : Key) : Prop := ∀ sh, s.shape = some sh → sh.pos key = none → ¬ Crowded s

/-- A store of an integer key to the hash part raises exactly without room. -/
theorem tabSetHash_room (hash : HashOk s sh none) (x : Int64) (hv : v ≠ .nil) :
    Meets (tabSetHash (.int x) v) s (fun _ s' => HasRoom s (.int x) ∧ HashSet s s' (.int x) v)
      (fun _ _ => ¬ HasRoom s (.int x)) := by
  have hroom : Meets (tabSetHash (.int x) v) s (fun _ _ => HasRoom s (.int x)) (fun _ _ => ¬ HasRoom s (.int x)) := by
    unfold tabSetHash
    apply meets_getShape hash.shape
    apply meets_orStuck (tabFind_spec hash.wf (.int x))
    change Meets (setFound (sh.pos (.int x)) (.int x) v _) s _ _
    unfold setFound
    cases hp : sh.pos (.int x) with
    | some i =>
      refine (setVal_found hash hp v).mono (fun _ _ _ sh' hsh' hnone => ?_) fun _ _ h => h.elim
      obtain rfl := Option.some.inj (hash.shape.symm.trans hsh')
      rw [hp] at hnone
      cases hnone
    | none =>
      rw [if_neg hv]
      by_cases hfull : Crowded s
      · exact (hfull.tabInsertNew hash rfl _ _).mono (fun _ _ h => h.elim) fun _ _ _ h => h sh hash.shape hp hfull
      · exact (tabInsertNew_raises hash (normal_int x) rfl hp _).mono (fun _ _ _ _ _ _ => hfull)
          fun _ _ h => absurd h.2 hfull
  exact (hroom.and (tabSetHash_spec hash (normal_int x) rfl v)).imp_error fun _ _ h => h.1

/-- The first store of the loop is an append, or the hash part takes it. -/
def Takes (s : TabState) : Prop :=
  (s.t.alen < arrMax → mostlyHoles s.t ≠ some true) ∧ (arrMax ≤ s.t.alen → HasRoom s (arrKey s.t.alen))

/-- The key after the array part has got a value. -/
structure Extended (s s' : TabState) (v : Val) : Prop where
  /-- The table is in order. -/
  ok : TabOk s' none
  /-- The array part is no shorter. -/
  alen : s.t.alen ≤ s'.t.alen
  /-- The new value. -/
  last : s'.tget (arrKey s.t.alen) = v
  /-- The other keys are as they were. -/
  tget : ∀ key, key ≠ arrKey s.t.alen → s'.tget key = s.tget key
  /-- The keys that continue the array part had values. -/
  live : ∀ j, s.t.alen < j → j < s'.t.alen → s.tget (arrKey j) ≠ .nil

theorem Appended.extended (h : Appended s s' (.val v)) (hok : TabOk s' none) : Extended s s' v where
  ok := hok
  alen := Nat.le_of_lt h.alen
  last := by
    have hsmall := hok.arr.small
    rw [tget_arrKey_of_lt h.alen (by have := h.alen; omega)]
    unfold LuaTable.arrValue
    rw [h.last]
  tget := h.tget
  live := h.live

/-- The keys before the new one. -/
theorem Extended.arrKey_other (h : Extended s s₁ v) (hne : i ≠ s.t.alen) (hi : i + 1 < 2^63)
    (hn : s.t.alen + 1 < 2^63) : s₁.tget (arrKey i) = s.tget (arrKey i) :=
  h.tget _ fun heq => hne (arrKey_inj hi hn heq)

/-- An array part of the largest size declines the key after it. -/
theorem tabSetArr_declined (hx : x.toInt = s.t.alen + 1) (hmax : v = .nil ∨ arrMax ≤ s.t.alen) :
    Returns (tabSetArr x (.val v)) s false s := by
  have hout : ¬ inArr s.t x = true := by
    rw [inArr_iff]
    omega
  unfold tabSetArr
  apply returns_get_bind
  rw [if_neg hout, if_pos hx]
  unfold arrAppend
  apply returns_get_bind
  by_cases hv : v = .nil
  · rw [hv]
    rfl
  · rw [if_neg (by simpa [Slot.isNull] using hv), if_pos (hmax.resolve_left hv)]
    rfl

/-- The store at the key after an array part of the largest size. -/
theorem tabSet_large (hok : TabOk s none) (hmax : arrMax ≤ s.t.alen) (hfit : s.t.alen + 1 < 2^30) (hv : v ≠ .nil) :
    Meets (tabSet (refI31 ((s.t.alen : ℤ) + 1)) v) s
      (fun _ s' => HasRoom s (arrKey s.t.alen) ∧ Extended s s' v ∧ s'.t.alen = s.t.alen)
      (fun _ _ => ¬ HasRoom s (arrKey s.t.alen)) := by
  obtain ⟨sh, hash⟩ := hok.hash
  have hto := toInt_ofNat (n := s.t.alen + 1) (by omega)
  rw [tabSet_refI31 hfit]
  unfold tabSetIk
  apply (tabSetArr_declined hto (Or.inr hmax)).bind_meets
  rw [if_neg (by simp)]
  refine (tabSetHash_room hash _ hv).imp ?_
  rintro _ s' ⟨hroom, h⟩
  have hput := h.tget_put fun y hy => by
    obtain rfl := Key.int.inj hy
    rw [inArr_ofInt (by omega)]
    exact Nat.lt_irrefl _
  refine ⟨hroom, ⟨⟨h.ok, h.toFrame.arrOk hok.arr⟩, h.alen.ge, ?_, fun key hne => ?_, fun j hj hlt => ?_⟩, h.alen⟩
  · rw [hput]
    exact if_pos rfl
  · rw [hput]
    exact if_neg hne
  · rw [h.alen] at hlt
    omega

/-- The first store, when it is taken. -/
theorem tabSet_taken (hok : TabOk s none) (hfit : s.t.alen + 1 < 2^30) (htakes : Takes s) (hv : v ≠ .nil) :
    Ensures (tabSet (refI31 ((s.t.alen : ℤ) + 1)) v) s
      (fun _ s' => Extended s s' v ∧ (s.t.alen < arrMax → s.t.alen < s'.t.alen)) := by
  by_cases hmax : s.t.alen < arrMax
  · refine (tabSet_append hok hmax (htakes.1 hmax) hv).imp ?_
    exact fun _ s' h => ⟨h.2.extended h.1, fun _ => h.2.alen⟩
  · refine (tabSet_large hok (Nat.le_of_not_lt hmax) hfit hv).mono ?_ fun _ _ h => h (htakes.2 (Nat.le_of_not_lt hmax))
    exact fun _ s' h => ⟨h.2.1, fun hlt => absurd hlt hmax⟩

/-! ## The loop within the array part -/

/-- The loop copies no hole to the last slot of an array part that has not grown. -/
def CopiesNoHole (s : TabState) (pos : ℕ) : Prop :=
  arrMax ≤ s.t.alen → pos < s.t.alen → s.t.arrValue (s.t.alen - 2) ≠ .nil

/-- The insertion is done. -/
structure InsertDone (s s' : TabState) (pos : ℕ) (v : Val) : Prop where
  /-- The table is in order. -/
  ok : TabOk s' none
  /-- The array part is no shorter. -/
  alen : s.t.alen ≤ s'.t.alen
  /-- The table as a map. -/
  tget : s'.tget = Map.writes s.tget (insertWrites s.t.alen pos v)
  /-- The keys that continue the array part had values. -/
  live : ∀ j, s.t.alen < j → j < s'.t.alen → s.tget (arrKey j) ≠ .nil

/-- The rest of the loop, after the first store: it stays within the array part. -/
theorem shiftRest_done {y : Val} (h : Extended s s₁ y) (hgrown : s.t.alen < arrMax → s.t.alen < s₁.t.alen)
    (hfit : s.t.alen + 1 < 2^30) (hb : b < s.t.alen) (hy : y = s.tget (arrKey (s.t.alen - 1)))
    (hno : CopiesNoHole s (b + 1)) (hv : v ≠ .nil) :
    Ensures (do
        copyDown none ((b : ℤ) + 1) (((b + 1 : ℕ) : ℤ) + 1) (s.t.alen - 1 - b)
        tabSet (refI31 ((b : ℤ) + 1)) v) s₁
      (fun _ s' => InsertDone s s' (b + 1) v) := by
  have halen := h.alen
  have hsmall := h.ok.arr.small
  have hval : ∀ i < s₁.t.alen, s₁.t.arrValue i = s₁.tget (arrKey i) := fun i hi =>
    (tget_arrKey_of_lt hi (by omega)).symm
  -- the last slot gets no hole, unless the array part has grown
  have hlast : ∀ i < s.t.alen - 1 - b, s₁.t.arrValue (b + i) ≠ .nil ∨ b + 1 + i + 1 < s₁.t.alen := by
    intro i hi
    by_cases hin : b + 1 + i + 1 < s₁.t.alen
    · exact Or.inr hin
    · left
      have hmax : arrMax ≤ s.t.alen := by
        by_contra hlt
        omega
      rw [show b + i = s.t.alen - 2 by omega, hval _ (by omega), h.arrKey_other (by omega) (by omega) (by omega),
        tget_arrKey_of_lt (by omega) (by omega)]
      exact hno hmax (by omega)
  have hcopy := copyDown_spec none (f := (b : ℤ) + 1) (b := b + 1) (m := s.t.alen - 1 - b)
    (r := fun i => s₁.t.arrValue (b + i)) h.ok (by omega) (by omega) hlast
    fun i hi s₂ h₂ halen₂ => h₂.read halen₂ (by omega) (by omega) (by omega)
  apply hcopy.bind
  rintro _ s₂ ⟨h₂, halen₂⟩
  refine (h₂.put (i := b) halen₂ (by omega) (by omega) v).imp ?_
  rintro _ s' ⟨h', halen'⟩
  have halen' := halen' (Or.inl hv)
  refine ⟨h'.ok, by omega, ?_, fun j hj hlt => h.live j hj (by omega)⟩
  apply eq_insertWrites (by omega) (by omega)
  · intro i hi
    by_cases hend : i < s₁.t.alen
    · rw [tget_arrKey_of_lt (by omega) (by omega), h'.value i (by omega)]
      split
      · rfl
      unfold copied
      by_cases hrange : b + 1 + 0 ≤ i ∧ i < b + 1 + (s.t.alen - 1 - b)
      · rw [if_pos hrange, if_pos (by omega)]
        calc s₁.t.arrValue (b + (i - (b + 1))) = s₁.t.arrValue (i - 1) := congrArg s₁.t.arrValue (by omega)
          _ = s₁.tget (arrKey (i - 1)) := hval _ (by omega)
          _ = s.tget (arrKey (i - 1)) := h.arrKey_other (by omega) (by omega) (by omega)
      · rw [if_neg hrange, hval _ hend]
        by_cases heq : i = s.t.alen
        · rw [if_pos (by omega), heq, h.last, hy]
        · rw [if_neg (by omega), h.arrKey_other heq (by omega) (by omega)]
    · -- the new key is in the hash part
      obtain rfl : i = s.t.alen := by omega
      rw [if_neg (by omega), if_pos hb, ← hy, ← h.last, tget_arrKey_of_le (by omega) (by omega),
        tget_arrKey_of_le (by omega) (by omega), h'.toHashSame.hget]
  · intro key hkey
    rw [← h.tget key (hkey _ (Nat.le_refl _))]
    apply h'.tget_other (m := s.t.alen + 1) halen'
    · intro i hi
      unfold copied
      rw [if_neg (by omega), if_neg (by omega)]
    · exact fun i hi => hkey i (by omega)

/-- The loop begins with the last value. -/
theorem insertSlow_succ (hn : n = b + k + 1) (v : Val) :
    insertSlow n (b + 1) v = (do
      copySlot none (((b + 1 : ℕ) : ℤ) + k) (((b + 1 : ℕ) : ℤ) + 1 + k)
      copyDown none ((b + 1 : ℕ) : ℤ) (((b + 1 : ℕ) : ℤ) + 1) k
      tabSet (refI31 ((b + 1 : ℕ) : ℤ)) v) := by
  have hloop := shiftUpFrom_eq_copy (b + 1) (k + 1) (Nat.le_add_left 1 b)
  rw [show b + 1 + (k + 1) - 1 = n by omega] at hloop
  have hdown : copyDown none ((b + 1 : ℕ) : ℤ) (((b + 1 : ℕ) : ℤ) + 1) (k + 1) = (do
      copySlot none (((b + 1 : ℕ) : ℤ) + k) (((b + 1 : ℕ) : ℤ) + 1 + k)
      copyDown none ((b + 1 : ℕ) : ℤ) (((b + 1 : ℕ) : ℤ) + 1) k) := rfl
  unfold insertSlow
  rw [show n + 1 - (b + 1) = k + 1 by omega, hloop, hdown]
  simp only [bind_assoc]

/-- A copied slot is a store of what was read. -/
theorem copySlot_store {f t : ℤ} {Q : Unit → TabState → Prop} {E : Fault → TabState → Prop}
    (hread : tabGetRaw s (refI31 f) = some v) (h : Meets (tabSet (refI31 t) v) s Q E) :
    Meets (copySlot none f t) s Q E := by
  unfold copySlot
  apply meets_get_bind
  exact meets_orStuck hread h

/-- The first value that the loop copies is the last one. -/
theorem tabGetRaw_last (hok : TabOk s none) (hk : s.t.alen = b + k + 1) (hfit : s.t.alen + 1 < 2^30) :
    tabGetRaw s (refI31 (((b + 1 : ℕ) : ℤ) + k)) = some (s.t.arrValue (s.t.alen - 1)) := by
  have hread := tabGetRaw_arr hok (i := s.t.alen - 1) (by omega) (by omega)
  rw [show ((s.t.alen - 1 : ℕ) : ℤ) + 1 = ((b + 1 : ℕ) : ℤ) + k by omega] at hread
  exact hread

/-- The loop of `table.insert`, when its first store is taken. -/
theorem insertSlow_done (hok : TabOk s none) (hb : b ≤ s.t.alen) (hfit : s.t.alen + 1 < 2^30) (htakes : Takes s)
    (hno : CopiesNoHole s (b + 1)) (hv : v ≠ .nil) :
    Ensures (insertSlow s.t.alen (b + 1) v) s (fun _ s' => InsertDone s s' (b + 1) v) := by
  obtain hend | hin := Nat.eq_or_lt_of_le hb
  · -- nothing is shifted
    subst hend
    unfold insertSlow
    rw [Nat.sub_self]
    apply meets_pure_bind
    refine (tabSet_taken hok hfit htakes hv).imp ?_
    rintro _ s' ⟨h, -⟩
    refine ⟨h.ok, h.alen, eq_insertWrites (by omega) (Nat.le_refl _) (fun i hi => ?_) fun key hkey => ?_, h.live⟩
    · split
      · rename_i hi'
        rw [hi', h.last]
      · rename_i hne
        rw [if_neg (by omega), h.arrKey_other hne (by omega) (by omega)]
    · exact h.tget key (hkey _ (Nat.le_refl _))
  · -- the last value is stored first
    obtain ⟨k, hk⟩ := Nat.exists_eq_add_of_lt hin
    rw [insertSlow_succ hk]
    have hne := arrValue_last hok (n := s.t.alen - 1) (by omega)
    have hfirst := tabSet_taken hok hfit htakes hne
    rw [show (s.t.alen : ℤ) + 1 = ((b + 1 : ℕ) : ℤ) + 1 + k by omega] at hfirst
    apply (copySlot_store (tabGetRaw_last hok hk hfit) hfirst).bind
    rintro _ s₁ ⟨h, hgrown⟩
    have hrest := shiftRest_done h hgrown hfit hin (tget_arrKey_of_lt (by omega) (by omega)).symm hno hv
    rw [show s.t.alen - 1 - b = k by omega] at hrest
    push_cast at hrest ⊢
    exact hrest

/-- The fast path of `table.insert` does what its loop does, when the loop stays within the array part. -/
theorem insert_agree (hok : TabOk s none) (hb : b ≤ s.t.alen) (hfit : s.t.alen + 1 < 2^30) (htakes : Takes s)
    (hno : CopiesNoHole s (b + 1)) (hv : v ≠ .nil) :
    Agree (insertFast (b + 1) v) (insertSlow s.t.alen (b + 1) v) s := by
  obtain ⟨sh, hash⟩ := hok.hash
  obtain ⟨_, s₁, hfast, h₁⟩ := (insertFast_opened hok (Nat.le_add_left 1 b) (by omega) (by omega) v).returns
  obtain ⟨_, s₂, hslow, h₂⟩ := (insertSlow_done hok hb hfit htakes hno hv).returns
  have hok₁ : TabOk s₁ none :=
    ⟨⟨sh, h₁.toHashSame.hashOk hash⟩, h₁.arrOk hok.arr (by omega) (Nat.le_add_left 1 b) hv⟩
  have halen₁ := h₁.alen
  have halen₂ := h₂.alen
  have hsmall₂ := h₂.ok.arr.small
  have hget : s₂.tget = s₁.tget := by
    rw [h₂.tget, h₁.tget (by omega) (Nat.le_add_left 1 b) (by omega)]
  refine ⟨(), s₁, s₂, hfast, hslow, Alike.of_tget hok₁ h₂.ok hget ?_⟩
  by_cases hgrown : s.t.alen < s₂.t.alen
  · refine tabLen_eq hok₁ h₂.ok hget (by omega) fun j hj hlt' => ?_
    rw [h₂.tget, insertWrites_other (by omega) hb]
    · exact h₂.live j (by omega) hlt'
    · intro i hi heq
      have hinj := arrKey_inj (by omega) (by omega) heq
      omega
  · -- only the last key of the one array part is in the hash part of the other table
    refine (tabLen_eq h₂.ok hok₁ hget.symm (by omega) fun j hj hlt => ?_).symm
    rw [tget_arrKey_of_lt hlt (by omega)]
    exact arrValue_last hok₁ (by omega)

/-! ## An array part that is moved out -/

/-- The array part was moved out. -/
structure Emptied (s : TabState) : Prop where
  /-- The table is in order. -/
  ok : TabOk s none
  /-- There is no array part. -/
  alen : s.t.alen = 0

/-- An append to an array part that is mostly holes moves it out. -/
theorem tabSet_emptied (hok : TabOk s none) (hmax : s.t.alen < arrMax) (hholes : mostlyHoles s.t = some true)
    (hv : v ≠ .nil) :
    Meets (tabSet (refI31 ((s.t.alen : ℤ) + 1)) v) s (fun _ s' => Emptied s') (fun _ _ => True) := by
  unfold arrMax at hmax
  have hto := toInt_ofNat (n := s.t.alen + 1) (by omega)
  have hd : DemotesAt s (Int64.ofInt ((s.t.alen : ℤ) + 1)) (.val v) :=
    ⟨hto, decide_eq_false (by simpa using hv), hmax, hholes⟩
  rw [tabSet_refI31 (by omega)]
  unfold tabSetIk
  apply ((tabSetArr_empties hok hd).imp_error fun _ _ _ => trivial).bind
  rintro _ s₁ ⟨rfl, hok₁, hzero⟩
  obtain ⟨sh, hash⟩ := hok₁.hash
  refine (tabSetHash_spec hash (normal_int _) rfl v).mono ?_ fun _ _ _ => trivial
  exact fun _ s' h => ⟨⟨h.ok, h.toFrame.arrOk hok₁.arr⟩, h.toFrame.alen.trans hzero⟩

/-- Then the stores after the first position go to the hash part. -/
theorem Emptied.tabSet (h : Emptied s) (hi : 1 ≤ i) (hfit : i + 1 < 2^30) (v : Val) :
    Meets (tabSet (refI31 ((i : ℤ) + 1)) v) s (fun _ s' => Emptied s') (fun _ _ => True) := by
  obtain ⟨sh, hash⟩ := h.ok.hash
  have hto := toInt_ofNat (n := i + 1) (by omega)
  push_cast at hto
  have hsparse : (s.t.alen : ℤ) + 1 < (Int64.ofInt ((i : ℤ) + 1)).toInt := by
    rw [hto, h.alen]
    omega
  rw [tabSet_refI31 hfit]
  refine (tabSetIk_sparse hash hsparse v).mono ?_ fun _ _ _ => trivial
  exact fun _ s' hs => ⟨⟨hs.ok, hs.toFrame.arrOk h.ok.arr⟩, hs.toFrame.alen.trans h.alen⟩

/-- And so do those of the loop. -/
theorem Emptied.copyDown {f : ℤ} (hfit : b + m + 1 < 2^30) :
    ∀ k ≤ m, ∀ s, Emptied s →
      Meets (copyDown none f (((b + 1 : ℕ) : ℤ) + 1) k) s (fun _ s' => Emptied s') (fun _ _ => True) := by
  intro k
  induction k with
  | zero => exact fun _ s h => meets_pure h
  | succ k ih =>
    intro hk s h
    obtain ⟨x, hread⟩ : ∃ x, tabGetRaw s (refI31 (f + k)) = some x := ⟨_, tabGetRaw_spec h.ok _⟩
    have hstore := h.tabSet (i := b + 1 + k) (by omega) (by omega) x
    rw [show ((b + 1 + k : ℕ) : ℤ) + 1 = ((b + 1 : ℕ) : ℤ) + 1 + k by omega] at hstore
    unfold Table.copyDown copySlot
    simp only [bind_assoc]
    apply meets_get_bind
    apply meets_orStuck hread
    exact hstore.bind fun _ s₁ h₁ => ih (by omega) s₁ h₁

/-- The array part has no holes. -/
def Solid (s : TabState) : Prop := ∀ j < s.t.alen, s.tget (arrKey j) ≠ .nil

/-- The last store may start a new array part, which has no holes. -/
theorem Emptied.last (h : Emptied s) (hb : b + 1 < 2^30) (hv : v ≠ .nil) :
    Meets (Table.tabSet (refI31 ((b : ℤ) + 1)) v) s (fun _ s' => TabOk s' none ∧ Solid s') (fun _ _ => True) := by
  have halen := h.alen
  by_cases hzero : b = 0
  · have hmax : s.t.alen < arrMax := by
      rw [halen]
      decide
    have hholes : mostlyHoles s.t ≠ some true := by
      intro hholes
      obtain ⟨j, hj, -⟩ := exists_hole h.ok hholes
      omega
    have happend := tabSet_append h.ok hmax hholes hv
    rw [halen] at happend
    subst hzero
    refine happend.mono ?_ fun _ _ h => h.elim
    rintro _ s' ⟨hok', happ⟩
    have hs := happ.extended hok'
    have hsmall := hok'.arr.small
    refine ⟨hok', fun j hj => ?_⟩
    by_cases hj₀ : j = 0
    · have hlast := hs.last
      rw [halen] at hlast
      rw [hj₀, hlast]
      exact hv
    · rw [hs.arrKey_other (by omega) (by omega) (by omega)]
      exact hs.live j (by omega) hj
  · refine (h.tabSet (by omega) hb v).imp ?_
    exact fun _ s' hs => ⟨hs.ok, fun j hj => absurd hj (by rw [hs.alen]; exact Nat.not_lt_zero j)⟩

/-- The loop of `table.insert`, when its first store moves the array part out. -/
theorem insertSlow_solid (hok : TabOk s none) (hb : b ≤ s.t.alen) (hmax : s.t.alen < arrMax)
    (hholes : mostlyHoles s.t = some true) (hv : v ≠ .nil) :
    Meets (insertSlow s.t.alen (b + 1) v) s (fun _ s' => TabOk s' none ∧ Solid s') (fun _ _ => True) := by
  have hlt : s.t.alen < 2^24 := hmax
  obtain hend | hin := Nat.eq_or_lt_of_le hb
  · subst hend
    unfold insertSlow
    rw [Nat.sub_self]
    apply meets_pure_bind
    refine (tabSet_emptied hok hmax hholes hv).imp ?_
    exact fun _ s' h => ⟨h.ok, fun j hj => absurd hj (by rw [h.alen]; exact Nat.not_lt_zero j)⟩
  · obtain ⟨k, hk⟩ := Nat.exists_eq_add_of_lt hin
    rw [insertSlow_succ hk]
    have hfirst := tabSet_emptied hok hmax hholes (arrValue_last hok (n := s.t.alen - 1) (by omega))
    rw [show (s.t.alen : ℤ) + 1 = ((b + 1 : ℕ) : ℤ) + 1 + k by omega] at hfirst
    apply (copySlot_store (tabGetRaw_last hok hk (by omega)) hfirst).bind
    intro _ s₁ h₁
    apply (Emptied.copyDown (m := k) (by omega) k (Nat.le_refl k) s₁ h₁).bind
    intro _ s₂ h₂
    exact h₂.last (by omega) hv

/-! ## An array part that is cut off -/

/-- The array part has no hole at an index. -/
def NoHole (s : TabState) (k : ℕ) : Prop := s.t.alen ≤ k ∨ s.t.arrValue k ≠ .nil

theorem Frame.noHole (h : Frame s s') (hno : NoHole s k) : NoHole s' k := by
  unfold NoHole
  rw [h.alen, h.arrValue]
  exact hno

/-- A store to the hash part leaves the array part. -/
theorem HashSet.noHole (h : HashSet s s' key v) (hok : TabOk s none) (hno : NoHole s k) : TabOk s' none ∧ NoHole s' k :=
  ⟨⟨h.ok, h.toFrame.arrOk hok.arr⟩, h.toFrame.noHole hno⟩

/-- No store at another position makes a hole there. -/
theorem tabSet_noHole (hok : TabOk s none) (hno : NoHole s k) (hne : i ≠ k) (hfit : i + 1 < 2^30) (v : Val) :
    Meets (tabSet (refI31 ((i : ℤ) + 1)) v) s (fun _ s' => TabOk s' none ∧ NoHole s' k) (fun _ _ => True) := by
  obtain ⟨sh, hash⟩ := hok.hash
  have hto := toInt_ofNat (n := i + 1) (by omega)
  push_cast at hto
  obtain hin | rfl | hout := Nat.lt_trichotomy i s.t.alen
  · refine (tabSet_inArr hok hin hfit v).mono ?_ fun _ _ _ => trivial
    intro _ s' h
    split at h
    · refine ⟨h.ok, ?_⟩
      by_cases hk : s'.t.alen ≤ k
      · exact Or.inl hk
      · have hle := h.alen
        right
        rw [h.value k (by omega)]
        exact hno.resolve_left (by omega)
    · refine ⟨h.ok, ?_⟩
      unfold NoHole
      rw [h.alen, h.value, if_neg (Ne.symm hne)]
      exact hno
  · by_cases hdecl : v = .nil ∨ arrMax ≤ s.t.alen
    · rw [tabSet_refI31 hfit]
      unfold tabSetIk
      apply (tabSetArr_declined hto hdecl).bind_meets
      rw [if_neg (by simp)]
      refine (tabSetHash_spec hash (normal_int _) rfl v).mono ?_ fun _ _ _ => trivial
      exact fun _ s' h => h.noHole hok hno
    · obtain ⟨hv, hmax⟩ : v ≠ .nil ∧ s.t.alen < arrMax := ⟨fun hv => hdecl (Or.inl hv), by omega⟩
      by_cases hholes : mostlyHoles s.t = some true
      · refine (tabSet_emptied hok hmax hholes hv).imp ?_
        exact fun _ s' h => ⟨h.ok, Or.inl (by rw [h.alen]; exact Nat.zero_le k)⟩
      · refine (tabSet_append hok hmax hholes hv).mono ?_ fun _ _ h => h.elim
        rintro _ s' ⟨hok', happ⟩
        refine ⟨hok', ?_⟩
        have hsmall := hok'.arr.small
        by_cases hk : s'.t.alen ≤ k
        · exact Or.inl hk
        · right
          rw [← tget_arrKey_of_lt (by omega) (by omega), happ.tget _ fun heq => hne (arrKey_inj (by omega) (by omega) heq).symm]
          by_cases hold : k < s.t.alen
          · rw [tget_arrKey_of_lt hold (by omega)]
            exact hno.resolve_left (by omega)
          · exact happ.live k (by omega) (by omega)
  · rw [tabSet_refI31 hfit]
    refine (tabSetIk_sparse hash (by omega) v).mono ?_ fun _ _ _ => trivial
    exact fun _ s' h => h.noHole hok hno

/-- Nor does the loop, below that position. -/
theorem copyDown_noHole {f : ℤ} (hfit : k < 2^30) :
    ∀ m s, TabOk s none → NoHole s k → b + m ≤ k →
      Meets (copyDown none f ((b : ℤ) + 1) m) s (fun _ s' => TabOk s' none ∧ NoHole s' k) (fun _ _ => True) := by
  intro m
  induction m with
  | zero => exact fun s hok hno _ => meets_pure ⟨hok, hno⟩
  | succ m ih =>
    intro s hok hno hle
    obtain ⟨y, hread⟩ : ∃ y, tabGetRaw s (refI31 (f + m)) = some y := ⟨_, tabGetRaw_spec hok _⟩
    have hstore := tabSet_noHole hok hno (i := b + m) (by omega) (by omega) y
    push_cast at hstore
    rw [show (b : ℤ) + m + 1 = b + 1 + m by ring] at hstore
    unfold copyDown
    apply (copySlot_store hread hstore).bind
    exact fun _ s₁ h => ih s₁ h.1 h.2 (by omega)

/-- The loop of `table.insert`, when it copies a hole to the last slot. -/
theorem insertSlow_cut (hok : TabOk s none) (hb : b + 1 < s.t.alen) (hmax : arrMax ≤ s.t.alen)
    (hfit : s.t.alen + 1 < 2^30) (hnil : s.t.arrValue (s.t.alen - 2) = .nil) (v : Val) :
    Meets (insertSlow s.t.alen (b + 1) v) s (fun _ s' => TabOk s' none ∧ NoHole s' (s.t.alen - 1))
      (fun _ _ => True) := by
  obtain ⟨k, hk⟩ : ∃ k, s.t.alen = b + (k + 1) + 1 := ⟨s.t.alen - b - 2, by omega⟩
  rw [insertSlow_succ hk]
  have hne := arrValue_last hok (n := s.t.alen - 1) (by omega)
  have hfirst := (tabSet_large hok hmax hfit hne).imp_error fun _ _ _ => trivial
  rw [show (s.t.alen : ℤ) + 1 = ((b + 1 : ℕ) : ℤ) + 1 + ((k + 1 : ℕ) : ℤ) by omega] at hfirst
  apply (copySlot_store (tabGetRaw_last hok hk hfit) hfirst).bind
  rintro _ s₁ ⟨-, h, halen⟩
  -- the hole is copied to the last slot
  have hread := tabGetRaw_arr h.ok (i := s.t.alen - 2) (by omega) (by omega)
  rw [← tget_arrKey_of_lt (by omega) (by omega), h.arrKey_other (by omega) (by omega) (by omega),
    tget_arrKey_of_lt (by omega) (by omega), hnil,
    show ((s.t.alen - 2 : ℕ) : ℤ) + 1 = ((b + 1 : ℕ) : ℤ) + k by omega] at hread
  have hcut := tabSet_inArr h.ok (i := s.t.alen - 1) (by omega) (by omega) .nil
  rw [show ((s.t.alen - 1 : ℕ) : ℤ) + 1 = ((b + 1 : ℕ) : ℤ) + 1 + k by omega] at hcut
  unfold copyDown
  simp only [bind_assoc]
  apply ((copySlot_store hread hcut).imp_error fun _ _ _ => trivial).bind
  intro _ s₂ h₂
  rw [if_pos ⟨rfl, by omega⟩] at h₂
  apply (copyDown_noHole (b := b + 1) (by omega) k s₂ h₂.ok (Or.inl h₂.alen) (by omega)).bind
  rintro _ s₃ ⟨hok₃, hno₃⟩
  exact tabSet_noHole hok₃ hno₃ (by omega) (by omega) v

/-! ## Exactly when both are the same -/

/-- A hole of the one table ends the sequence in the other, where the array part has none. -/
theorem not_alike_of_noHole (hok₁ : TabOk s₁ none) (hok₂ : TabOk s₂ none) (halike : Alike s₁ s₂) (hj : j < s₁.t.alen)
    (hfit : j + 1 < 2^63) (hnil : s₁.tget (arrKey j) = .nil) (hno : NoHole s₂ j) : False := by
  have hget := halike.get (makeInt ((j : ℤ) + 1))
  rw [tabGetRaw_spec hok₁, tabGetRaw_spec hok₂] at hget
  have hnil₂ : s₂.tget (arrKey j) = .nil := (Option.some.inj hget).trans hnil
  obtain ⟨n, hlen, hle, -⟩ := tabLen_spec hok₁
  have hlen₂ := halike.len.trans hlen
  have hout : s₂.t.alen ≤ j := by
    by_contra hin
    refine hno.resolve_left hin ?_
    rw [← tget_arrKey_of_lt (by omega) hfit]
    exact hnil₂
  rw [tget_arrKey_of_le hout hfit] at hnil₂
  have hle₂ := tabLen_le hok₂ hlen₂ hout hnil₂
  omega

/-- Then the loop does not leave the length that the fast path does. -/
theorem insert_not_agree (hok : TabOk s none) (hb : b ≤ s.t.alen) (hmax : s.t.alen < arrMax)
    (hholes : mostlyHoles s.t = some true) (hv : v ≠ .nil) :
    ¬ Agree (insertFast (b + 1) v) (insertSlow s.t.alen (b + 1) v) s := by
  have hlt : s.t.alen < 2^24 := hmax
  rintro ⟨_, s₁, s₂, hfast, hslow, halike⟩
  obtain ⟨sh, hash⟩ := hok.hash
  have h₁ := hfast.of_meets (insertFast_opened hok (Nat.le_add_left 1 b) (by omega) (by omega) v)
  obtain ⟨hok₂, hsolid⟩ := hslow.of_meets (insertSlow_solid hok hb hmax hholes hv)
  have hok₁ : TabOk s₁ none :=
    ⟨⟨sh, h₁.toHashSame.hashOk hash⟩, h₁.arrOk hok.arr (by omega) (Nat.le_add_left 1 b) hv⟩
  -- the hole is still there
  obtain ⟨j, hj, hnil⟩ : ∃ j ≤ s.t.alen, s₁.tget (arrKey j) = .nil := by
    obtain ⟨j, hj, hnil⟩ := exists_hole hok hholes
    rw [h₁.tget (by omega) (Nat.le_add_left 1 b) (by omega)]
    by_cases hjb : j < b
    · refine ⟨j, by omega, ?_⟩
      rw [insertWrites_arrKey (by omega) hb (by omega), if_neg (by omega), if_neg (by omega), hnil]
    · refine ⟨j + 1, by omega, ?_⟩
      rw [insertWrites_arrKey (by omega) hb (by omega), if_neg (by omega), if_pos (by omega), Nat.add_sub_cancel,
        hnil]
  have halen := h₁.alen
  refine not_alike_of_noHole hok₁ hok₂ halike (by omega) (by omega) hnil ?_
  by_cases hin : s₂.t.alen ≤ j
  · exact Or.inl hin
  · right
    rw [← tget_arrKey_of_lt (by omega) (by omega)]
    exact hsolid j (by omega)

/-- Without room in the hash part the loop raises. -/
theorem insertSlow_raises (hok : TabOk s none) (hb : b ≤ s.t.alen) (hmax : arrMax ≤ s.t.alen)
    (hfit : s.t.alen + 1 < 2^30) (hroom : ¬ HasRoom s (arrKey s.t.alen)) (hv : v ≠ .nil) :
    Meets (insertSlow s.t.alen (b + 1) v) s (fun _ _ => False) (fun _ _ => True) := by
  have hraise : ∀ {y : Val}, y ≠ .nil →
      Meets (tabSet (refI31 ((s.t.alen : ℤ) + 1)) y) s (fun _ _ => False) (fun _ _ => True) := fun hy =>
    (tabSet_large hok hmax hfit hy).mono (fun _ _ h => hroom h.1) fun _ _ _ => trivial
  obtain hend | hin := Nat.eq_or_lt_of_le hb
  · subst hend
    unfold insertSlow
    rw [Nat.sub_self]
    apply meets_pure_bind
    exact hraise hv
  · obtain ⟨k, hk⟩ := Nat.exists_eq_add_of_lt hin
    rw [insertSlow_succ hk]
    have hfirst := hraise (arrValue_last hok (n := s.t.alen - 1) (by omega))
    rw [show (s.t.alen : ℤ) + 1 = ((b + 1 : ℕ) : ℤ) + 1 + k by omega] at hfirst
    exact (copySlot_store (tabGetRaw_last hok hk hfit) hfirst).bind fun _ _ h => h.elim

/-- When the loop cuts the array part off, the two tables do not have one length. -/
theorem insert_not_agree_cut (hok : TabOk s none) (hb : b + 1 < s.t.alen) (hmax : arrMax ≤ s.t.alen)
    (hfit : s.t.alen + 1 < 2^30) (hnil : s.t.arrValue (s.t.alen - 2) = .nil) (hv : v ≠ .nil) :
    ¬ Agree (insertFast (b + 1) v) (insertSlow s.t.alen (b + 1) v) s := by
  rintro ⟨_, s₁, s₂, hfast, hslow, halike⟩
  obtain ⟨sh, hash⟩ := hok.hash
  have h₁ := hfast.of_meets (insertFast_opened hok (Nat.le_add_left 1 b) (by omega) (by omega) v)
  obtain ⟨hok₂, hno⟩ := hslow.of_meets (insertSlow_cut hok hb hmax hfit hnil v)
  have hok₁ : TabOk s₁ none :=
    ⟨⟨sh, h₁.toHashSame.hashOk hash⟩, h₁.arrOk hok.arr (by omega) (Nat.le_add_left 1 b) hv⟩
  have hnil₁ : s₁.tget (arrKey (s.t.alen - 1)) = .nil := by
    rw [h₁.tget (by omega) (Nat.le_add_left 1 b) (by omega), insertWrites_arrKey (by omega) (by omega) (by omega),
      if_neg (by omega), if_pos (by omega), tget_arrKey_of_lt (by omega) (by omega),
      show s.t.alen - 1 - 1 = s.t.alen - 2 by omega, hnil]
  exact not_alike_of_noHole hok₁ hok₂ halike (by have := h₁.alen; omega) (by omega) hnil₁ hno

/-- Both ways are the same exactly when the first store is taken and no hole is copied to the last slot. -/
theorem insert_agree_iff (hok : TabOk s none) (hb : b ≤ s.t.alen) (hfit : s.t.alen + 1 < 2^30) (hv : v ≠ .nil) :
    Agree (insertFast (b + 1) v) (insertSlow s.t.alen (b + 1) v) s ↔ Takes s ∧ CopiesNoHole s (b + 1) := by
  constructor
  · refine fun hagree => ⟨⟨fun hmax hholes => ?_, fun hmax => ?_⟩, fun hmax hpos hnil => ?_⟩
    · exact insert_not_agree hok hb hmax hholes hv hagree
    · by_contra hroom
      obtain ⟨_, _, s₂, -, hslow, -⟩ := hagree
      exact hslow.of_meets (insertSlow_raises hok hb hmax hfit hroom hv)
    · exact insert_not_agree_cut hok hpos hmax hfit hnil hv hagree
  · exact fun h => insert_agree hok hb hfit h.1 h.2 hv

end Lua2wasm.Table
