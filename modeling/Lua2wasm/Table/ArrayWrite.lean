import Lua2wasm.Table.ArrayOk

/-!
# Appending to the array part

An append at the end of the array part goes one of three ways (`$arr_append`). It is declined, and
the store goes to the hash part; or the array part is mostly holes and is moved to the hash part
first (`tabDemote_spec`); or the value becomes the last slot, and the keys of the hash part that
continue the array part move over (`absorbAll_spec`). The move of a key from one part to the other
does not change the table as a map.

All three keep both parts in order, whatever the table. That no key has a value in both parts is
kept only by an append to a key that the hash part does not have, and by a move to the hash part
that comes to its end: `AppendClean`.
-/

namespace Lua2wasm.Table

open Raising

variable {s s' s'' : TabState} {sh : Shape} {skip : Option ℕ} {i j n : ℕ} {key : Key} {k v : Val}
  {w : Slot}

/-- The key of an index of the array part. -/
def arrKey (i : ℕ) : Key := .int (Int64.ofInt ((i : ℤ) + 1))

/-! ## One more slot -/

theorem inArr_ofInt {t : LuaTable} (h : i + 1 < 2^63) :
    inArr t (Int64.ofInt ((i : ℤ) + 1)) = true ↔ i < t.alen := by
  have hi := toInt_ofNat h
  push_cast at hi
  rw [inArr_iff, hi]
  omega

theorem arrIndex_ofInt (h : i + 1 < 2^63) : arrIndex (Int64.ofInt ((i : ℤ) + 1)) = i := by
  have hi := toInt_ofNat h
  push_cast at hi
  unfold arrIndex
  omega

theorem ofInt_toInt_succ {i : Int64} (hn : n + 1 < 2^63) (h : i.toInt = (n : ℤ) + 1) :
    i = Int64.ofInt ((n : ℤ) + 1) := by
  have hn' := toInt_ofNat hn
  push_cast at hn'
  apply Int64.toInt_inj.mp
  rw [h, hn']

theorem tget_arrKey_of_lt (h : i < s.t.alen) (hi : i + 1 < 2^63) :
    s.tget (arrKey i) = s.t.arrValue i := by
  unfold arrKey
  rw [tget_of_inArr ((inArr_ofInt hi).mpr h), arrIndex_ofInt hi]

theorem tget_arrKey_of_le (h : s.t.alen ≤ i) (hi : i + 1 < 2^63) :
    s.tget (arrKey i) = s.hget (arrKey i) := by
  unfold arrKey
  apply tget_of_not_inArr
  rw [inArr_ofInt hi]
  omega

/-- What is read of a table whose array part is longer by one slot. -/
theorem tget_of_longer (hn : s.t.alen + 1 < 2^63) (halen : s'.t.alen = s.t.alen + 1)
    (hvalue : ∀ i < s.t.alen, s'.t.arrValue i = s.t.arrValue i)
    (hget : ∀ key, key ≠ arrKey s.t.alen → s'.hget key = s.hget key) (key : Key) :
    s'.tget key = if key = arrKey s.t.alen then s'.t.arrValue s.t.alen else s.tget key := by
  split
  · rename_i hkey
    subst hkey
    have hin : inArr s'.t (Int64.ofInt ((s.t.alen : ℤ) + 1)) = true := by
      rw [inArr_ofInt hn]
      omega
    unfold arrKey
    rw [tget_of_inArr hin, arrIndex_ofInt hn]
  · rename_i hkey
    cases key with
    | int i =>
      by_cases hin : inArr s.t i = true
      · have hin' : inArr s'.t i = true := by
          rw [inArr_iff] at hin ⊢
          omega
        rw [tget_of_inArr hin, tget_of_inArr hin', hvalue _ (arrIndex_lt hin)]
      · have hin' : ¬ inArr s'.t i = true := by
          intro h
          rw [inArr_iff] at hin h
          apply hkey
          unfold arrKey
          rw [← ofInt_toInt_succ hn (show i.toInt = (s.t.alen : ℤ) + 1 by omega)]
        rw [tget_of_not_inArr hin, tget_of_not_inArr hin', hget _ hkey]
    | _ => exact hget _ hkey

/-- The new slot does not bring a key into both parts, if the hash part has no value for it. -/
theorem apart_of_longer (hn : s.t.alen + 1 < 2^63) (halen : s'.t.alen = s.t.alen + 1)
    (hget : ∀ key, key ≠ arrKey s.t.alen → s'.hget key = s.hget key)
    (hnew : s'.hget (arrKey s.t.alen) = .nil) (hapart : Apart s) : Apart s' := by
  intro i hin
  by_cases hkey : Key.int i = arrKey s.t.alen
  · rw [hkey]
    exact hnew
  · rw [hget _ hkey]
    apply hapart
    rw [inArr_iff] at hin ⊢
    have hne : i.toInt ≠ (s.t.alen : ℤ) + 1 := by
      intro h
      apply hkey
      unfold arrKey
      rw [← ofInt_toInt_succ hn h]
    omega

/-! ## Absorbing -/

theorem normal_int (i : Int64) : Normal (.int i) := trivial

/-- A store to a key that the hash part has does not touch the shape. -/
theorem tabSetHash_found (hok : HashOk s sh none) (hc : canon k = some key) (hp : sh.pos key = some i)
    (v : Val) :
    Ensures (tabSetHash k v) s (fun _ s' => HashSet s s' key v ∧ s'.shape = some sh ∧
      ∀ j, j ≠ i → s'.t.value j = s.t.value j) := by
  unfold tabSetHash
  apply meets_getShape hok.shape
  have hfind := tabFind_spec hok.wf k
  rw [hc, Option.bind_some, hp] at hfind
  apply meets_orStuck hfind
  unfold setFound
  refine (setVal_written hok (hok.pos_lt_vals hp) (.val v)).imp ?_
  intro _ s' h
  have hok' := h.ok.of_skip (by rw [h.slot]; simp)
  refine ⟨⟨h.toFrame, ⟨sh, hok'⟩, count_of_shape hok.shape hok'.shape (Nat.le_succ _), ?_,
    fun key' hne => h.other hok hp hne⟩, hok'.shape, h.value⟩
  rw [hget_of_pos hok'.shape hp]
  exact value_of_val h.slot

/-- The positions of the hash part that have a value. -/
def TabState.live (s : TabState) (sh : Shape) : Finset ℕ :=
  (Finset.range sh.n).filter fun i => s.t.value i ≠ .nil

theorem card_live_le : (s.live sh).card ≤ sh.n := by
  unfold TabState.live
  have h := Finset.card_filter_le (Finset.range sh.n) fun i => s.t.value i ≠ .nil
  rw [Finset.card_range] at h
  exact h

/-- A key that loses its value leaves one position less that has one. -/
theorem card_live_lt (hi : i < sh.n) (hlive : s.t.value i ≠ .nil) (hdead : s'.t.value i = .nil)
    (hother : ∀ j, j ≠ i → s'.t.value j = s.t.value j) : (s'.live sh).card < (s.live sh).card := by
  unfold TabState.live
  apply Finset.card_lt_card
  rw [Finset.ssubset_iff_of_subset]
  · refine ⟨i, ?_, ?_⟩
    · simp [hi, hlive]
    · simp [hdead]
  · intro j hj
    rw [Finset.mem_filter] at hj ⊢
    refine ⟨hj.1, ?_⟩
    have hji : j ≠ i := by
      rintro rfl
      exact hj.2 hdead
    rw [← hother j hji]
    exact hj.2

/-- What absorbing keeps: the table is the same as a map. -/
structure Absorbed (s s' : TabState) (sh : Shape) (skip : Option ℕ) : Prop where
  /-- The hash part is in order, and has the shape that it had. -/
  hash : HashOk s' sh none
  /-- The array part is in order. -/
  arr : ArrOk s'.t skip
  /-- No shared shape changed. -/
  grows : Grows s.shapes s'.shapes
  /-- The array part did not shrink. -/
  alen : s.t.alen ≤ s'.t.alen
  /-- The slots that it had. -/
  slot : ∀ i < s.t.alen, s'.t.arrSlot i = s.t.arrSlot i
  /-- The map is the same. -/
  tget : ∀ key, s'.tget key = s.tget key
  /-- No key comes to have a value in both parts. -/
  apart : Apart s → Apart s'
  /-- The keys that it moved had values. -/
  live : ∀ j, s.t.alen ≤ j → j < s'.t.alen → s.tget (arrKey j) ≠ .nil

theorem Absorbed.refl (hash : HashOk s sh none) (arr : ArrOk s.t skip) : Absorbed s s sh skip :=
  ⟨hash, arr, Grows.refl, Nat.le_refl _, fun _ _ => rfl, fun _ => rfl, fun h => h,
    fun _ hj hlt => absurd hlt (Nat.not_lt.mpr hj)⟩

theorem Absorbed.trans (h : Absorbed s s' sh skip) (h' : Absorbed s' s'' sh skip) :
    Absorbed s s'' sh skip where
  hash := h'.hash
  arr := h'.arr
  grows := h.grows.trans h'.grows
  alen := Nat.le_trans h.alen h'.alen
  slot i hi := (h'.slot i (Nat.lt_of_lt_of_le hi h.alen)).trans (h.slot i hi)
  tget key := (h'.tget key).trans (h.tget key)
  apart hapart := h'.apart (h.apart hapart)
  live j hj hlt := by
    by_cases hj' : s'.t.alen ≤ j
    · rw [← h.tget]
      exact h'.live j hj' hlt
    · exact h.live j hj (Nat.lt_of_not_le hj')

/-- One key moves to the array part. -/
theorem absorbOne_spec {hv : Val} (hash : HashOk s sh none) (arr : ArrOk s.t skip)
    (hn : s.t.alen + 1 < 2^31)
    (hget : s.hget (arrKey s.t.alen) = hv) (hnil : hv ≠ .nil) :
    Ensures (absorbOne hv) s
      (fun _ s' => Absorbed s s' sh skip ∧ s'.t.alen = s.t.alen + 1 ∧
        (s'.live sh).card < (s.live sh).card) := by
  -- the key is one of the hash part, as it has a value there
  obtain ⟨p, hp⟩ : ∃ p, sh.pos (arrKey s.t.alen) = some p := by
    cases hp : sh.pos (arrKey s.t.alen) with
    | none =>
      rw [hget_of_absent hash.shape hp] at hget
      exact absurd hget.symm hnil
    | some p => exact ⟨p, rfl⟩
  unfold absorbOne
  apply meets_get_bind
  apply (arrEnsure_spec arr hn).bind
  rintro _ s₁ ⟨hg, hroom⟩
  apply (setArr_spec hg.farr (show s.t.alen < lengthOf s₁.t.arr by omega) (.val hv)).bind
  intro _ s₂ hwr
  have hsame : HashSame s s₂ := hg.toHashSame.trans hwr.toHashSame
  have hash₂ := hsame.hashOk hash
  have hc : canon (makeInt ((s.t.alen : ℤ) + 1)) = some (arrKey s.t.alen) := rfl
  apply ((tabSetHash_found hash₂ hc hp .nil).imp_error fun _ _ h => h).bind
  rintro _ s₃ ⟨hset, hshape₃, hothers⟩
  refine (setAlen_spec (s.t.alen + 1)).imp ?_
  rintro _ s' hs'
  obtain ⟨sh₃, hash₃⟩ := hset.ok
  obtain rfl : sh₃ = sh := by
    have h := hash₃.shape
    rw [hshape₃] at h
    exact (Option.some.inj h).symm
  have hsame₃ : HashSame s₃ s' := by
    subst hs'
    exact ⟨rfl, rfl, rfl, rfl⟩
  have halen : s'.t.alen = s.t.alen + 1 := by
    subst hs'
    rfl
  have harr : s'.t.arr = s₂.t.arr := by
    subst hs'
    exact hset.arr
  have hfarr : s'.t.farr = s₂.t.farr := by
    subst hs'
    exact hset.farr
  have hslot₂ : ∀ i, s'.t.arrSlot i = s₂.t.arrSlot i := by
    intro i
    unfold LuaTable.arrSlot
    rw [harr]
  have hslot : ∀ i, i ≠ s.t.alen → s'.t.arrSlot i = s.t.arrSlot i := by
    intro i hi
    rw [hslot₂, hwr.slot, if_neg hi, hg.slot]
  have hlast : s'.t.arrSlot s.t.alen = .val hv := by
    rw [hslot₂, hwr.slot, if_pos rfl]
  have hvalue : ∀ i < s.t.alen, s'.t.arrValue i = s.t.arrValue i := by
    intro i hi
    have hi' : i ≠ s.t.alen := Nat.ne_of_lt hi
    exact (arrValue_eq_of_slot (hslot₂ i) (by rw [hfarr])).trans ((hwr.value hi').trans (hg.value i))
  have hhget : ∀ key, key ≠ arrKey s.t.alen → s'.hget key = s.hget key := by
    intro key hne
    rw [hsame₃.hget, hset.other key hne, hsame.hget]
  have hbefore : s.tget (arrKey s.t.alen) = hv :=
    (tget_arrKey_of_le (Nat.le_refl _) (by omega)).trans hget
  refine ⟨⟨hsame₃.hashOk hash₃, ⟨?_, ?_, ?_, ?_, ?_⟩, ?_, ?_, ?_, ?_, ?_, fun j hj hlt => ?_⟩, halen, ?_⟩
  · rw [halen, harr, hwr.len]
    exact hroom
  · intro n h
    rw [halen] at h
    obtain rfl : s.t.alen = n := Nat.succ.inj h
    rw [hlast]
    exact decide_eq_false (by simpa using hnil)
  · rw [hfarr, harr]
    exact hwr.covered
  · intro i hi hne hmark
    rw [halen] at hi
    have hia : i ≠ s.t.alen := by
      rintro rfl
      rw [hlast] at hmark
      cases hmark
    rw [hslot i hia] at hmark
    rw [hfarr, hwr.farr]
    exact hg.some (arr.marked i (by omega) hne hmark)
  · rw [harr, hwr.len]
    exact hg.fits arr.len
  · exact (hsame.grows.trans hset.grows).trans hsame₃.grows
  · omega
  · exact fun i hi => hslot i (Nat.ne_of_lt hi)
  · -- the key has the value in the array part that it had in the hash part
    intro key
    rw [tget_of_longer (by omega) halen hvalue hhget]
    split
    · rename_i hkey
      subst hkey
      rw [hbefore]
      unfold LuaTable.arrValue
      rw [hlast]
    · rfl
  · apply apart_of_longer (by omega) halen hhget
    rw [hsame₃.hget]
    exact hset.get
  · obtain rfl : j = s.t.alen := by omega
    rw [hbefore]
    exact hnil
  · have hp₂ := Shape.pos_lt hp
    have hval₂ : ∀ i, s₂.t.value i = s.t.value i := hsame.value
    apply card_live_lt hp₂
    · rw [← hget_of_pos hash.shape hp, hget]
      exact hnil
    · rw [hsame₃.value, ← hget_of_pos hash₃.shape hp]
      exact hset.get
    · intro j hj
      rw [hsame₃.value, hothers j hj, hval₂]

/-- The key that continues the array part. -/
theorem nextInHash_spec (hash : HashOk s sh none) :
    nextInHash s = some (if s.t.alen < arrMax then s.hget (arrKey s.t.alen) else .nil) := by
  unfold nextInHash
  split
  · rw [tabGetHash_spec hash]
    rfl
  · rfl

/-- Absorbing comes to an end, as every key that moves leaves the hash part. -/
theorem absorb_spec : ∀ (fuel : ℕ) (s : TabState), HashOk s sh none → ArrOk s.t skip →
    (s.live sh).card < fuel →
    Ensures (absorb fuel) s (fun _ s' => Absorbed s s' sh skip) := by
  intro fuel
  induction fuel with
  | zero => exact fun s _ _ h => absurd h (Nat.not_lt_zero _)
  | succ fuel ih =>
    intro s hash arr hfuel
    unfold absorb
    apply meets_get_bind
    apply meets_orStuck (nextInHash_spec hash)
    by_cases hmax : s.t.alen < arrMax
    · rw [if_pos hmax]
      split
      · exact meets_pure (Absorbed.refl hash arr)
      · rename_i hnil
        have hn : s.t.alen + 1 < 2^31 := by
          unfold arrMax at hmax
          omega
        apply (absorbOne_spec hash arr hn rfl hnil).bind
        rintro _ s₁ ⟨habs, -, hcard⟩
        exact (ih s₁ habs.hash habs.arr (by omega)).imp (fun _ s' h => habs.trans h)
    · rw [if_neg hmax, if_pos rfl]
      exact meets_pure (Absorbed.refl hash arr)

theorem absorbAll_spec (hash : HashOk s sh none) (arr : ArrOk s.t skip) :
    Ensures absorbAll s (fun _ s' => Absorbed s s' sh skip) := by
  unfold absorbAll
  apply meets_getShape hash.shape
  split
  · exact meets_pure (Absorbed.refl hash arr)
  · apply absorb_spec _ s hash arr
    have h : (s.live sh).card ≤ sh.n := card_live_le
    omega

/-! ## Demotion -/

/-- The map while the array part is being moved: its slots before `i` are in the hash part. -/
def demotedGet (s : TabState) (i : ℕ) : Key → Val
  | .int k =>
    if 1 ≤ k.toInt ∧ k.toInt ≤ i ∧ (s.t.arrSlot (arrIndex k)).isNull = false then
      s.t.arrValue (arrIndex k)
    else s.hget (.int k)
  | key => s.hget key

/-- The state of the loop of `$tab_demote` at the slot `i`. -/
structure Demoted (s₀ s : TabState) (i : ℕ) : Prop where
  /-- The hash part is in order. -/
  hash : ∃ sh, HashOk s sh none
  /-- No shared shape changed. -/
  grows : Grows s₀.shapes s.shapes
  /-- There is no array part. -/
  arr : s.t.arr = none
  /-- It has no length. -/
  alen : s.t.alen = 0
  /-- There are no doubles of it. -/
  farr : s.t.farr = none
  /-- The map. -/
  get : ∀ key, s.hget key = demotedGet s₀ i key

/-- A table without an array part is in order if its hash part is. -/
theorem Demoted.tabOk {s₀ : TabState} (h : Demoted s₀ s i) : TabOk s none where
  hash := h.hash
  arr := by
    have halen := h.alen
    have hfarr := h.farr
    refine ⟨by omega, by omega, ?_, by omega, ?_⟩
    · intro fa hfa
      rw [hfarr] at hfa
      cases hfa
    · rw [h.arr]
      exact Nat.two_pow_pos 31

theorem arrKey_inj (hi : i + 1 < 2^63) (hj : j + 1 < 2^63) (h : arrKey i = arrKey j) : i = j := by
  unfold arrKey at h
  have h' := Key.int.inj h
  rw [← arrIndex_ofInt hi, ← arrIndex_ofInt hj, h']

/-- The map after one more slot. -/
theorem demotedGet_succ (hi : i + 1 < 2^63) (key : Key) :
    demotedGet s (i + 1) key =
      if key = arrKey i ∧ (s.t.arrSlot i).isNull = false then s.t.arrValue i else demotedGet s i key := by
  cases key with
  | int k =>
    by_cases hk : Key.int k = arrKey i
    · obtain rfl : k = Int64.ofInt ((i : ℤ) + 1) := Key.int.inj hk
      have hto := toInt_ofNat hi
      push_cast at hto
      unfold demotedGet
      dsimp only
      rw [hto, arrIndex_ofInt hi]
      have h1 : ¬ ((i : ℤ) + 1 ≤ i) := by omega
      have h2 : (1 : ℤ) ≤ (i : ℤ) + 1 := by omega
      have h3 : (i : ℤ) + 1 ≤ (i + 1 : ℕ) := by omega
      simp only [hk, h1, h2, h3, true_and, false_and, and_false, if_false]
    · have hne : k.toInt ≠ (i : ℤ) + 1 := by
        intro h
        apply hk
        unfold arrKey
        rw [← ofInt_toInt_succ hi h]
      have hiff : k.toInt ≤ (i + 1 : ℕ) ↔ k.toInt ≤ i := by omega
      rw [if_neg fun h => hk h.1]
      unfold demotedGet
      simp only [hiff]
  | _ =>
    rw [if_neg]
    · rfl
    · rintro ⟨h, -⟩
      cases h

/-- One slot moves to the hash part, or the hash part is full. -/
theorem demoteSlot_spec {s₀ : TabState} {a : List Slot} (ha : s₀.t.arr = some a) (arr : ArrOk s₀.t none)
    (hi : i < s₀.t.alen) (h : Demoted s₀ s i) :
    Meets (demoteSlot a s₀.t.farr i) s (fun _ s' => Demoted s₀ s' (i + 1))
      (fun e s' => e = tableOverflow ∧ Demoted s₀ s' i) := by
  have hroom := arr.room
  have hsmall := arr.small
  obtain ⟨a', ha', hlt, hread⟩ := getElem?_arr (Nat.lt_of_lt_of_le hi hroom)
  rw [ha] at ha'
  cases ha'
  unfold demoteSlot
  apply meets_orStuck hread
  split
  · rename_i hnull
    refine meets_pure ⟨h.hash, h.grows, h.arr, h.alen, h.farr, fun key => ?_⟩
    rw [h.get, demotedGet_succ (by omega), if_neg]
    rintro ⟨-, hlive⟩
    rw [hnull] at hlive
    cases hlive
  · rename_i hlive
    apply meets_orStuck (arr.tval_eq hi)
    obtain ⟨sh, hash⟩ := h.hash
    have hc : canon (makeInt ((i : ℤ) + 1)) = some (arrKey i) := rfl
    refine (tabSetHash_spec hash (normal_int _) hc (s₀.t.arrValue i)).mono ?_ ?_
    · intro _ s' hset
      refine ⟨hset.ok, h.grows.trans hset.grows, hset.arr.trans h.arr, hset.alen.trans h.alen,
        hset.farr.trans h.farr, fun key => ?_⟩
      rw [demotedGet_succ (by omega)]
      by_cases hkey : key = arrKey i
      · subst hkey
        rw [if_pos ⟨rfl, by simpa using hlive⟩]
        exact hset.get
      · rw [if_neg fun h => hkey h.1, hset.other key hkey]
        exact h.get key
    · intro e s' hover
      refine ⟨hover.error, hover.ok, h.grows.trans hover.grows, hover.arr.trans h.arr,
        hover.alen.trans h.alen, hover.farr.trans h.farr, fun key => ?_⟩
      rw [hover.get]
      exact h.get key

theorem demoteFrom_spec {s₀ : TabState} {a : List Slot} (ha : s₀.t.arr = some a) (arr : ArrOk s₀.t none) :
    ∀ (todo i : ℕ) (s : TabState), i + todo = s₀.t.alen → Demoted s₀ s i →
    Meets (demoteFrom a s₀.t.farr todo i) s (fun _ s' => Demoted s₀ s' s₀.t.alen)
      (fun e s' => e = tableOverflow ∧ ∃ j, Demoted s₀ s' j) := by
  intro todo
  induction todo with
  | zero =>
    intro i s hi h
    obtain rfl : i = s₀.t.alen := hi
    exact meets_pure h
  | succ todo ih =>
    intro i s hi h
    unfold demoteFrom
    apply ((demoteSlot_spec ha arr (by omega) h).imp_error
      fun e s' h => ⟨h.1, i, h.2⟩).bind
    intro _ s₁ h₁
    exact ih (i + 1) s₁ (by omega) h₁

/-- `$tab_demote` empties the array part. If it comes to its end, the table is the same as a map. -/
theorem tabDemote_spec (hok : TabOk s none) :
    Meets tabDemote s
      (fun _ s' => TabOk s' none ∧ Grows s.shapes s'.shapes ∧ s'.t.alen = 0 ∧
        (Apart s → ∀ key, s'.tget key = s.tget key))
      (fun e s' => e = tableOverflow ∧ TabOk s' none ∧ Grows s.shapes s'.shapes ∧ s'.t.alen = 0) := by
  have hroom := hok.arr.room
  unfold tabDemote
  apply meets_get_bind
  dsimp only
  split
  · rename_i hzero
    exact meets_pure ⟨hok, Grows.refl, hzero, fun _ _ => rfl⟩
  rename_i hzero
  obtain ⟨a, ha, -⟩ := getElem?_arr (s := s) (i := 0) (by omega)
  apply meets_orStuck ha
  apply meets_modify_bind
  -- the array part is dropped first, and its values follow one by one
  have hstart : Demoted s { s with t := { s.t with alen := 0, arr := none, farr := none } } 0 := by
    have hsame : HashSame s { s with t := { s.t with alen := 0, arr := none, farr := none } } :=
      ⟨rfl, rfl, rfl, rfl⟩
    obtain ⟨sh, hash⟩ := hok.hash
    refine ⟨⟨sh, hsame.hashOk hash⟩, Grows.refl, rfl, rfl, rfl, fun key => ?_⟩
    rw [hsame.hget]
    cases key with
    | int k =>
      unfold demotedGet
      dsimp only
      rw [if_neg]
      omega
    | _ => rfl
  refine (demoteFrom_spec ha hok.arr s.t.alen 0 _ (Nat.zero_add _) hstart).mono ?_ ?_
  · intro _ s' h
    refine ⟨h.tabOk, h.grows, h.alen, fun hapart key => ?_⟩
    cases key with
    | int k =>
      -- the positions are keys of the hash part now
      have hout : ¬ inArr s'.t k = true := by
        have halen := h.alen
        rw [inArr_iff]
        omega
      rw [tget_of_not_inArr hout, h.get]
      unfold demotedGet
      dsimp only
      by_cases hin : inArr s.t k = true
      · have hk := inArr_iff.mp hin
        rw [tget_of_inArr hin]
        split
        · rfl
        · -- a hole has no value in either part
          rename_i hnull
          rw [hapart k hin]
          have hslot : (s.t.arrSlot (arrIndex k)).isNull = true := by
            by_contra h
            exact hnull ⟨hk.1, hk.2, by simpa using h⟩
          unfold LuaTable.arrValue
          rw [of_decide_eq_true hslot]
      · rw [tget_of_not_inArr hin, if_neg]
        rw [inArr_iff] at hin
        exact fun h => hin ⟨h.1, h.2.1⟩
    | _ => exact h.get _
  · rintro e s' ⟨he, j, h⟩
    exact ⟨he, h.tabOk, h.grows, h.alen⟩

end Lua2wasm.Table
