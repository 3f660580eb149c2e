import Lua2wasm.Table.Shift

/-!
# The function `next`

`runtime/prelude/baselib.wat`, `$builtin_next`: the array part is gone through first, then the hash
part. `tabNext s k` is its result for the key `k`, with its errors and traps.

The places of a traversal are numbered: an index `r` of the array part of the start, of length `a`, is
the place `r`, and a position `p` of the hash part is the place `a + p`. `tabNext_spec` says that
`next` gives the first live place from the cursor on, whatever was trimmed off the array part
meanwhile, under one condition (`ResumeOk`): where the key to go on from was trimmed off and the hash
part still has an entry for it, `next` goes on after that entry, so that there must be nothing before.
-/

namespace Lua2wasm.Table

open Raising

/-! ## The model -/

/-- The loops of `next`: the first of the `todo` slots from `idx` on that is not null. -/
def scanSlots (a : Option (List Slot)) : ℕ → ℕ → Option (Option ℕ)
  | 0, _ => some none
  | todo + 1, idx => do
    if (← (← a)[idx]?).isNull then scanSlots a todo (idx + 1) else some (some idx)

/-- The entry of the hash part at a position. -/
def hashEntry (s : TabState) (sh : Shape) (p : ℕ) : Option (Val × Val) := do
  let k ← sh.keys[p]?
  let v ← tval (← (← s.t.vals)[p]?) s.t.fvals p
  return (k, v)

/-- The hash phase, from the position `idx` on. -/
def scanHash (s : TabState) (idx : ℕ) : Option (Option (Val × Val)) := do
  let sh ← s.shape
  match ← scanSlots s.t.vals (sh.n - idx) idx with
  | none => some none
  | some p => (hashEntry s sh p).map some

/-- The entry of the array part at an index. -/
def arrEntry (s : TabState) (p : ℕ) : Option (Val × Val) := do
  let v ← tval (← (← s.t.arr)[p]?) s.t.farr p
  return (makeInt (p + 1), v)

/-- The scan of the array part, from the index `idx` on. -/
def scanArr (s : TabState) (idx : ℕ) : Option (Option (Val × Val)) := do
  match ← scanSlots s.t.arr (s.t.alen - idx) idx with
  | none => scanHash s 0
  | some p => (arrEntry s p).map some

/-- Where `next` goes on. -/
inductive Resume
  /-- At an index of the array part. -/
  | arr (idx : ℕ)
  /-- At a position of the hash part. -/
  | hash (idx : ℕ)
  /-- Nowhere: the key is no key of the table. -/
  | invalid

/-- Where `next` goes on after a key of the hash part. -/
def resumeHash (s : TabState) (k : Val) : Option Resume := do
  match ← tabFind (← s.shape) k with
  | none => some .invalid
  | some p => some (.hash (p + 1))

/-- Where `next` goes on after an integer key past the array part. The key may have been trimmed off
the end, in which case the array part is at its end. -/
def resumePast (s : TabState) (k : Val) (i : Int64) : Option Resume := do
  if s.t.arr.isSome ∧ i.toInt ≤ lengthOf s.t.arr then
    if (← tabFind (← s.shape) k).isNone then some (.hash 0) else resumeHash s k
  else resumeHash s k

/-- Where `next` goes on after the key `k`. -/
def resumeAt (s : TabState) (k : Val) : Option Resume :=
  if k = .nil then some (.arr 0)
  else match asArrKey k with
    | none => resumeHash s k
    | some i =>
      if 1 ≤ i.toInt then
        if i.toInt ≤ s.t.alen then some (.arr i.toInt.toNat) else resumePast s k i
      else resumeHash s k

/-- A read that traps when there is nothing. -/
def orTrap {α : Type} : Option α → Except Fault α
  | some a => .ok a
  | none => .error .stuck

/-- `next`: the next key and its value, or nothing at the end. -/
def tabNext (s : TabState) (k : Val) : Except Fault (Option (Val × Val)) := do
  match ← orTrap (resumeAt s k) with
  | .arr idx => orTrap (scanArr s idx)
  | .hash idx => orTrap (scanHash s idx)
  | .invalid => .error (.raised "invalid key to 'next'")

variable {s s' : TabState} {sh : Shape} {a c idx p r n : ℕ} {key : Key} {k v : Val}

/-! ## Places -/

/-- There is a value at the place `r`, where the first `a` places are those of the array part. -/
def PlaceLive (a : ℕ) (sh : Shape) (s : TabState) (r : ℕ) : Prop :=
  if r < a then r < s.t.alen ∧ s.t.arrValue r ≠ .nil else r - a < sh.n ∧ s.t.value (r - a) ≠ .nil

/-- The key at the place `r`. -/
def placeKey (a : ℕ) (sh : Shape) (r : ℕ) : Val := if r < a then makeInt (r + 1) else sh.key (r - a)

/-- The value at the place `r`. -/
def placeValue (a : ℕ) (s : TabState) (r : ℕ) : Val :=
  if r < a then s.t.arrValue r else s.t.value (r - a)

/-- What `next` gives from the place `c` on: the first live place, or nothing. -/
def FirstFrom (a : ℕ) (sh : Shape) (s : TabState) (c : ℕ) : Option (Val × Val) → Prop
  | none => ∀ r, c ≤ r → ¬ PlaceLive a sh s r
  | some (k, v) => ∃ r, c ≤ r ∧ PlaceLive a sh s r ∧ k = placeKey a sh r ∧ v = placeValue a s r ∧
    ∀ q, c ≤ q → q < r → ¬ PlaceLive a sh s q

theorem placeLive_arr (h : r < a) : PlaceLive a sh s r ↔ r < s.t.alen ∧ s.t.arrValue r ≠ .nil := by
  unfold PlaceLive
  rw [if_pos h]

theorem placeLive_hash : PlaceLive a sh s (a + p) ↔ p < sh.n ∧ s.t.value p ≠ .nil := by
  unfold PlaceLive
  rw [if_neg (by omega), Nat.add_sub_cancel_left]

theorem placeKey_hash : placeKey a sh (a + p) = sh.key p := by
  unfold placeKey
  rw [if_neg (by omega), Nat.add_sub_cancel_left]

theorem placeValue_hash : placeValue a s (a + p) = s.t.value p := by
  unfold placeValue
  rw [if_neg (by omega), Nat.add_sub_cancel_left]

/-- A place is one of the array part, or one of the hash part. -/
theorem place_cases (a r : ℕ) : r < a ∨ ∃ p, r = a + p := by
  by_cases h : r < a
  · exact Or.inl h
  · exact Or.inr ⟨r - a, by omega⟩

/-- Places that are not live may be passed over. -/
theorem FirstFrom.earlier {o : Option (Val × Val)} (h : FirstFrom a sh s c o) (hn : n ≤ c)
    (hdead : ∀ r, n ≤ r → r < c → ¬ PlaceLive a sh s r) : FirstFrom a sh s n o := by
  obtain - | ⟨k, v⟩ := o
  · intro r hr
    by_cases hc : c ≤ r
    · exact h r hc
    · exact hdead r hr (by omega)
  · obtain ⟨r, hr, hlive, hk, hv, hskip⟩ := h
    refine ⟨r, by omega, hlive, hk, hv, fun q hq hlt => ?_⟩
    by_cases hc : c ≤ q
    · exact hskip q hc hlt
    · exact hdead q hq (by omega)

/-! ## The scans -/

theorem value_ne_nil (h : (s.t.slot p).isNull = false) : s.t.value p ≠ .nil := by
  unfold LuaTable.value
  cases hslot : s.t.slot p with
  | mark => simp
  | val v =>
    rw [hslot] at h
    rintro rfl
    exact absurd h (by decide)

theorem value_of_isNull (h : (s.t.slot p).isNull = true) : s.t.value p = .nil := by
  unfold LuaTable.value
  unfold Slot.isNull at h
  rw [of_decide_eq_true h]

/-- What a scan of `todo` slots from `idx` on finds. -/
def Scanned (slot : ℕ → Slot) (todo idx : ℕ) : Option ℕ → Prop
  | none => ∀ j, idx ≤ j → j < idx + todo → (slot j).isNull = true
  | some p => idx ≤ p ∧ p < idx + todo ∧ (slot p).isNull = false ∧
    ∀ j, idx ≤ j → j < p → (slot j).isNull = true

/-- The scan finds the first slot that is not null. -/
theorem scanSlots_spec {l : Option (List Slot)} {slot : ℕ → Slot} (todo idx : ℕ)
    (hread : ∀ j < idx + todo, (l.bind fun a => a[j]?) = some (slot j)) :
    ∃ o, scanSlots l todo idx = some o ∧ Scanned slot todo idx o := by
  induction todo generalizing idx with
  | zero => exact ⟨none, rfl, fun j hj hlt => absurd hlt (by omega)⟩
  | succ todo ih =>
    have hidx := hread idx (by omega)
    obtain ⟨b, hb, hslot⟩ := Option.bind_eq_some_iff.mp hidx
    unfold scanSlots
    simp only [hb, hslot, Option.bind_eq_bind, Option.bind_some]
    cases hnull : (slot idx).isNull with
    | false =>
      rw [if_neg (by simp)]
      exact ⟨some idx, rfl, Nat.le_refl _, by omega, hnull, fun j hj hlt => absurd hlt (by omega)⟩
    | true =>
      rw [if_pos rfl]
      obtain ⟨o, ho, hscan⟩ := ih (idx + 1) fun j hj => hread j (by omega)
      rw [hb] at ho
      refine ⟨o, ho, ?_⟩
      -- the slot at `idx` is one more null slot before what the rest finds
      have hmore : ∀ j, idx ≤ j → (idx + 1 ≤ j → (slot j).isNull = true) → (slot j).isNull = true := by
        intro j hj h
        obtain rfl | hlt := Nat.eq_or_lt_of_le hj
        · exact hnull
        · exact h hlt
      cases o with
      | none => exact fun j hj hlt => hmore j hj fun h => hscan j h (by omega)
      | some p =>
        obtain ⟨hp, hlt, hne, hskip⟩ := hscan
        exact ⟨by omega, by omega, hne, fun j hj hjp => hmore j hj fun h => hskip j h hjp⟩

theorem scanSlots_vals (hok : HashOk s sh none) (idx : ℕ) :
    ∃ o, scanSlots s.t.vals (sh.n - idx) idx = some o ∧ Scanned s.t.slot (sh.n - idx) idx o := by
  have hvals := hok.vals
  by_cases hidx : idx ≤ sh.n
  · apply scanSlots_spec
    intro j hj
    obtain ⟨vals, hvs, -, hget⟩ := getElem?_vals (show j < lengthOf s.t.vals by omega)
    rw [hvs, Option.bind_some, hget]
  · rw [show sh.n - idx = 0 by omega]
    exact ⟨none, rfl, fun j hj hlt => absurd hlt (by omega)⟩

theorem scanSlots_arr (arr : ArrOk s.t none) (idx : ℕ) :
    ∃ o, scanSlots s.t.arr (s.t.alen - idx) idx = some o ∧
      Scanned s.t.arrSlot (s.t.alen - idx) idx o := by
  have hroom := arr.room
  by_cases hlen : idx ≤ s.t.alen
  · apply scanSlots_spec
    intro j hj
    obtain ⟨l, hl, -, hget⟩ := getElem?_arr (show j < lengthOf s.t.arr by omega)
    rw [hl, Option.bind_some, hget]
  · rw [show s.t.alen - idx = 0 by omega]
    exact ⟨none, rfl, fun j hj hlt => absurd hlt (by omega)⟩

theorem hashEntry_eq (hok : HashOk s sh none) (hp : p < sh.n) :
    hashEntry s sh p = some (sh.key p, s.t.value p) := by
  have hvals := hok.vals
  have hroom := hok.wf.room
  obtain ⟨vals, hvs, -, hget⟩ := getElem?_vals (show p < lengthOf s.t.vals by omega)
  unfold hashEntry
  simp only [Shape.getElem?_key (show p < sh.keys.length by omega), hvs, hget,
    hok.tval_eq hp (by omega), Option.bind_eq_bind, Option.bind_some]
  rfl

/-- A position that a scan of the hash part finds is a live place, and no place before it is. -/
theorem Scanned.hash (a : ℕ) (h : Scanned s.t.slot (sh.n - idx) idx (some p)) :
    p < sh.n ∧ PlaceLive a sh s (a + p) ∧ ∀ q, a + idx ≤ q → q < a + p → ¬ PlaceLive a sh s q := by
  obtain ⟨hp, hlt, hne, hskip⟩ := h
  refine ⟨by omega, placeLive_hash.mpr ⟨by omega, value_ne_nil hne⟩, fun q hq hqp hlive => ?_⟩
  obtain hlt' | ⟨q, rfl⟩ := place_cases a q
  · omega
  · rw [placeLive_hash] at hlive
    exact hlive.2 (value_of_isNull (hskip q (by omega) (by omega)))

/-- A scan of the hash part that finds nothing. -/
theorem Scanned.hash_none (a : ℕ) (h : Scanned s.t.slot (sh.n - idx) idx none) :
    ∀ r, a + idx ≤ r → ¬ PlaceLive a sh s r := by
  intro r hr hlive
  obtain hlt | ⟨p, rfl⟩ := place_cases a r
  · omega
  · rw [placeLive_hash] at hlive
    exact hlive.2 (value_of_isNull (h p (by omega) (by omega)))

/-- An index that a scan of the array part finds is a live place, and no place before it is. -/
theorem Scanned.arr (sh : Shape) (ha : s.t.alen ≤ a)
    (h : Scanned s.t.arrSlot (s.t.alen - idx) idx (some p)) :
    p < s.t.alen ∧ PlaceLive a sh s p ∧ ∀ q, idx ≤ q → q < p → ¬ PlaceLive a sh s q := by
  obtain ⟨hp, hlt, hne, hskip⟩ := h
  refine ⟨by omega, (placeLive_arr (by omega)).mpr ⟨by omega, arrValue_ne_nil hne⟩, fun q hq hqp hlive => ?_⟩
  rw [placeLive_arr (by omega)] at hlive
  exact hlive.2 (arrValue_of_isNull (hskip q hq hqp))

/-- A scan of the array part that finds nothing. -/
theorem Scanned.arr_none (sh : Shape) (h : Scanned s.t.arrSlot (s.t.alen - idx) idx none) :
    ∀ r, idx ≤ r → r < a → ¬ PlaceLive a sh s r := by
  intro r hr hlt hlive
  rw [placeLive_arr hlt] at hlive
  exact hlive.2 (arrValue_of_isNull (h r hr (by omega)))

/-- The hash phase gives the first live place from a position on. -/
theorem scanHash_spec (hok : HashOk s sh none) (a idx : ℕ) :
    ∃ o, scanHash s idx = some o ∧ FirstFrom a sh s (a + idx) o := by
  obtain ⟨o, ho, hscan⟩ := scanSlots_vals hok idx
  unfold scanHash
  simp only [hok.shape, ho, Option.bind_eq_bind, Option.bind_some]
  cases o with
  | none => exact ⟨none, rfl, hscan.hash_none a⟩
  | some p =>
    have hp := hscan.1
    obtain ⟨hn, hlive, hskip⟩ := hscan.hash a
    dsimp only
    rw [hashEntry_eq hok hn]
    exact ⟨some (sh.key p, s.t.value p), rfl, a + p, by omega, hlive, placeKey_hash.symm,
      placeValue_hash.symm, hskip⟩

/-- The scan of the array part gives the first live place from an index on. -/
theorem scanArr_spec (hok : HashOk s sh none) (arr : ArrOk s.t none) (ha : s.t.alen ≤ a) (hidx : idx ≤ a) :
    ∃ o, scanArr s idx = some o ∧ FirstFrom a sh s idx o := by
  have hroom := arr.room
  obtain ⟨o, ho, hscan⟩ := scanSlots_arr arr idx
  unfold scanArr
  simp only [ho, Option.bind_eq_bind, Option.bind_some]
  cases o with
  | none =>
    obtain ⟨o, hhash, hfirst⟩ := scanHash_spec hok a 0
    exact ⟨o, hhash, hfirst.earlier (by omega) fun r hr hlt => hscan.arr_none sh r hr hlt⟩
  | some p =>
    have hp := hscan.1
    obtain ⟨hlt, hlive, hskip⟩ := hscan.arr sh ha
    obtain ⟨l, hl, -, hget⟩ := getElem?_arr (show p < lengthOf s.t.arr by omega)
    have hentry : arrEntry s p = some (makeInt (p + 1), s.t.arrValue p) := by
      unfold arrEntry
      simp only [hl, hget, arr.tval_eq hlt, Option.bind_eq_bind, Option.bind_some]
      rfl
    dsimp only
    rw [hentry]
    have hpa : p < a := by omega
    refine ⟨some (makeInt (p + 1), s.t.arrValue p), rfl, p, hp, hlive, ?_, ?_, hskip⟩
    · unfold placeKey
      rw [if_pos hpa]
    · unfold placeValue
      rw [if_pos hpa]

/-! ## Where to go on -/

/-- The cursor of a traversal that has got to the key: the place after the one of the key. -/
inductive Cursor (a : ℕ) (sh : Shape) : Val → ℕ → Prop
  /-- At the start. -/
  | start : Cursor a sh .nil 0
  /-- After an index of the array part. -/
  | arr {idx : ℕ} (h : idx < a) : Cursor a sh (makeInt (idx + 1)) (idx + 1)
  /-- After a position of the hash part, whose key is not one of the array part. -/
  | hash {p : ℕ} (hp : p < sh.n) (hout : ∀ i, asArrKey (sh.key p) = some i → 1 ≤ i.toInt → a < i.toInt) :
      Cursor a sh (sh.key p) (a + p + 1)

/-- `next` can go on after the key: if it was in the array part `t₀` of the start and was trimmed off
since, and the hash part has an entry for it, then there is no value before that entry. -/
def ResumeOk (t₀ : LuaTable) (s : TabState) (cur : Val) : Prop :=
  ∀ i sh p, asArrKey cur = some i → inArr t₀ i = true → ¬ inArr s.t i = true → s.shape = some sh →
    tabFind sh cur = some (some p) → ∀ q < p, s.t.value q = .nil

theorem resumeHash_eq (hok : HashOk s sh none) (hc : canon k = some key) (hp : sh.pos key = some p) :
    resumeHash s k = some (.hash (p + 1)) := by
  unfold resumeHash
  simp only [hok.shape, tabFind_spec hok.wf, hc, hp, Option.bind_eq_bind, Option.bind_some]

/-- After a key of the hash part, `next` goes on after its entry. -/
theorem resumeAt_hash (hok : HashOk s sh none) (ha : s.t.alen ≤ a) (hp : p < sh.n)
    (hout : ∀ i, asArrKey (sh.key p) = some i → 1 ≤ i.toInt → a < i.toInt) :
    resumeAt s (sh.key p) = some (.hash (p + 1)) := by
  have hnormal := hok.wf.normal p hp
  obtain ⟨key, hc⟩ := Option.ne_none_iff_exists'.mp (canon_ne_none_of_normal hnormal)
  have hpos := hok.wf.pos_of_canon hp hc
  have hhash := resumeHash_eq hok hc hpos
  have hnil : sh.key p ≠ .nil := by
    intro h
    rw [h] at hc
    cases hc
  unfold resumeAt
  rw [if_neg hnil]
  cases hi : asArrKey (sh.key p) with
  | none => exact hhash
  | some i =>
    dsimp only
    split
    · rename_i h1
      have h2 := hout i hi h1
      rw [if_neg (by omega)]
      unfold resumePast
      simp only [hok.shape, tabFind_spec hok.wf, hc, hpos, Option.bind_eq_bind, Option.bind_some]
      rw [hhash]
      simp
    · exact hhash

/-- After a key that was trimmed off the array part, `next` goes on at the start of the hash part, or
after the entry that the hash part has for the key. -/
theorem resumeAt_trimmed (hok : HashOk s sh none) (hidx : idx < lengthOf s.t.arr) (hlen : idx + 1 < 2^63)
    (htrim : s.t.alen ≤ idx) :
    resumeAt s (makeInt (idx + 1)) = some (.hash (((sh.pos (arrKey idx)).map Nat.succ).getD 0)) := by
  have hto : (Int64.ofInt ((idx : ℤ) + 1)).toInt = (idx : ℤ) + 1 := by
    have h := toInt_ofNat hlen
    exact h
  have hsome : s.t.arr.isSome = true := by
    cases h : s.t.arr with
    | none =>
      rw [h] at hidx
      exact absurd hidx (Nat.not_lt_zero idx)
    | some l => rfl
  have hfind : tabFind sh (makeInt (idx + 1)) = some (sh.pos (arrKey idx)) := tabFind_spec hok.wf _
  unfold resumeAt
  rw [if_neg (show makeInt (idx + 1) ≠ .nil by simp [makeInt])]
  change (if 1 ≤ (Int64.ofInt ((idx : ℤ) + 1)).toInt then _ else _) = _
  rw [hto, if_pos (by omega), if_neg (by omega)]
  unfold resumePast
  rw [hto, if_pos ⟨hsome, by omega⟩]
  simp only [hok.shape, hfind, Option.bind_eq_bind, Option.bind_some]
  cases hp : sh.pos (arrKey idx) with
  | none => rfl
  | some p =>
    rw [if_neg (by simp), resumeHash_eq hok rfl hp]
    rfl

theorem tabNext_arr (h : resumeAt s k = some (.arr idx)) {o : Option (Val × Val)}
    (ho : scanArr s idx = some o) : tabNext s k = .ok o := by
  unfold tabNext
  rw [h]
  change orTrap (scanArr s idx) = _
  rw [ho]
  rfl

theorem tabNext_hash (h : resumeAt s k = some (.hash idx)) {o : Option (Val × Val)}
    (ho : scanHash s idx = some o) : tabNext s k = .ok o := by
  unfold tabNext
  rw [h]
  change orTrap (scanHash s idx) = _
  rw [ho]
  rfl

/-- `next` gives the first live place from the cursor on. -/
theorem tabNext_spec {t₀ : LuaTable} (hok : HashOk s sh none) (arr : ArrOk s.t none)
    (ha : s.t.alen ≤ t₀.alen) (hroom : t₀.alen ≤ lengthOf s.t.arr) (hcur : Cursor t₀.alen sh k c)
    (hdead : ∀ idx < t₀.alen, ∀ p, sh.pos (arrKey idx) = some p → s.t.value p = .nil)
    (hresume : ResumeOk t₀ s k) :
    ∃ o, tabNext s k = .ok o ∧ FirstFrom t₀.alen sh s c o := by
  have hlen := arr.len
  cases hcur with
  | start =>
    obtain ⟨o, ho, hfirst⟩ := scanArr_spec hok arr ha (Nat.zero_le _)
    exact ⟨o, tabNext_arr rfl ho, hfirst⟩
  | hash hp hout =>
    obtain ⟨o, ho, hfirst⟩ := scanHash_spec hok t₀.alen _
    exact ⟨o, tabNext_hash (resumeAt_hash hok ha hp hout) ho, hfirst⟩
  | arr hidx =>
    rename_i idx
    have hto : (Int64.ofInt ((idx : ℤ) + 1)).toInt = (idx : ℤ) + 1 := by
      have h := toInt_ofNat (show idx + 1 < 2^63 by omega)
      exact h
    by_cases htrim : s.t.alen ≤ idx
    · -- the key was trimmed off: no later place of the array part is live
      have hres := resumeAt_trimmed hok (show idx < lengthOf s.t.arr by omega) (by omega) htrim
      obtain ⟨o, ho, hfirst⟩ := scanHash_spec hok t₀.alen (((sh.pos (arrKey idx)).map Nat.succ).getD 0)
      refine ⟨o, tabNext_hash hres ho, hfirst.earlier (by omega) fun r hr hlt hlive => ?_⟩
      obtain h | ⟨q, rfl⟩ := place_cases t₀.alen r
      · rw [placeLive_arr h] at hlive
        omega
      · rw [placeLive_hash] at hlive
        cases hp : sh.pos (arrKey idx) with
        | none =>
          rw [hp] at hlt
          exact absurd hlt (by simp)
        | some p =>
          rw [hp] at hlt
          change t₀.alen + q < t₀.alen + (p + 1) at hlt
          have hin : inArr t₀ (Int64.ofInt ((idx : ℤ) + 1)) = true := (inArr_ofInt (by omega)).mpr hidx
          have hout : ¬ inArr s.t (Int64.ofInt ((idx : ℤ) + 1)) = true := by
            rw [inArr_ofInt (by omega)]
            omega
          have hfind : tabFind sh (makeInt (idx + 1)) = some (some p) := by
            rw [tabFind_spec hok.wf]
            exact congrArg some hp
          obtain rfl | hqp := Nat.eq_or_lt_of_le (show q ≤ p by omega)
          · exact hlive.2 (hdead idx hidx q hp)
          · exact hlive.2 (hresume _ sh p rfl hin hout hok.shape hfind q hqp)
    · have hres : resumeAt s (makeInt (idx + 1)) = some (.arr (idx + 1)) := by
        unfold resumeAt
        rw [if_neg (show makeInt (idx + 1) ≠ .nil by simp [makeInt])]
        change (if 1 ≤ (Int64.ofInt ((idx : ℤ) + 1)).toInt then _ else _) = _
        rw [hto, if_pos (by omega), if_pos (by omega)]
        rfl
      obtain ⟨o, ho, hfirst⟩ := scanArr_spec hok arr ha (show idx + 1 ≤ t₀.alen by omega)
      exact ⟨o, tabNext_arr hres ho, hfirst⟩

end Lua2wasm.Table
