import Lua2wasm.Table.Compact

/-!
# Stores to the hash part

Every store to the hash part keeps its invariant and changes the map at the key of the store alone
(`HashSet`), or it raises "table overflow" and leaves the map as it was. A store to a key that is
there writes its value slot. A store to a new key makes room first, in one of two ways: a table with
a shared shape moves to the child shape (`tabInsertShared_spec`), a table with a private shape gets
its index rebuilt and its arrays grown as needed (`tabInsertOwned_spec`).
-/

namespace Lua2wasm.Table

open Probe Raising

variable {s s' s'' : TabState} {sh sh' : Shape} {skip : Option ℕ} {i j n : ℕ} {key : Key} {k v : Val}

/-- The key `key` was entered at the last position, with the slot `w`. If `w` is a marker its double
is not there yet. -/
structure Inserted (s s' : TabState) (key : Key) (w : Slot) : Prop extends Frame s s' where
  /-- The new entry is the last. -/
  last : ∃ sh' n, HashOk s' sh' (some n) ∧ sh'.n = n + 1 ∧ sh'.pos key = some n ∧ s'.t.slot n = w
  /-- There is at most one key more. -/
  count : ∀ sh sh', s.shape = some sh → s'.shape = some sh' → sh'.n ≤ sh.n + 1
  /-- The other keys have the values that they had. -/
  other : ∀ key', key' ≠ key → s'.hget key' = s.hget key'

/-- The map is changed at one key. -/
structure HashSet (s s' : TabState) (key : Key) (v : Val) : Prop extends Frame s s' where
  /-- The hash part is in order. -/
  ok : ∃ sh', HashOk s' sh' none
  /-- There is at most one key more. -/
  count : ∀ sh sh', s.shape = some sh → s'.shape = some sh' → sh'.n ≤ sh.n + 1
  /-- The key has the value. -/
  get : s'.hget key = v
  /-- The other keys have the values that they had. -/
  other : ∀ key', key' ≠ key → s'.hget key' = s.hget key'

/-- The store raised, and did nothing to the map. -/
structure Overflow (e : Fault) (s s' : TabState) : Prop extends Unchanged s s' where
  /-- The error. -/
  error : e = tableOverflow
  /-- The table has more than `2^23` keys. -/
  large : ∀ sh, s.shape = some sh → 8388608 < sh.n
  /-- The hash part is in order. -/
  ok : ∃ sh', HashOk s' sh' none

/-! ## A new key -/

/-- The shape with one more key. -/
def Shape.snoc (sh : Shape) (k : Val) (idx : List ℤ) : Shape where
  keys := sh.keys.set sh.n k
  idx := idx
  mask := sh.mask
  n := sh.n + 1
  used := sh.used + 1

theorem snoc_key_last (h : sh.n < sh.keys.length) (idx : List ℤ) : (sh.snoc k idx).key sh.n = k := by
  unfold Shape.snoc Shape.key
  rw [getD_set h, if_pos rfl]

theorem snoc_key (h : sh.n < sh.keys.length) (idx : List ℤ) (hi : i < sh.n) :
    (sh.snoc k idx).key i = sh.key i := by
  unfold Shape.snoc Shape.key
  rw [getD_set h, if_neg (by omega)]

/-- A key that was absent can be added. -/
theorem ShapeWf.snoc (wf : ShapeWf sh) (hroom : sh.n < sh.keys.length)
    (hhalf : 2 * (sh.n + 1) ≤ sh.mask + 1) (hk : Normal k) (hc : canon k = some key)
    (habsent : sh.pos key = none) :
    ∃ idx, placeReusing sh.idx sh.mask ((sh.n : ℤ) + 1) (sh.mask + 1) (home sh.mask (luaHash k)) none =
        some (idx, true) ∧ ShapeWf (sh.snoc k idx) := by
  have hhomes : Indexed sh.idx sh.mask
      (fun q => home sh.mask (luaHash ((sh.keys.set sh.n k).getD q .nil))) sh.n := by
    apply wf.indexed.congr
    intro i hi
    rw [getD_set hroom, if_neg (by omega)]
    rfl
  obtain ⟨idx, hplace, hindexed⟩ := hhomes.placeReusing home_le (by have := wf.slots; omega)
  rw [getD_set hroom, if_pos rfl] at hplace
  have hnew : ∀ i < sh.n, canon (sh.key i) ≠ canon k := by
    intro i hi
    rw [hc]
    exact Shape.pos_eq_none.mp habsent i hi
  refine ⟨idx, hplace, ?_, ?_, ?_, ?_, hhalf, wf.slots, hindexed⟩
  · change sh.n + 1 ≤ (sh.keys.set sh.n k).length
    rw [List.length_set]
    exact hroom
  · intro i hi
    obtain hlt | rfl := Nat.lt_succ_iff_lt_or_eq.mp hi
    · rw [snoc_key hroom idx hlt]
      exact wf.normal i hlt
    · rw [snoc_key_last hroom]
      exact hk
  · intro i hi j hj heq
    obtain hi' | rfl := Nat.lt_succ_iff_lt_or_eq.mp hi <;>
      obtain hj' | rfl := Nat.lt_succ_iff_lt_or_eq.mp hj
    · rw [snoc_key hroom idx hi', snoc_key hroom idx hj'] at heq
      exact wf.distinct i hi' j hj' heq
    · rw [snoc_key hroom idx hi', snoc_key_last hroom] at heq
      exact absurd heq (hnew i hi')
    · rw [snoc_key_last hroom, snoc_key hroom idx hj'] at heq
      exact absurd heq.symm (hnew j hj')
    · rfl
  · change sh.used + 1 = sh.n + 1
    rw [wf.used]

/-- What is read of a table that has one more entry. -/
theorem inserted_of_last (hframe : Frame s s') (hok : HashOk s sh none)
    (hok' : HashOk s' sh' (some sh.n)) (hn : sh'.n = sh.n + 1)
    (hkeys : ∀ i < sh.n, sh'.key i = sh.key i) (hlast : canon (sh'.key sh.n) = some key)
    (hvalues : ∀ i < sh.n, s'.t.value i = s.t.value i) {w : Slot} (hw : s'.t.slot sh.n = w) :
    Inserted s s' key w where
  toFrame := hframe
  last := ⟨sh', sh.n, hok', hn, hok'.wf.pos_of_canon (by omega) hlast, hw⟩
  count sh₁ sh₁' h h' := by
    rw [hok.shape] at h
    rw [hok'.shape] at h'
    cases h
    cases h'
    exact Nat.le_of_eq hn
  other key' hne := by
    cases hp : sh.pos key' with
    | some i =>
      have hi := Shape.pos_lt hp
      have hp' : sh'.pos key' = some i := hok'.wf.pos_of_canon (by omega) (by
        rw [hkeys i hi]
        exact Shape.canon_key_of_pos hp)
      rw [hget_of_pos hok.shape hp, hget_of_pos hok'.shape hp', hvalues i hi]
    | none =>
      have hp' : sh'.pos key' = none := by
        rw [Shape.pos_eq_none]
        intro i hi heq
        rw [hn] at hi
        obtain hlt | rfl := Nat.lt_succ_iff_lt_or_eq.mp hi
        · rw [hkeys i hlt] at heq
          exact Shape.pos_eq_none.mp hp i hlt heq
        · rw [hlast] at heq
          exact hne (Option.some.inj heq).symm
      rw [hget_of_absent hok.shape hp, hget_of_absent hok'.shape hp']

/-- The end of an insertion, when there is room everywhere. -/
theorem appendEntry_spec (hok : HashOk s sh none) (hown : s.t.shape = .own sh)
    (hroom : sh.n < sh.keys.length) (hhalf : 2 * (sh.n + 1) ≤ sh.mask + 1)
    (hvals : sh.n < lengthOf s.t.vals) (hk : Normal k) (hc : canon k = some key)
    (habsent : sh.pos key = none) (w : Slot) :
    Ensures (appendEntry k w (luaHash k)) s (fun _ s' => Inserted s s' key w) := by
  obtain ⟨idx, hplace, hwf⟩ := hok.wf.snoc hroom hhalf hk hc habsent
  have h4 := hok.own sh hown
  unfold appendEntry
  apply meets_getOwnShape hown
  apply meets_orStuck (setAt_of_lt hroom)
  apply (setVal_spec hvals w).bind
  rintro _ s₁ ⟨vals, hvs, rfl⟩
  apply meets_orStuck hplace
  apply meets_modify
  have hlen : sh.n < vals.length := by
    rw [hvs] at hvals
    exact hvals
  have hslot : ∀ j, LuaTable.slot { s.t with vals := some (vals.set sh.n w) } j =
      if j = sh.n then w else s.t.slot j := fun j => slot_set hvs hlen
  have hfv := hok.fvals
  rw [hvs, lengthOf_some] at hfv
  change Inserted s { s with t := { s.t with
    shape := .own (sh.snoc k idx), vals := some (vals.set sh.n w) } } key w
  generalize hs' : ({ s with t := { s.t with
    shape := .own (sh.snoc k idx), vals := some (vals.set sh.n w) } } : TabState) = s'
  have hslot' : ∀ j, s'.t.slot j = if j = sh.n then w else s.t.slot j := by
    intro j
    rw [← hs']
    exact hslot j
  have hfvals' : s'.t.fvals = s.t.fvals := by rw [← hs']
  -- a marked new slot has no double yet
  have hok' : HashOk s' (sh.snoc k idx) (some sh.n) := by
    constructor
    · rw [← hs']
      exact hok.shapes
    · rw [← hs']
      rfl
    · exact hwf
    · rw [← hs']
      change sh.n + 1 ≤ (vals.set sh.n w).length
      rw [List.length_set]
      exact hlen
    · have hsmall := hok.small
      rw [hvs, lengthOf_some] at hsmall
      rw [← hs']
      change (vals.set sh.n w).length ≤ valsMax
      rw [List.length_set]
      exact hsmall
    · intro fa hfa
      rw [hfvals'] at hfa
      rw [← hs']
      change fa.length = (vals.set sh.n w).length
      rw [List.length_set]
      exact hfv fa hfa
    · intro i hi hne hmark
      have hin : i ≠ sh.n := fun heq => hne (by rw [heq])
      rw [hslot', if_neg hin] at hmark
      rw [hfvals']
      change i < sh.n + 1 at hi
      exact hok.marked i (by omega) (by simp) hmark
    · intro sh' h
      rw [← hs'] at h
      cases h
      change 4 ≤ (sh.keys.set sh.n k).length
      rw [List.length_set]
      exact h4
  refine inserted_of_last ⟨?_, ?_, ?_, ?_⟩ hok hok' rfl (fun i hi => snoc_key hroom idx hi) ?_ ?_ ?_
  · rw [← hs']
    exact Grows.refl
  · rw [← hs']
  · rw [← hs']
  · rw [← hs']
  · rw [snoc_key_last hroom]
    exact hc
  · intro i hi
    refine value_eq_of_slot ?_ (by rw [hfvals'])
    rw [hslot', if_neg (by omega)]
  · rw [hslot', if_pos rfl]

theorem Inserted.of_unchanged {w : Slot} (h : Unchanged s s') (hs₁ : s'.shape = some sh')
    (h' : Inserted s' s'' key w) : Inserted s s'' key w where
  toFrame := h.toFrame.trans h'.toFrame
  last := h'.last
  count sh sh'' hs hs'' := by
    have h1 := h.fewer sh sh' hs hs₁
    have h2 := h'.count sh' sh'' hs₁ hs''
    omega
  other key' hne := (h'.other key' hne).trans (h.get key')

theorem Overflow.of_eq {e : Fault} (h : Unchanged s s') (hok' : HashOk s' sh' none) (he : e = tableOverflow) (hlarge : 8388608 < sh'.n) : Overflow e s s' where
  toUnchanged := h
  error := he
  large sh₀ h₀ := by
    have hfewer := h.fewer sh₀ sh' h₀ hok'.shape
    omega
  ok := ⟨sh', hok'⟩

theorem rebuildIfFull_spec (hok : HashOk s sh none) (hown : s.t.shape = .own sh) :
    Ensures rebuildIfFull s
      (fun _ s' => Unchanged s s' ∧ ∃ sh', s'.t.shape = .own sh' ∧ HashOk s' sh' none ∧
        2 * (sh'.n + 1) ≤ sh'.mask + 1 ∧ Rearranged s s' sh sh') := by
  unfold rebuildIfFull
  apply meets_getOwnShape hown
  rw [hok.wf.used]
  split
  · rename_i hfull
    exact tabIndexRebuild_spec hok hown hfull
  · rename_i hlt
    refine meets_pure ⟨Unchanged.refl, sh, hown, hok, by omega, rfl, rfl, ?_, ?_, ?_⟩
    · exact fun _ => SameEntries.refl
    · exact fun _ => Or.inl (by omega)
    · exact ⟨fun _ => Or.inl (by omega), fun _ => rfl⟩

/-- `$tab_insert_owned` enters a new key into a private shape. -/
theorem tabInsertOwned_spec (hok : HashOk s sh none) (hown : s.t.shape = .own sh) (hk : Normal k)
    (hc : canon k = some key) (habsent : sh.pos key = none) (w : Slot) :
    Meets (tabInsertOwned k w (luaHash k)) s (fun _ s' => Inserted s s' key w)
      (fun e s' => Overflow e s s') := by
  unfold tabInsertOwned
  apply ((rebuildIfFull_spec hok hown).imp_error (fun _ _ h => h.elim)).bind
  rintro _ s₁ ⟨hun₁, sh₁, hown₁, hok₁, hhalf, -⟩
  apply ((growKeys_spec hok₁ hown₁).imp_error fun e s' h => by
    obtain ⟨he, rfl, hlarge⟩ := h
    exact Overflow.of_eq hun₁ hok₁ he (by omega)).bind
  rintro _ s₂ ⟨hun₂, sh₂, hown₂, hok₂, hn, hmask, hroom, -⟩
  have hun : Unchanged s s₂ := hun₁.trans hun₂ hok₁.shape
  apply meets_getOwnShape hown₂
  apply ((valsReserve_spec hok₂ (sh₂.n + 1)).imp_error fun e s' h => by
    obtain ⟨he, rfl, hlarge⟩ := h
    exact Overflow.of_eq hun hok₂ he (by omega)).bind
  rintro _ s₃ ⟨hres, hok₃, hvals⟩
  have hown₃ : s₃.t.shape = .own sh₂ := hres.shape.trans hown₂
  have hun₃ : Unchanged s s₃ := hun.trans (hres.unchanged hok₂.shape) hok₂.shape
  refine (appendEntry_spec hok₃ hown₃ hroom (by omega) (by omega) hk hc ?_ w).mono ?_
    fun _ _ h => h.elim
  · exact hun₃.absent sh sh₂ hok.shape hok₃.shape key habsent
  · exact fun _ s' h => Inserted.of_unchanged hun₃ hok₃.shape h

/-- A table with a shared shape moves to the child shape. -/
theorem tabInsertShared_spec {r : ℕ} (hok : HashOk s sh none) (hshared : s.t.shape = .shared r)
    (hk : Normal k) (hc : canon k = some key) (habsent : sh.pos key = none) (w : Slot) :
    Meets (tabInsertShared r k w (luaHash k)) s (fun _ s' => Inserted s s' key w)
      (fun e s' => Overflow e s s') := by
  obtain ⟨p, hp, rfl⟩ := shape_of_shared hshared hok.shape
  have hnew : ∀ i < p.n, canon (p.key i) ≠ canon k := by
    intro i hi
    rw [hc]
    exact Shape.pos_eq_none.mp habsent i hi
  obtain ⟨c, shapes', ch, hchild, hsok, hgrows, hch, hof⟩ :=
    shapeChild_spec hok.shapes hp hk hnew (luaHash k)
  unfold tabInsertShared
  apply meets_get_bind
  apply meets_orStuck hchild
  have hn : (shapes'[c]?).map (fun sh => sh.n) = some (p.n + 1) := by
    rw [hch, Option.map_some, hof.n]
  apply meets_orStuck hn
  apply meets_set_bind
  -- the shapes have grown, and the table still has its old shape
  obtain ⟨p', hp', heq⟩ := hgrows r p hp
  have hok₁ : HashOk { s with shapes := shapes' } p.toShape none := by
    refine ⟨hsok, ?_, hok.wf, hok.vals, hok.small, hok.fvals, hok.marked, hok.own⟩
    unfold TabState.shape
    simp only [hshared, hp', Option.map_some, heq]
  have hun₁ : Unchanged s { s with shapes := shapes' } :=
    unchanged_of_keys ⟨hgrows, rfl, rfl, rfl⟩ hok.shape hok₁.shape rfl (fun _ _ => rfl) fun _ _ => rfl
  apply ((valsReserve_spec hok₁ (p.n + 1)).imp_error fun e s' h => by
    obtain ⟨he, rfl, hlarge⟩ := h
    exact Overflow.of_eq hun₁ hok₁ he (by omega)).bind
  rintro _ s₂ ⟨hres, hok₂, hvals⟩
  have hun₂ : Unchanged s s₂ := hun₁.trans (hres.unchanged hok₁.shape) hok₁.shape
  apply meets_modify_bind
  have hpos : p.n + 1 - 1 = p.n := Nat.add_sub_cancel p.n 1
  rw [hpos]
  refine (setVal_spec (s := { s₂ with t := { s₂.t with shape := .shared c } }) (by
    change p.n < lengthOf s₂.t.vals
    omega) w).mono ?_ fun _ _ h => h.elim
  rintro _ s₃ ⟨vals, hvs, hs₃⟩
  change s₂.t.vals = some vals at hvs
  rw [hvs, lengthOf_some] at hvals
  have hslot : ∀ j, s₃.t.slot j = if j = p.n then w else s₂.t.slot j := by
    intro j
    rw [hs₃]
    exact slot_set hvs (by omega)
  have hfv := hok₂.fvals
  rw [hvs, lengthOf_some] at hfv
  have hfvals : s₃.t.fvals = s₂.t.fvals := by rw [hs₃]
  have hshapes : s₃.shapes = shapes' := by
    rw [hs₃]
    exact hres.shapes
  have hok₃ : HashOk s₃ ch.toShape (some p.n) := by
    constructor
    · rw [hshapes]
      exact hsok
    · unfold TabState.shape
      rw [hshapes, hs₃]
      simp only [hch, Option.map_some]
    · exact hsok.wf c ch hch
    · rw [hs₃, hof.n]
      change p.n + 1 ≤ (vals.set p.n w).length
      rw [List.length_set]
      exact hvals
    · have hsmall := hok₂.small
      rw [hvs, lengthOf_some] at hsmall
      rw [hs₃]
      change (vals.set p.n w).length ≤ valsMax
      rw [List.length_set]
      exact hsmall
    · intro fa hfa
      rw [hfvals] at hfa
      rw [hs₃]
      change fa.length = (vals.set p.n w).length
      rw [List.length_set]
      exact hfv fa hfa
    · intro i hi hne hmark
      have hin : i ≠ p.n := fun heq => hne (by rw [heq])
      rw [hslot, if_neg hin] at hmark
      rw [hfvals]
      rw [hof.n] at hi
      exact hok₂.marked i (by omega) (by simp) hmark
    · intro sh' h
      rw [hs₃] at h
      cases h
  apply Inserted.of_unchanged hun₂ hok₂.shape
  refine inserted_of_last ⟨?_, ?_, ?_, ?_⟩ hok₂ hok₃ hof.n hof.keys ?_ ?_ ?_
  · rw [hshapes, hres.shapes]
    exact Grows.refl
  · rw [hs₃]
  · rw [hs₃]
  · rw [hs₃]
  · rw [hof.last]
    exact hc
  · intro i hi
    refine value_eq_of_slot ?_ (by rw [hfvals])
    rw [hslot, if_neg (by omega)]
  · rw [hslot, if_pos rfl]

/-- `$tab_insert_new` enters a new key. -/
theorem tabInsertNew_spec (hok : HashOk s sh none) (hk : Normal k) (hc : canon k = some key)
    (habsent : sh.pos key = none) (w : Slot) :
    Meets (tabInsertNew k w (luaHash k)) s (fun _ s' => Inserted s s' key w)
      (fun e s' => Overflow e s s') := by
  unfold tabInsertNew
  apply meets_get_bind
  cases hshape : s.t.shape with
  | own sh₀ =>
    obtain rfl := hok.own_eq hshape
    exact tabInsertOwned_spec hok hshape hk hc habsent w
  | shared r =>
    apply meets_getShape hok.shape
    split
    · exact tabInsertShared_spec hok hshape hk hc habsent w
    · apply (tabOwn_spec hok).bind_safe
      rintro _ s₁ ⟨hun, sh₁, hown₁, hok₁, -⟩
      have habsent₁ := hun.absent sh sh₁ hok.shape hok₁.shape key habsent
      refine (tabInsertOwned_spec hok₁ hown₁ hk hc habsent₁ w).mono
        (fun _ s' h => Inserted.of_unchanged hun hok₁.shape h) fun e s' h => ?_
      refine ⟨hun.trans h.toUnchanged hok₁.shape, h.error, fun sh₀ h₀ => ?_, h.ok⟩
      exact Nat.lt_of_lt_of_le (h.large sh₁ hok₁.shape) (hun.fewer sh₀ sh₁ h₀ hok₁.shape)

/-! ## Stores -/

/-- A slot that holds a value needs no double. -/
theorem HashOk.of_skip (hok : HashOk s sh (some i)) (h : s.t.slot i ≠ .mark) : HashOk s sh none where
  shapes := hok.shapes
  shape := hok.shape
  wf := hok.wf
  vals := hok.vals
  small := hok.small
  fvals := hok.fvals
  marked j hj _ hmark := by
    have hne : i ≠ j := by
      rintro rfl
      exact h hmark
    exact hok.marked j hj (by simpa using hne) hmark
  own := hok.own

theorem value_of_val (h : s.t.slot i = .val v) : s.t.value i = v := by
  unfold LuaTable.value
  rw [h]

theorem Inserted.hashSet (h : Inserted s s' key (.val v)) : HashSet s s' key v where
  toFrame := h.toFrame
  ok := by
    obtain ⟨sh', n, hok, -, -, hslot⟩ := h.last
    exact ⟨sh', hok.of_skip (by rw [hslot]; simp)⟩
  count := h.count
  get := by
    obtain ⟨sh', n, hok, -, hpos, hslot⟩ := h.last
    rw [hget_of_pos hok.shape hpos]
    exact value_of_val hslot
  other := h.other

/-- The table after a write to the value slot at the position of a key. -/
structure Written (s s' : TabState) (sh : Shape) (i : ℕ) (w : Slot) : Prop extends Frame s s' where
  /-- The hash part is in order, but for the slot. -/
  ok : HashOk s' sh (some i)
  /-- The slot. -/
  slot : s'.t.slot i = w
  /-- The other values. -/
  value : ∀ j, j ≠ i → s'.t.value j = s.t.value j
  /-- The size of the value array. -/
  len : lengthOf s'.t.vals = lengthOf s.t.vals

theorem HashOk.pos_lt_vals (hok : HashOk s sh skip) (hp : sh.pos key = some i) : i < lengthOf s.t.vals :=
  Nat.lt_of_lt_of_le (Shape.pos_lt hp) hok.vals

theorem setVal_written (hok : HashOk s sh none) (hi : i < lengthOf s.t.vals) (w : Slot) :
    Ensures (setVal i w) s (fun _ s' => Written s s' sh i w) := by
  refine (setVal_spec hi w).imp ?_
  rintro _ s' ⟨vals, hvs, hs'⟩
  have hvals := hok.vals
  have hfv := hok.fvals
  rw [hvs, lengthOf_some] at hi hvals hfv
  have hslot : ∀ j, s'.t.slot j = if j = i then w else s.t.slot j := by
    intro j
    rw [hs']
    exact slot_set hvs (by omega)
  have hfvals : s'.t.fvals = s.t.fvals := by rw [hs']
  have hlen : lengthOf s'.t.vals = vals.length := by
    rw [hs']
    exact List.length_set
  have hsmall := hok.small
  rw [hvs, lengthOf_some] at hsmall
  refine ⟨⟨?_, ?_, ?_, ?_⟩, ⟨?_, ?_, hok.wf, ?_, ?_, ?_, ?_, ?_⟩, ?_, ?_, by rw [hlen, hvs]; rfl⟩
  · rw [hs']
    exact Grows.refl
  · rw [hs']
  · rw [hs']
  · rw [hs']
  · rw [hs']
    exact hok.shapes
  · rw [hs']
    exact hok.shape
  · rw [hlen]
    exact hvals
  · rw [hlen]
    exact hsmall
  · intro fa hfa
    rw [hfvals] at hfa
    rw [hlen]
    exact hfv fa hfa
  · intro j hj hne hmark
    have hji : j ≠ i := fun heq => hne (by rw [heq])
    rw [hslot, if_neg hji] at hmark
    rw [hfvals]
    exact hok.marked j hj (by simp) hmark
  · rw [hs']
    exact hok.own
  · rw [hslot, if_pos rfl]
  · intro j hj
    refine value_eq_of_slot ?_ (by rw [hfvals])
    rw [hslot, if_neg hj]

/-- A key has only its own position. -/
theorem pos_ne {key' : Key} (hp : sh.pos key = some i) (hp' : sh.pos key' = some j)
    (hne : key' ≠ key) : j ≠ i := by
  rintro rfl
  have h := Shape.canon_key_of_pos hp
  rw [Shape.canon_key_of_pos hp'] at h
  exact hne (Option.some.inj h)

theorem Written.other (h : Written s s' sh i w) (hok : HashOk s sh none) (hp : sh.pos key = some i)
    {key' : Key} (hne : key' ≠ key) : s'.hget key' = s.hget key' := by
  rw [hget_of_shape hok.shape, hget_of_shape h.ok.shape]
  cases hp' : sh.pos key' with
  | none => rfl
  | some j => exact h.value j (pos_ne hp hp' hne)

/-- A double is written to a marked slot. -/
theorem setFval_spec {f : F64} (hok : HashOk s sh (some i)) (hi : i < lengthOf s.t.vals)
    (hslot : s.t.slot i = .mark) :
    Ensures (setFval i f) s
      (fun _ s' => Frame s s' ∧ HashOk s' sh none ∧ s'.t.value i = .float f ∧
        ∀ j, j < sh.n → j ≠ i → s'.t.value j = s.t.value j) := by
  have hvals := hok.vals
  obtain ⟨vals, hvs, hlt, -⟩ := getElem?_vals hi
  rw [hvs, lengthOf_some] at hvals
  -- the doubles, which are made if there are none
  have hensure : Ensures fvalsEnsure s
      (fun fa s₁ => s₁ = { s with t := { s.t with fvals := some fa } } ∧ fa.length = vals.length ∧
        ∀ j, fa.getD j fzero = (s.t.fvals.getD []).getD j fzero) := by
    unfold fvalsEnsure
    apply meets_get_bind
    dsimp only
    cases hfa : s.t.fvals with
    | some fa =>
      have hlen := hok.fvals fa hfa
      rw [hvs, lengthOf_some] at hlen
      refine meets_pure ⟨?_, hlen, fun _ => rfl⟩
      rw [← hfa]
    | none =>
      apply meets_orStuck hvs
      apply meets_modify_bind
      refine meets_pure ⟨rfl, List.length_replicate, fun j => ?_⟩
      rw [List.getD_eq_getElem?_getD, List.getElem?_replicate]
      split <;> rfl
  unfold setFval
  apply hensure.bind
  rintro fa _ ⟨rfl, hlen, hfa⟩
  apply meets_orStuck (setAt_of_lt (show i < fa.length by omega))
  apply meets_modify
  change Frame s { s with t := { s.t with fvals := some (fa.set i f) } } ∧ _
  generalize hs' : ({ s with t := { s.t with fvals := some (fa.set i f) } } : TabState) = s'
  have hslot' : ∀ j, s'.t.slot j = s.t.slot j := fun j => by rw [← hs']; rfl
  have hfvals' : s'.t.fvals = some (fa.set i f) := by rw [← hs']
  refine ⟨⟨?_, ?_, ?_, ?_⟩, ⟨?_, ?_, hok.wf, ?_, ?_, ?_, ?_, ?_⟩, ?_, ?_⟩
  · rw [← hs']
    exact Grows.refl
  · rw [← hs']
  · rw [← hs']
  · rw [← hs']
  · rw [← hs']
    exact hok.shapes
  · rw [← hs']
    exact hok.shape
  · rw [← hs']
    exact hok.vals
  · rw [← hs']
    exact hok.small
  · intro fa' hfa'
    rw [hfvals'] at hfa'
    cases hfa'
    rw [List.length_set, ← hs']
    change fa.length = lengthOf s.t.vals
    rw [hvs, lengthOf_some, hlen]
  · intro j _ _ _ hnone
    rw [hfvals'] at hnone
    cases hnone
  · rw [← hs']
    exact hok.own
  · unfold LuaTable.value
    rw [hslot', hslot, hfvals']
    simp only [Option.getD_some]
    rw [getD_set (by omega), if_pos rfl]
  · intro j hj hne
    apply value_eq_of_slot (hslot' j)
    rw [hfvals', Option.getD_some, getD_set (by omega), if_neg hne, hfa]

theorem count_of_shape (hs : s.shape = some sh) (hs' : s'.shape = some sh') (h : sh'.n ≤ sh.n + 1)
    (sh₁ sh₁' : Shape) (h₁ : s.shape = some sh₁) (h₁' : s'.shape = some sh₁') : sh₁'.n ≤ sh₁.n + 1 := by
  rw [hs] at h₁
  rw [hs'] at h₁'
  cases h₁
  cases h₁'
  exact h

/-- A store to a key that is there writes its value slot, and does not touch the shape. -/
theorem setVal_found (hok : HashOk s sh none) (hp : sh.pos key = some i) (v : Val) :
    Ensures (setVal i (.val v)) s (fun _ s' => HashSet s s' key v ∧ s'.shape = some sh) := by
  refine (setVal_written hok (hok.pos_lt_vals hp) (.val v)).imp ?_
  intro _ s' h
  have hok' := h.ok.of_skip (by rw [h.slot]; simp)
  refine ⟨⟨h.toFrame, ⟨sh, hok'⟩, count_of_shape hok.shape hok'.shape (Nat.le_succ _), ?_,
    fun key' hne => h.other hok hp hne⟩, hok'.shape⟩
  rw [hget_of_pos h.ok.shape hp]
  exact value_of_val h.slot

/-- `$tab_set_hash` and `$tab_set_hash_str`, from where the position of the key is known. -/
theorem setFound_spec (hok : HashOk s sh none) (hk : Normal k) (hc : canon k = some key) (v : Val) :
    Meets (setFound (sh.pos key) k v (luaHash k)) s (fun _ s' => HashSet s s' key v)
      (fun e s' => Overflow e s s') := by
  unfold setFound
  cases hp : sh.pos key with
  | some i => exact (setVal_found hok hp v).mono (fun _ _ h => h.1) fun _ _ h => h.elim
  | none =>
    dsimp only
    split
    · rename_i hv
      subst hv
      exact meets_pure ⟨Frame.refl, ⟨sh, hok⟩, count_of_shape hok.shape hok.shape (Nat.le_succ _),
        hget_of_absent hok.shape hp, fun _ _ => rfl⟩
    · exact (tabInsertNew_spec hok hk hc hp (.val v)).imp (fun _ s' h => h.hashSet)

/-- The double of a key whose slot is marked completes the store. -/
theorem HashSet.of_mark {s₁ : TabState} {f : F64} (hframe : Frame s s₁)
    (hother : ∀ key', key' ≠ key → s₁.hget key' = s.hget key') (hok₁ : HashOk s₁ sh (some i))
    (hcount : ∀ sh sh', s.shape = some sh → s₁.shape = some sh' → sh'.n ≤ sh.n + 1)
    (hp : sh.pos key = some i) (hframe' : Frame s₁ s') (hok' : HashOk s' sh none)
    (hvalue : s'.t.value i = .float f) (hothers : ∀ j, j < sh.n → j ≠ i → s'.t.value j = s₁.t.value j) :
    HashSet s s' key (.float f) where
  toFrame := hframe.trans hframe'
  ok := ⟨sh, hok'⟩
  count sh₀ sh₀' h₀ h₀' := by
    rw [hok'.shape] at h₀'
    cases h₀'
    exact hcount sh₀ sh h₀ hok₁.shape
  get := by
    rw [hget_of_pos hok'.shape hp]
    exact hvalue
  other key' hne := by
    rw [← hother key' hne, hget_of_shape hok₁.shape, hget_of_shape hok'.shape]
    cases hp' : sh.pos key' with
    | none => rfl
    | some j => exact hothers j (Shape.pos_lt hp') (pos_ne hp hp' hne)

/-- `$tab_set_f_hash` and `$tab_set_f_hash_str`, from where the position of the key is known. -/
theorem setFoundF_spec (hok : HashOk s sh none) (hk : Normal k) (hc : canon k = some key) (f : F64) :
    Meets (setFoundF (sh.pos key) k f (luaHash k)) s (fun _ s' => HashSet s s' key (.float f))
      (fun e s' => Overflow e s s') := by
  unfold setFoundF
  cases hp : sh.pos key with
  | some i =>
    apply (setVal_written hok (hok.pos_lt_vals hp) .mark).bind_safe
    intro _ s₁ h
    refine (setFval_spec h.ok (h.ok.pos_lt_vals hp) h.slot).mono ?_ fun _ _ h => h.elim
    rintro _ s' ⟨hframe, hok', hvalue, hothers⟩
    exact HashSet.of_mark h.toFrame (fun key' hne => h.other hok hp hne) h.ok
      (count_of_shape hok.shape h.ok.shape (Nat.le_succ _)) hp hframe hok' hvalue hothers
  | none =>
    apply (tabInsertNew_spec hok hk hc hp .mark).bind
    intro _ s₁ h
    obtain ⟨sh₁, n, hok₁, hn, hpos, hslot⟩ := h.last
    apply meets_getShape hok₁.shape
    have hlast : sh₁.n - 1 = n := by omega
    rw [hlast]
    refine (setFval_spec hok₁ (hok₁.pos_lt_vals hpos) hslot).mono ?_ fun _ _ h => h.elim
    rintro _ s' ⟨hframe, hok', hvalue, hothers⟩
    exact HashSet.of_mark h.toFrame h.other hok₁ h.count hpos hframe hok' hvalue hothers

section

variable {f : Option ℕ → TabM Unit} {Q : Unit → TabState → Prop} {E : Fault → TabState → Prop}

/-- A store finds the position of its key first. -/
theorem meets_find (hok : HashOk s sh none) (hc : canon k = some key) (h : Meets (f (sh.pos key)) s Q E) :
    Meets (do f (← orStuck (tabFind (← getShape) k))) s Q E := by
  apply meets_getShape hok.shape
  have hfind := tabFind_spec hok.wf k
  rw [hc] at hfind
  exact meets_orStuck hfind h

theorem meets_findStr {o : ℕ} {x : List UInt8} (hok : HashOk s sh none) (h : Meets (f (sh.pos (.str x))) s Q E) :
    Meets (do f (← orStuck (tabFindStr (← getShape) (.str o x) (luaHash (.str o x))))) s Q E :=
  meets_getShape hok.shape (meets_orStuck (tabFindStr_spec hok.wf rfl) h)

end

/-- `$tab_set_hash` sets the key. -/
theorem tabSetHash_spec (hok : HashOk s sh none) (hk : Normal k) (hc : canon k = some key) (v : Val) :
    Meets (tabSetHash k v) s (fun _ s' => HashSet s s' key v) (fun e s' => Overflow e s s') :=
  meets_find hok hc (setFound_spec hok hk hc v)

/-- `$tab_set_hash_str` sets the key. -/
theorem tabSetHashStr_spec {o : ℕ} {bytes : List UInt8} (hok : HashOk s sh none) (v : Val) :
    Meets (tabSetHashStr (.str o bytes) (luaHash (.str o bytes)) v) s
      (fun _ s' => HashSet s s' (.str bytes) v) (fun e s' => Overflow e s s') :=
  meets_findStr hok (setFound_spec hok (show Normal (.str o bytes) from trivial) rfl v)

/-- `$tab_set_f_hash` sets the key to the double. -/
theorem tabSetFHash_spec (hok : HashOk s sh none) (hk : Normal k) (hc : canon k = some key) (f : F64) :
    Meets (tabSetFHash k f) s (fun _ s' => HashSet s s' key (.float f))
      (fun e s' => Overflow e s s') :=
  meets_find hok hc (setFoundF_spec hok hk hc f)

/-- `$tab_set_f_hash_str` sets the key to the double. -/
theorem tabSetFHashStr_spec {o : ℕ} {bytes : List UInt8} (hok : HashOk s sh none) (f : F64) :
    Meets (tabSetFHashStr (.str o bytes) (luaHash (.str o bytes)) f) s
      (fun _ s' => HashSet s s' (.str bytes) (.float f)) (fun e s' => Overflow e s s') :=
  meets_findStr hok (setFoundF_spec hok (show Normal (.str o bytes) from trivial) rfl f)

end Lua2wasm.Table
