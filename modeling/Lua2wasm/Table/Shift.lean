import Lua2wasm.Table.Stores
import Lua2wasm.Table.Map

/-!
# The length of a table, and shifts of its array part

`$tab_len` walks from the end of the array part over the keys of the hash part that continue it. It
comes to an end as these are different keys of the hash part (`run_le`), and what it finds is a
border of the table (`tabLen_spec`).

When the border is the length of the array part, `table.insert` and `table.remove` shift the array
part at once (`insertFast`, `removeFast`). Here is what the shift does to the map.
-/

namespace Lua2wasm.Table

open Raising

variable {s s' s'' : TabState} {sh : Shape} {skip : Option ℕ} {i j n pos : ℕ} {key : Key} {k v : Val}
  {w : Slot}

/-! ## Positions -/

theorem ikey_succ (n : ℕ) : ikey (n + 1) = arrKey n := rfl

/-- A key is a position of the array part, or it is read in the hash part. -/
theorem tget_cases (hsmall : s.t.alen < 2^31) (key : Key) :
    (∃ i < s.t.alen, key = arrKey i ∧ s.tget key = s.t.arrValue i) ∨
      ((∀ i < s.t.alen, key ≠ arrKey i) ∧ s.tget key = s.hget key) := by
  cases key with
  | int k =>
    by_cases hin : inArr s.t k = true
    · left
      refine ⟨arrIndex k, arrIndex_lt hin, ?_, tget_of_inArr hin⟩
      have hlt := arrIndex_lt hin
      unfold arrKey
      rw [← ofInt_toInt_succ (by omega) (toInt_of_inArr hin)]
    · right
      refine ⟨fun i hi heq => hin ?_, tget_of_not_inArr hin⟩
      obtain rfl := Key.int.inj heq
      rw [inArr_ofInt (by omega)]
      exact hi
  | _ =>
    right
    refine ⟨fun i _ heq => ?_, rfl⟩
    cases heq

/-- A slot that is not null holds a value. -/
theorem arrValue_ne_nil (h : (s.t.arrSlot i).isNull = false) : s.t.arrValue i ≠ .nil := by
  unfold LuaTable.arrValue
  cases hslot : s.t.arrSlot i with
  | mark => simp
  | val v =>
    rw [hslot] at h
    rintro rfl
    exact absurd h (by decide)

/-! ## The length -/

variable (sh) in
/-- Different keys have different positions. -/
theorem card_keys_le (keys : Finset Key) (h : ∀ key ∈ keys, sh.pos key ≠ none) : keys.card ≤ sh.n := by
  have hpos : ∀ key ∈ keys, ∃ p, sh.pos key = some p := fun key hkey =>
    Option.ne_none_iff_exists'.mp (h key hkey)
  calc keys.card ≤ (Finset.range sh.n).card := by
        apply Finset.card_le_card_of_injOn fun key => (sh.pos key).getD 0
        · intro key hkey
          obtain ⟨p, hp⟩ := hpos key hkey
          simp only [hp, Option.getD_some, Finset.coe_range, Set.mem_Iio]
          exact Shape.pos_lt hp
        · intro key hkey key' hkey' heq
          obtain ⟨p, hp⟩ := hpos key hkey
          obtain ⟨p', hp'⟩ := hpos key' hkey'
          simp only [hp, hp', Option.getD_some] at heq
          by_contra hne
          exact pos_ne hp hp' (Ne.symm hne) heq.symm
    _ = sh.n := Finset.card_range sh.n

theorem card_arrKeys {a : ℕ} (hi : i < 2^63) : ((Finset.Ico a i).image arrKey).card = i - a := by
  rw [Finset.card_image_of_injOn, Nat.card_Ico]
  intro j hj j' hj' heq
  rw [Finset.mem_coe, Finset.mem_Ico] at hj hj'
  exact arrKey_inj (by omega) (by omega) heq

/-- A run of keys of the hash part is not longer than the hash part. -/
theorem run_le {a : ℕ} (hash : HashOk s sh none) (hi : i < 2^63)
    (hrun : ∀ j, a ≤ j → j < i → s.hget (arrKey j) ≠ .nil) : i - a ≤ sh.n := by
  rw [← card_arrKeys hi]
  apply card_keys_le sh
  intro key hkey hp
  obtain ⟨j, hj, rfl⟩ := Finset.mem_image.mp hkey
  rw [Finset.mem_Ico] at hj
  exact hrun j hj.1 hj.2 (hget_of_absent hash.shape hp)

theorem lenFrom_spec {a : ℕ} (hash : HashOk s sh none) (ha : a + sh.n + 1 < 2^63) :
    ∀ fuel i, a ≤ i → i - a + fuel = sh.n + 1 → (∀ j, a ≤ j → j < i → s.hget (arrKey j) ≠ .nil) →
    ∃ n, i ≤ n ∧ n ≤ a + sh.n ∧ lenFrom s fuel i = some n ∧ s.hget (arrKey n) = .nil ∧
      ∀ j, a ≤ j → j < n → s.hget (arrKey j) ≠ .nil := by
  intro fuel
  induction fuel with
  | zero =>
    intro i hai hfuel hrun
    have hle := run_le hash (by omega) hrun
    omega
  | succ fuel ih =>
    intro i hai hfuel hrun
    have hget : tabGetHash s (makeInt ((i : ℤ) + 1)) = some (s.hget (arrKey i)) := by
      rw [tabGetHash_spec hash]
      rfl
    unfold lenFrom
    simp only [hget, Option.bind_eq_bind, Option.bind_some]
    by_cases hnil : s.hget (arrKey i) = .nil
    · rw [if_pos hnil]
      exact ⟨i, Nat.le_refl i, by omega, rfl, hnil, hrun⟩
    · rw [if_neg hnil]
      obtain ⟨n, hin, hna, hlen, hn, hrun'⟩ := ih (i + 1) (by omega) (by omega) fun j hj hji => by
        obtain hlt | rfl := Nat.lt_succ_iff_lt_or_eq.mp hji
        · exact hrun j hj hlt
        · exact hnil
      exact ⟨n, by omega, hna, hlen, hn, hrun'⟩

/-- `$tab_len` finds a border. -/
theorem tabLen_spec (hok : TabOk s none) :
    ∃ n, tabLen s = some n ∧ s.t.alen ≤ n ∧ n ≤ s.t.alen + valsMax ∧ s.hget (arrKey n) = .nil ∧
      Map.IsBorder s.tget n := by
  obtain ⟨sh, hash⟩ := hok.hash
  have hsmall := hok.arr.small
  have hshn := Nat.le_trans hash.vals hash.small
  -- a position is a border if the hash part has all keys before it, from the array part on
  have hborder : ∀ n, s.t.alen ≤ n → n ≤ s.t.alen + valsMax → s.hget (arrKey n) = .nil →
      (∀ j, s.t.alen ≤ j → j < n → s.hget (arrKey j) ≠ .nil) → Map.IsBorder s.tget n := by
    intro n hle hmax hn hrun
    unfold valsMax at hmax
    constructor
    · cases n with
      | zero => exact Or.inl rfl
      | succ m =>
        right
        rw [ikey_succ]
        by_cases hm : m < s.t.alen
        · rw [tget_arrKey_of_lt hm (by omega)]
          exact arrValue_ne_nil (hok.arr.last m (by omega))
        · rw [tget_arrKey_of_le (by omega) (by omega)]
          exact hrun m (by omega) (Nat.lt_succ_self m)
    · rw [ikey_succ, tget_arrKey_of_le hle (by omega)]
      exact hn
  unfold tabLen
  simp only [hash.shape, Option.bind_eq_bind, Option.bind_some]
  split
  · rename_i hzero
    have hn : s.hget (arrKey s.t.alen) = .nil := by
      apply hget_of_absent hash.shape
      rw [Shape.pos_eq_none]
      omega
    exact ⟨_, rfl, Nat.le_refl _, Nat.le_add_right _ _, hn,
      hborder _ (Nat.le_refl _) (Nat.le_add_right _ _) hn fun j h1 h2 => by omega⟩
  · have hfit : s.t.alen + sh.n + 1 < 2^63 := by
      unfold valsMax at hshn
      omega
    obtain ⟨n, hle, hmax, hlen, hn, hrun⟩ := lenFrom_spec hash hfit (sh.n + 1) s.t.alen
      (Nat.le_refl _) (by omega) fun j h1 h2 => by omega
    exact ⟨n, hlen, hle, by omega, hn, hborder n hle (by omega) hn hrun⟩

/-- `$tab_len` does not pass a key that the hash part lacks. -/
theorem tabLen_le (hok : TabOk s none) (hlen : tabLen s = some n) (hj : s.t.alen ≤ j)
    (hnil : s.hget (arrKey j) = .nil) : n ≤ j := by
  obtain ⟨sh, hash⟩ := hok.hash
  have hsmall := hok.arr.small
  have hshn := Nat.le_trans hash.vals hash.small
  unfold valsMax at hshn
  unfold tabLen at hlen
  simp only [hash.shape, Option.bind_eq_bind, Option.bind_some] at hlen
  split at hlen
  · obtain rfl := Option.some.inj hlen
    exact hj
  · obtain ⟨n', -, -, hlen', -, hrun⟩ := lenFrom_spec hash (show s.t.alen + sh.n + 1 < 2^63 by omega)
      (sh.n + 1) s.t.alen (Nat.le_refl _) (by omega) fun j h1 h2 => by omega
    rw [hlen] at hlen'
    obtain rfl := Option.some.inj hlen'
    by_contra hlt
    exact hrun j hj (by omega) hnil

/-! ## Shifts -/

/-- `array.copy`. -/
theorem arrayCopy_spec {α : Type} {a b : List α} {d src m : ℕ} {x : α} (hd : d + m ≤ a.length)
    (hsrc : src + m ≤ b.length) :
    ∃ a', arrayCopy a d b src m = some a' ∧ a'.length = a.length ∧
      ∀ i, a'.getD i x = if d ≤ i ∧ i < d + m then b.getD (src + (i - d)) x else a.getD i x := by
  refine ⟨a.take d ++ (b.drop src).take m ++ a.drop (d + m), ?_, ?_, ?_⟩
  · unfold arrayCopy
    rw [if_pos ⟨hd, hsrc⟩]
  · simp only [List.length_append, List.length_take, List.length_drop]
    omega
  · intro i
    have h1 : (a.take d).length = d := by
      rw [List.length_take]
      omega
    have h2 : ((b.drop src).take m).length = m := by
      rw [List.length_take, List.length_drop]
      omega
    simp only [List.getD_eq_getElem?_getD]
    split
    · rename_i hi
      rw [List.getElem?_append_left (by rw [List.length_append]; omega),
        List.getElem?_append_right (by omega), h1, List.getElem?_take_of_lt (by omega),
        List.getElem?_drop]
    · by_cases hlt : i < d
      · rw [List.getElem?_append_left (by rw [List.length_append]; omega),
          List.getElem?_append_left (by omega), List.getElem?_take_of_lt hlt]
      · rw [List.getElem?_append_right (by rw [List.length_append]; omega), List.length_append, h1, h2,
          List.getElem?_drop]
        congr 2
        omega

/-- The doubles cover the array. -/
def Covered (t : LuaTable) : Prop := ∀ fa, t.farr = some fa → ∃ a, t.arr = some a ∧ fa.length = a.length

/-- The double at an index. -/
def LuaTable.arrDouble (t : LuaTable) (i : ℕ) : F64 := (t.farr.getD []).getD i fzero

/-- `m` slots of the array part were moved from `src` to `d`, with their doubles. -/
structure Shifted (s s' : TabState) (d src m : ℕ) : Prop extends HashSame s s' where
  /-- The length of the array part. -/
  alen : s'.t.alen = s.t.alen
  /-- The size of the array. -/
  len : lengthOf s'.t.arr = lengthOf s.t.arr
  /-- The slots. -/
  slot : ∀ i, s'.t.arrSlot i =
    if d ≤ i ∧ i < d + m then s.t.arrSlot (src + (i - d)) else s.t.arrSlot i
  /-- The values. -/
  value : ∀ i, s'.t.arrValue i =
    if d ≤ i ∧ i < d + m then s.t.arrValue (src + (i - d)) else s.t.arrValue i
  /-- The doubles cover the array. -/
  covered : Covered s'.t
  /-- They are there if they were. -/
  some : s.t.farr ≠ none → s'.t.farr ≠ none

theorem moveArr_spec {d p m : ℕ} (hd : d + m ≤ lengthOf s.t.arr) (hsrc : p + m ≤ lengthOf s.t.arr)
    (hne : s.t.arr ≠ none) :
    Ensures (moveArr d p m) s
      (fun _ s' => HashSame s s' ∧ s'.t.alen = s.t.alen ∧ s'.t.farr = s.t.farr ∧
        (∃ a a', s.t.arr = some a ∧ s'.t.arr = some a' ∧ a'.length = a.length) ∧
        ∀ i, s'.t.arrSlot i = if d ≤ i ∧ i < d + m then s.t.arrSlot (p + (i - d)) else s.t.arrSlot i) := by
  obtain ⟨a, ha⟩ := Option.ne_none_iff_exists'.mp hne
  rw [ha, lengthOf_some] at hd hsrc
  obtain ⟨a', hcopy, hlen, hslot⟩ := arrayCopy_spec (x := Slot.val .nil) hd hsrc
  unfold moveArr
  apply meets_get_bind
  apply meets_orStuck ha
  apply meets_orStuck hcopy
  apply meets_modify
  refine ⟨⟨rfl, rfl, rfl, rfl⟩, rfl, rfl, ⟨a, a', ha, rfl, hlen⟩, fun i => ?_⟩
  unfold LuaTable.arrSlot
  rw [ha]
  exact hslot i

/-- What moving the doubles along does, in either direction. -/
structure FarrMoved (s s' : TabState) (d src m : ℕ) : Prop extends HashSame s s' where
  /-- The length of the array part. -/
  alen : s'.t.alen = s.t.alen
  /-- The array. -/
  arr : s'.t.arr = s.t.arr
  /-- The doubles. -/
  double : ∀ i, s'.t.arrDouble i =
    if d ≤ i ∧ i < d + m then s.t.arrDouble (src + (i - d)) else s.t.arrDouble i
  /-- They cover the array. -/
  covered : Covered s'.t
  /-- They are there if they were. -/
  some : s.t.farr ≠ none → s'.t.farr ≠ none

theorem FarrMoved.of_none {d src m : ℕ} (hf : s.t.farr = none) (hcov : Covered s.t) :
    FarrMoved s s d src m := by
  refine ⟨⟨rfl, rfl, rfl, rfl⟩, rfl, rfl, fun i => ?_, hcov, fun h => h⟩
  have hz : ∀ i, s.t.arrDouble i = fzero := by
    intro i
    unfold LuaTable.arrDouble
    rw [hf]
    rfl
  rw [hz, hz, ite_self]

theorem moveFarrDown_spec {d p m : ℕ} (hcov : Covered s.t) (hd : d + m ≤ lengthOf s.t.arr)
    (hsrc : p + m ≤ lengthOf s.t.arr) :
    Ensures (moveFarrDown d p m) s (fun _ s' => FarrMoved s s' d p m) := by
  unfold moveFarrDown
  apply meets_get_bind
  cases hf : s.t.farr with
  | none => exact meets_pure (FarrMoved.of_none hf hcov)
  | some fa =>
    obtain ⟨a, ha, hlen⟩ := hcov fa hf
    rw [ha, lengthOf_some] at hd hsrc
    rw [← hlen] at hd hsrc
    obtain ⟨fa', hcopy, hlen', hdouble⟩ := arrayCopy_spec (x := fzero) hd hsrc
    apply meets_orStuck hcopy
    apply meets_modify
    refine ⟨⟨rfl, rfl, rfl, rfl⟩, rfl, rfl, fun i => ?_, ?_, fun _ h => by cases h⟩
    · unfold LuaTable.arrDouble
      rw [hf]
      exact hdouble i
    · intro fa'' h
      cases h
      exact ⟨a, ha, hlen'.trans hlen⟩

theorem moveFarr_spec {d p m : ℕ} (hcov : Covered s.t) (hd : d + m ≤ lengthOf s.t.arr)
    (hsrc : p + m ≤ lengthOf s.t.arr) :
    Ensures (moveFarr d p m) s (fun _ s' => FarrMoved s s' d p m) := by
  unfold moveFarr
  apply meets_get_bind
  cases hf : s.t.farr with
  | none => exact meets_pure (FarrMoved.of_none hf hcov)
  | some fa =>
    obtain ⟨a, ha, hlen⟩ := hcov fa hf
    rw [ha, lengthOf_some] at hd hsrc
    rw [← hlen] at hd hsrc
    obtain ⟨fa', hcopy, hlen', hdouble⟩ := arrayCopy_spec (x := fzero) hd hsrc
    -- the doubles cover the array, so nothing is made
    have hensure : Ensures farrEnsure s (fun fa₁ s₁ => fa₁ = fa ∧ s₁ = s) := by
      unfold farrEnsure
      apply meets_get_bind
      apply meets_orStuck ha
      rw [hf]
      dsimp only
      rw [if_neg (by omega)]
      apply meets_pure_bind
      apply meets_modify_bind
      refine meets_pure ⟨rfl, ?_⟩
      rw [← hf]
    apply hensure.bind
    rintro _ _ ⟨rfl, rfl⟩
    apply meets_orStuck hcopy
    apply meets_modify
    refine ⟨⟨rfl, rfl, rfl, rfl⟩, rfl, rfl, fun i => ?_, ?_, fun _ h => by cases h⟩
    · unfold LuaTable.arrDouble
      rw [hf]
      exact hdouble i
    · intro fa'' h
      cases h
      exact ⟨a, ha, hlen'.trans hlen⟩

/-- The two moves together. -/
theorem shifted_of_moved {s₁ s₂ : TabState} {d src m : ℕ} (hsame : HashSame s s₁)
    (halen : s₁.t.alen = s.t.alen) (hfarr : s₁.t.farr = s.t.farr)
    (hlen : lengthOf s₁.t.arr = lengthOf s.t.arr)
    (hslot : ∀ i, s₁.t.arrSlot i =
      if d ≤ i ∧ i < d + m then s.t.arrSlot (src + (i - d)) else s.t.arrSlot i)
    (h : FarrMoved s₁ s₂ d src m) : Shifted s s₂ d src m := by
  have hslot₂ : ∀ i, s₂.t.arrSlot i =
      if d ≤ i ∧ i < d + m then s.t.arrSlot (src + (i - d)) else s.t.arrSlot i := by
    intro i
    rw [← hslot]
    unfold LuaTable.arrSlot
    rw [h.arr]
  have hdouble : ∀ i, s₁.t.arrDouble i = s.t.arrDouble i := by
    intro i
    unfold LuaTable.arrDouble
    rw [hfarr]
  refine ⟨hsame.trans h.toHashSame, h.alen.trans halen, ?_, hslot₂, fun i => ?_, h.covered, ?_⟩
  · rw [h.arr]
    exact hlen
  · have hd := h.double i
    rw [hdouble, hdouble] at hd
    have hs := hslot₂ i
    split
    · rename_i hi
      rw [if_pos hi] at hd hs
      exact arrValue_eq_of_slot hs hd
    · rename_i hi
      rw [if_neg hi] at hd hs
      exact arrValue_eq_of_slot hs hd
  · intro hne
    apply h.some
    rw [hfarr]
    exact hne

end Lua2wasm.Table
