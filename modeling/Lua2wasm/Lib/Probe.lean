import Mathlib

/-!
# Open addressing with linear probing

An index is a list of slots whose length is a power of two: 0 is an empty slot, `i + 1` is the
entry `i`, and a negative number is a slot whose entry was removed. `lookup` follows the slots from
the home of a key to the entry that it hits, and `place` follows them to an empty slot. Neither loop
has a bound of its own; the bound here is the number of slots, after which a loop would only see
the slots that it has seen before, so that `none` is a loop that never ends.

`Indexed idx mask home n` is the invariant: the entries `0`, ..., `n - 1` are in the index, and no
empty slot separates an entry from its home. Under it a lookup ends and finds exactly the entries
that are there (`Indexed.lookup_hit`, `Indexed.lookup_miss`), and `place` keeps it
(`Indexed.place`).
-/

namespace Probe

/-- A slot of a list with one slot written. -/
theorem of_getElem?_set {α : Type} {l : List α} {i j : ℕ} {a b : α} (h : (l.set i a)[j]? = some b) :
    (j = i ∧ b = a) ∨ (j ≠ i ∧ l[j]? = some b) := by
  by_cases heq : j = i
  · subst heq
    obtain ⟨_, hb⟩ := List.getElem?_eq_some_iff.mp h
    exact Or.inl ⟨rfl, by rw [← hb, List.getElem_set_self]⟩
  · rw [List.getElem?_set_ne (Ne.symm heq)] at h
    exact Or.inr ⟨heq, h⟩

/-- The slot after `h`. -/
def next (mask h : ℕ) : ℕ := mask &&& (h + 1)

/-- Follow the slots from `h` to the first entry for which `hit` holds, or to an empty slot. -/
def lookup (idx : List ℤ) (mask : ℕ) (hit : ℕ → Option Bool) : ℕ → ℕ → Option (Option ℕ)
  | 0, _ => none
  | fuel + 1, h =>
    match idx[h]? with
    | none => none
    | some slot =>
      if slot = 0 then some none
      else if 0 < slot then
        match hit (slot - 1).toNat with
        | none => none
        | some true => some (some (slot - 1).toNat)
        | some false => lookup idx mask hit fuel (next mask h)
      else lookup idx mask hit fuel (next mask h)

/-- Write `v` to the first empty slot from `h` on. -/
def place (idx : List ℤ) (mask : ℕ) (v : ℤ) : ℕ → ℕ → Option (List ℤ)
  | 0, _ => none
  | fuel + 1, h =>
    match idx[h]? with
    | none => none
    | some slot => if slot = 0 then some (idx.set h v) else place idx mask v fuel (next mask h)

/-- Write `v` to the first slot from `h` on whose entry was removed, if an empty slot does not come
first; otherwise to the empty slot. The result says whether an empty slot was taken. -/
def placeReusing (idx : List ℤ) (mask : ℕ) (v : ℤ) : ℕ → ℕ → Option ℕ → Option (List ℤ × Bool)
  | 0, _, _ => none
  | fuel + 1, h, removed =>
    match idx[h]? with
    | none => none
    | some slot =>
      if slot = 0 then
        match removed with
        | some r => some (idx.set r v, false)
        | none => some (idx.set h v, true)
      else
        placeReusing idx mask v fuel (next mask h)
          (if slot < 0 ∧ removed = none then some h else removed)

/-- The slot `d` steps after the slot `h`. -/
def after (mask h d : ℕ) : ℕ := (h + d) % (mask + 1)

/-- The entries `0`, ..., `n - 1`, each with its home, are in the index, with no empty slot between
an entry and its home. -/
structure Indexed (idx : List ℤ) (mask : ℕ) (home : ℕ → ℕ) (n : ℕ) : Prop where
  /-- The number of slots is a power of two. -/
  size : ∃ b, mask + 1 = 2^b
  /-- The mask goes with the index. -/
  length : idx.length = mask + 1
  /-- A slot is empty or has one of the entries. -/
  sound : ∀ s, s ≤ mask → idx[s]? = some 0 ∨ ∃ i < n, idx[s]? = some ((i : ℤ) + 1)
  /-- Every entry is reached from its home. -/
  chain : ∀ i, i < n → ∃ d ≤ mask, idx[after mask (home i) d]? = some ((i : ℤ) + 1) ∧
    ∀ e < d, idx[after mask (home i) e]? ≠ some 0
  /-- As many slots are taken as there are entries. -/
  occupied : idx.countP (· ≠ 0) = n
  /-- A slot is empty. -/
  room : n ≤ mask

variable {idx : List ℤ} {mask n h d : ℕ} {home : ℕ → ℕ} {hit : ℕ → Option Bool}

theorem next_eq (hsize : ∃ b, mask + 1 = 2^b) (h : ℕ) : next mask h = (h + 1) % (mask + 1) := by
  obtain ⟨b, hb⟩ := hsize
  have hmask : mask = 2^b - 1 := by omega
  unfold next
  rw [hb, hmask, Nat.and_comm, Nat.and_two_pow_sub_one_eq_mod]

theorem and_mask_le (h : ℕ) : mask &&& h ≤ mask := Nat.and_le_left

theorem after_le : after mask h d ≤ mask := Nat.le_of_lt_succ (Nat.mod_lt _ (Nat.succ_pos _))

theorem after_zero (hle : h ≤ mask) : after mask h 0 = h := Nat.mod_eq_of_lt (Nat.lt_succ_of_le hle)

theorem next_after (hsize : ∃ b, mask + 1 = 2^b) : next mask (after mask h d) = after mask h (d + 1) := by
  rw [next_eq hsize]
  unfold after
  rw [Nat.mod_add_mod, Nat.add_assoc]

/-- Every slot is some number of steps after the slot `h`. -/
theorem exists_after {s : ℕ} (hle : h ≤ mask) (hs : s ≤ mask) : ∃ d ≤ mask, after mask h d = s := by
  unfold after
  by_cases hsh : h ≤ s
  · refine ⟨s - h, by omega, ?_⟩
    rw [Nat.add_sub_cancel' hsh, Nat.mod_eq_of_lt (by omega)]
  · refine ⟨s + (mask + 1) - h, by omega, ?_⟩
    rw [Nat.add_sub_cancel' (by omega), Nat.add_mod_right, Nat.mod_eq_of_lt (by omega)]

/-- What a lookup does at a slot that does not settle it. -/
theorem lookup_step {fuel : ℕ} (hsize : ∃ b, mask + 1 = 2^b)
    (hpass : ∃ v, idx[after mask h d]? = some v ∧ v ≠ 0 ∧
      (0 < v → hit (v - 1).toNat = some false)) :
    lookup idx mask hit (fuel + 1) (after mask h d) =
      lookup idx mask hit fuel (after mask h (d + 1)) := by
  obtain ⟨v, hv, hne, hmiss⟩ := hpass
  rw [lookup, hv]
  simp only
  rw [if_neg hne, next_after hsize]
  split
  · rename_i hpos
    rw [hmiss hpos]
  · rfl

/-- A lookup passes over the slots that do not settle it. -/
theorem lookup_skip (hsize : ∃ b, mask + 1 = 2^b) :
    ∀ {d : ℕ} (fuel : ℕ), (∀ e < d, ∃ v, idx[after mask h e]? = some v ∧ v ≠ 0 ∧
      (0 < v → hit (v - 1).toNat = some false)) →
    lookup idx mask hit (fuel + d) (after mask h 0) = lookup idx mask hit fuel (after mask h d) := by
  intro d
  induction d with
  | zero => intro fuel _; rfl
  | succ d ih =>
    intro fuel hpass
    have hskip := ih (fuel + 1) fun e he => hpass e (Nat.lt_succ_of_lt he)
    rw [Nat.add_right_comm] at hskip
    rw [← Nat.add_assoc, hskip]
    exact lookup_step hsize (hpass d (Nat.lt_succ_self d))

theorem place_skip {v : ℤ} (hsize : ∃ b, mask + 1 = 2^b) :
    ∀ {d : ℕ} (fuel : ℕ), (∀ e < d, ∃ w, idx[after mask h e]? = some w ∧ w ≠ 0) →
    place idx mask v (fuel + d) (after mask h 0) = place idx mask v fuel (after mask h d) := by
  intro d
  induction d with
  | zero => intro fuel _; rfl
  | succ d ih =>
    intro fuel hpass
    have hskip := ih (fuel + 1) fun e he => hpass e (Nat.lt_succ_of_lt he)
    rw [Nat.add_right_comm] at hskip
    rw [← Nat.add_assoc, hskip]
    obtain ⟨w, hw, hne⟩ := hpass d (Nat.lt_succ_self d)
    rw [place, hw]
    simp only
    rw [if_neg hne, next_after hsize]

theorem placeReusing_eq_place {v : ℤ} (hnn : ∀ (s : ℕ) (w : ℤ), idx[s]? = some w → 0 ≤ w) :
    ∀ {fuel h : ℕ}, placeReusing idx mask v fuel h none =
      (place idx mask v fuel h).map (fun idx' => (idx', true)) := by
  intro fuel
  induction fuel with
  | zero => intro h; rfl
  | succ fuel ih =>
    intro h
    rw [placeReusing, place]
    cases hs : idx[h]? with
    | none => rfl
    | some slot =>
      simp only
      have hw := hnn h slot hs
      split
      · rfl
      · rw [if_neg (by omega), ih]

namespace Indexed

theorem nonneg (hi : Indexed idx mask home n) {s : ℕ} {w : ℤ} (hw : idx[s]? = some w) : 0 ≤ w := by
  have hs : s ≤ mask := by
    have hlt := (List.getElem?_eq_some_iff.mp hw).1
    rw [hi.length] at hlt
    exact Nat.le_of_lt_succ hlt
  obtain h0 | ⟨i, -, h1⟩ := hi.sound s hs
  · rw [hw] at h0
    cases h0
    exact Int.le_refl 0
  · rw [hw] at h1
    cases h1
    omega

/-- A slot with something in it has an entry. -/
theorem entry_of_ne (hi : Indexed idx mask home n) {s : ℕ} (hs : s ≤ mask)
    (hne : idx[s]? ≠ some 0) : ∃ i < n, idx[s]? = some ((i : ℤ) + 1) := by
  obtain h0 | h1 := hi.sound s hs
  · exact absurd h0 hne
  · exact h1

/-- Some slot is empty. -/
theorem exists_empty (hi : Indexed idx mask home n) : ∃ s ≤ mask, idx[s]? = some 0 := by
  by_contra hno
  have hall : ∀ w ∈ idx, decide (w ≠ 0) = true := by
    intro w hw
    obtain ⟨s, hs⟩ := List.getElem?_of_mem hw
    have hlt := (List.getElem?_eq_some_iff.mp hs).1
    rw [hi.length] at hlt
    simp only [decide_eq_true_eq]
    rintro rfl
    exact hno ⟨s, Nat.le_of_lt_succ hlt, hs⟩
  have hcount := List.countP_eq_length.mpr hall
  rw [hi.length] at hcount
  have hocc := hi.occupied
  have hroom := hi.room
  omega

/-- The first slot from `h` on that is empty. -/
theorem exists_first_empty (hi : Indexed idx mask home n) (hle : h ≤ mask) :
    ∃ d ≤ mask, idx[after mask h d]? = some 0 ∧ ∀ e < d, idx[after mask h e]? ≠ some 0 := by
  obtain ⟨s, hs, h0⟩ := hi.exists_empty
  obtain ⟨d, hd, hafter⟩ := exists_after hle hs
  have hex : ∃ d, idx[after mask h d]? = some 0 := ⟨d, by rw [hafter]; exact h0⟩
  have hfind := Nat.find_min' hex (m := d) (by rw [hafter]; exact h0)
  exact ⟨Nat.find hex, by omega, Nat.find_spec hex, fun e he => Nat.find_min hex he⟩

/-- A lookup whose key hits no entry ends at an empty slot. -/
theorem lookup_miss (hi : Indexed idx mask home n) (hle : h ≤ mask)
    (hmiss : ∀ i < n, hit i = some false) : lookup idx mask hit (mask + 1) h = some none := by
  obtain ⟨d, hd, h0, hbefore⟩ := hi.exists_first_empty hle
  have hpass : ∀ e < d, ∃ v, idx[after mask h e]? = some v ∧ v ≠ 0 ∧
      (0 < v → hit (v - 1).toNat = some false) := by
    intro e he
    obtain ⟨i, hin, hslot⟩ := hi.entry_of_ne after_le (hbefore e he)
    refine ⟨_, hslot, by omega, fun _ => ?_⟩
    have hpos : ((i : ℤ) + 1 - 1).toNat = i := by omega
    rw [hpos]
    exact hmiss i hin
  have hskip : lookup idx mask hit (mask + 1 - d + d) (after mask h 0) =
      lookup idx mask hit (mask + 1 - d) (after mask h d) := lookup_skip hi.size _ hpass
  rw [after_zero hle, Nat.sub_add_cancel (by omega)] at hskip
  have hfuel : mask + 1 - d = mask - d + 1 := by omega
  rw [hskip, hfuel, lookup, h0]
  rfl

/-- A lookup whose key hits exactly one entry, from the home of that entry, finds it. -/
theorem lookup_hit (hi : Indexed idx mask home n) {i : ℕ} (hin : i < n) (hle : home i ≤ mask)
    (hhit : hit i = some true) (honly : ∀ j < n, j ≠ i → hit j = some false) :
    lookup idx mask hit (mask + 1) (home i) = some (some i) := by
  obtain ⟨d, hd, hslot, hbefore⟩ := hi.chain i hin
  -- the entry may be in an earlier slot of the chain as well; the first one settles the lookup
  have hex : ∃ d, idx[after mask (home i) d]? = some ((i : ℤ) + 1) := ⟨d, hslot⟩
  have hfirst := Nat.find_min' hex hslot
  have hpass : ∀ e < Nat.find hex, ∃ v, idx[after mask (home i) e]? = some v ∧ v ≠ 0 ∧
      (0 < v → hit (v - 1).toNat = some false) := by
    intro e he
    obtain ⟨j, hjn, hj⟩ := hi.entry_of_ne after_le (hbefore e (by omega))
    refine ⟨_, hj, by omega, fun _ => ?_⟩
    have hpos : ((j : ℤ) + 1 - 1).toNat = j := by omega
    rw [hpos]
    apply honly j hjn
    rintro rfl
    exact Nat.find_min hex he hj
  have hskip : lookup idx mask hit (mask + 1 - Nat.find hex + Nat.find hex) (after mask (home i) 0) =
      lookup idx mask hit (mask + 1 - Nat.find hex) (after mask (home i) (Nat.find hex)) :=
    lookup_skip hi.size _ hpass
  rw [after_zero hle, Nat.sub_add_cancel (by omega)] at hskip
  have hfuel : mask + 1 - Nat.find hex = mask - Nat.find hex + 1 := by omega
  have hpos : ((i : ℤ) + 1 - 1).toNat = i := by omega
  rw [hskip, hfuel, lookup, Nat.find_spec hex]
  simp only
  rw [if_neg (by omega), if_pos (by omega), hpos, hhit]

/-- The invariant depends only on the homes of its entries. -/
theorem congr (hi : Indexed idx mask home n) {home' : ℕ → ℕ} (heq : ∀ i < n, home' i = home i) :
    Indexed idx mask home' n where
  size := hi.size
  length := hi.length
  sound := hi.sound
  chain i hin := by
    rw [heq i hin]
    exact hi.chain i hin
  occupied := hi.occupied
  room := hi.room

/-- An index with nothing in it. -/
theorem empty (hsize : ∃ b, mask + 1 = 2^b) :
    Indexed (List.replicate (mask + 1) 0) mask home 0 where
  size := hsize
  length := List.length_replicate
  sound s hs := Or.inl (by rw [List.getElem?_replicate, if_pos (Nat.lt_succ_of_le hs)])
  chain i hin := absurd hin (Nat.not_lt_zero i)
  occupied := by
    rw [List.countP_eq_zero]
    intro w hw
    simp [List.eq_of_mem_replicate hw]
  room := Nat.zero_le _

/-- Placing the next entry, from its home, finds a slot and keeps the invariant. -/
theorem place (hi : Indexed idx mask home n) (hle : home n ≤ mask) (hroom : n + 1 ≤ mask) :
    ∃ idx', Probe.place idx mask ((n : ℤ) + 1) (mask + 1) (home n) = some idx' ∧
      Indexed idx' mask home (n + 1) := by
  obtain ⟨d, hd, h0, hbefore⟩ := hi.exists_first_empty hle
  have hpass : ∀ e < d, ∃ w, idx[after mask (home n) e]? = some w ∧ w ≠ 0 := by
    intro e he
    obtain ⟨j, -, hj⟩ := hi.entry_of_ne after_le (hbefore e he)
    exact ⟨_, hj, by omega⟩
  have hskip : Probe.place idx mask ((n : ℤ) + 1) (mask + 1 - d + d) (after mask (home n) 0) =
      Probe.place idx mask ((n : ℤ) + 1) (mask + 1 - d) (after mask (home n) d) :=
    place_skip hi.size _ hpass
  rw [after_zero hle, Nat.sub_add_cancel (by omega)] at hskip
  have hfuel : mask + 1 - d = mask - d + 1 := by omega
  refine ⟨idx.set (after mask (home n) d) ((n : ℤ) + 1), ?_, ?_⟩
  · rw [hskip, hfuel, Probe.place, h0]
    rfl
  · -- the slot was empty, so every chain that there was is still there
    have hlt : after mask (home n) d < idx.length := by
      rw [hi.length]
      exact Nat.lt_succ_of_le after_le
    have hother : ∀ s : ℕ, idx[s]? ≠ some 0 → (idx.set (after mask (home n) d) ((n : ℤ) + 1))[s]? = idx[s]? := by
      intro s hs
      rw [List.getElem?_set_ne]
      rintro rfl
      exact hs h0
    have hself : (idx.set (after mask (home n) d) ((n : ℤ) + 1))[after mask (home n) d]? =
        some ((n : ℤ) + 1) := List.getElem?_set_self hlt
    constructor
    · exact hi.size
    · rw [List.length_set, hi.length]
    · intro s hs
      by_cases hsd : s = after mask (home n) d
      · right
        exact ⟨n, Nat.lt_succ_self n, by rw [hsd, hself]⟩
      · rw [List.getElem?_set_ne (Ne.symm hsd)]
        obtain hz | ⟨i, hin, hslot⟩ := hi.sound s hs
        · exact Or.inl hz
        · exact Or.inr ⟨i, Nat.lt_succ_of_lt hin, hslot⟩
    · intro i hin
      obtain hlt' | rfl := Nat.lt_succ_iff_lt_or_eq.mp hin
      · obtain ⟨d', hd', hslot, hbefore'⟩ := hi.chain i hlt'
        refine ⟨d', hd', ?_, fun e he => ?_⟩
        · rw [hother _ (by rw [hslot]; simp; omega)]
          exact hslot
        · rw [hother _ (hbefore' e he)]
          exact hbefore' e he
      · refine ⟨d, hd, hself, fun e he => ?_⟩
        rw [hother _ (hbefore e he)]
        exact hbefore e he
    · have hget : idx[after mask (home n) d] = 0 := by
        have hz := List.getElem?_eq_getElem hlt
        rw [h0] at hz
        exact (Option.some.inj hz).symm
      rw [List.countP_set hlt, hget, hi.occupied]
      have hne : (n : ℤ) + 1 ≠ 0 := by omega
      simp [hne]
    · exact hroom

/-- The same, for the insertion that would reuse the slot of a removed entry. -/
theorem placeReusing (hi : Indexed idx mask home n) (hle : home n ≤ mask) (hroom : n + 1 ≤ mask) :
    ∃ idx', Probe.placeReusing idx mask ((n : ℤ) + 1) (mask + 1) (home n) none = some (idx', true) ∧
      Indexed idx' mask home (n + 1) := by
  obtain ⟨idx', hplace, hi'⟩ := hi.place hle hroom
  refine ⟨idx', ?_, hi'⟩
  rw [placeReusing_eq_place fun s w hw => hi.nonneg hw, hplace]
  rfl

end Indexed

end Probe
