import Lua2wasm.Lib.Probe

/-!
# Open addressing with the entries in the slots

The same probing as in `Lib/Probe.lean`, for a table whose slots have the entries themselves and from which none is
removed. `seek` follows the slots from the home of a key to the first that is empty or has an entry that it hits. Under
`Placed` it ends, and it misses no entry from its home (`Placed.seek_empty`); to fill the empty slot that it has found
keeps the invariant (`Placed.fill`).
-/

namespace Probe

variable {α : Type*}

/-- The first slot from `h` on that is empty or has an entry for which `hit` holds. -/
def seek (slots : List (Option α)) (mask : ℕ) (hit : α → Bool) : ℕ → ℕ → Option ℕ
  | 0, _ => none
  | fuel + 1, h =>
    match slots[h]? with
    | none => none
    | some none => some h
    | some (some e) => if hit e then some h else seek slots mask hit fuel (next mask h)

/-- Every entry is reached from its home over slots that are taken, and some slot is empty. -/
structure Placed (slots : List (Option α)) (mask : ℕ) (home : α → ℕ) : Prop where
  /-- The number of slots is a power of two. -/
  size : ∃ b, mask + 1 = 2^b
  /-- The mask goes with the slots. -/
  length : slots.length = mask + 1
  /-- No empty slot separates an entry from its home. -/
  chain : ∀ s e, slots[s]? = some (some e) → ∃ d ≤ mask, after mask (home e) d = s ∧
    ∀ c < d, slots[after mask (home e) c]? ≠ some none
  /-- A slot is empty. -/
  room : slots.countP Option.isSome ≤ mask

variable {slots : List (Option α)} {mask h d s : ℕ} {home : α → ℕ} {hit : α → Bool} {e : α}

/-- The slots that a search passes over. -/
def Passed (slots : List (Option α)) (mask : ℕ) (hit : α → Bool) (h d : ℕ) : Prop :=
  ∀ c < d, ∃ e, slots[after mask h c]? = some (some e) ∧ hit e = false

theorem seek_skip (hsize : ∃ b, mask + 1 = 2^b) :
    ∀ {d : ℕ} (fuel : ℕ), Passed slots mask hit h d →
      seek slots mask hit (fuel + d) (after mask h 0) = seek slots mask hit fuel (after mask h d) := by
  intro d
  induction d with
  | zero =>
    intro fuel _
    rfl
  | succ d ih =>
    intro fuel hpass
    have hskip := ih (fuel + 1) fun c hc => hpass c (Nat.lt_succ_of_lt hc)
    obtain ⟨e, he, hmiss⟩ := hpass d (Nat.lt_succ_self d)
    rw [Nat.add_right_comm] at hskip
    rw [← Nat.add_assoc, hskip, seek, he]
    dsimp only
    rw [hmiss, if_neg Bool.false_ne_true, next_after hsize]

namespace Placed

/-- What is in a slot within the mask. -/
theorem slot (hp : Placed slots mask home) (hs : s ≤ mask) :
    slots[s]? = some none ∨ ∃ e, slots[s]? = some (some e) := by
  have hlt : s < slots.length := by
    rw [hp.length]
    exact Nat.lt_succ_of_le hs
  rw [List.getElem?_eq_getElem hlt]
  cases slots[s] with
  | none => exact Or.inl rfl
  | some e => exact Or.inr ⟨e, rfl⟩

theorem exists_empty (hp : Placed slots mask home) : ∃ s ≤ mask, slots[s]? = some none := by
  by_contra hno
  have hall : ∀ w ∈ slots, Option.isSome w = true := by
    intro w hw
    obtain ⟨s, hs⟩ := List.getElem?_of_mem hw
    have hlt := (List.getElem?_eq_some_iff.mp hs).1
    rw [hp.length] at hlt
    cases w with
    | none => exact absurd ⟨s, Nat.le_of_lt_succ hlt, hs⟩ hno
    | some e => rfl
  have hcount := List.countP_eq_length.mpr hall
  rw [hp.length] at hcount
  have := hp.room
  omega

/-- A search ends, at an empty slot or at a hit, and passes over the slots before it. -/
theorem seek_spec (hp : Placed slots mask home) (hle : h ≤ mask) (hit : α → Bool) :
    ∃ d ≤ mask, seek slots mask hit (mask + 1) h = some (after mask h d) ∧ Passed slots mask hit h d ∧
      (slots[after mask h d]? = some none ∨ ∃ e, slots[after mask h d]? = some (some e) ∧ hit e = true) := by
  classical
  obtain ⟨s, hs, hempty⟩ := hp.exists_empty
  obtain ⟨d₀, hd₀, hafter⟩ := exists_after hle hs
  have hex : ∃ d, slots[after mask h d]? = some none ∨ ∃ e, slots[after mask h d]? = some (some e) ∧ hit e = true :=
    ⟨d₀, Or.inl (by rw [hafter, hempty])⟩
  have hmin : Nat.find hex ≤ mask := (Nat.find_min' hex (Or.inl (by rw [hafter, hempty]))).trans hd₀
  have hpass : Passed slots mask hit h (Nat.find hex) := by
    intro c hc
    have hnot := Nat.find_min hex hc
    rcases hp.slot (show after mask h c ≤ mask from after_le) with h' | ⟨e, he⟩
    · exact absurd (Or.inl h') hnot
    · refine ⟨e, he, ?_⟩
      rw [← Bool.not_eq_true]
      exact fun hhit => hnot (Or.inr ⟨e, he, hhit⟩)
  refine ⟨Nat.find hex, hmin, ?_, hpass, Nat.find_spec hex⟩
  have hskip := seek_skip hp.size (mask + 1 - Nat.find hex) hpass
  have hfuel : mask + 1 - Nat.find hex = mask - Nat.find hex + 1 := by omega
  rw [after_zero hle, Nat.sub_add_cancel (by omega), hfuel] at hskip
  rw [hskip, seek]
  rcases Nat.find_spec hex with h' | ⟨e, he, hhit⟩
  · rw [h']
  · rw [he]
    exact if_pos hhit

/-- A search that ends at an empty slot has missed no entry with its home. -/
theorem seek_empty (hp : Placed slots mask home) (hd : d ≤ mask) (hpass : Passed slots mask hit (home e) d)
    (hempty : slots[after mask (home e) d]? = some none) (he : some e ∈ slots) : hit e = false := by
  obtain ⟨s, hs⟩ := List.getElem?_of_mem he
  obtain ⟨d', -, rfl, hbefore⟩ := hp.chain s e hs
  rcases lt_trichotomy d' d with hlt | rfl | hgt
  · obtain ⟨e', he', hmiss⟩ := hpass d' hlt
    rw [hs, Option.some_inj, Option.some_inj] at he'
    rw [he']
    exact hmiss
  · rw [hs] at hempty
    exact absurd hempty (by simp)
  · exact absurd hempty (hbefore d hgt)

/-- A table of empty slots. -/
theorem empty (hsize : ∃ b, mask + 1 = 2^b) : Placed (List.replicate (mask + 1) (none : Option α)) mask home where
  size := hsize
  length := List.length_replicate
  chain s e hs := by
    have := List.eq_of_mem_replicate (List.mem_of_getElem? hs)
    exact absurd this (by simp)
  room := by
    rw [List.countP_eq_zero.mpr]
    · exact Nat.zero_le _
    · intro w hw
      simp [List.eq_of_mem_replicate hw]

/-- An empty slot that a search from the home of `e` has found takes `e`. -/
theorem fill (hp : Placed slots mask home) (hd : d ≤ mask)
    (hpass : ∀ c < d, slots[after mask (home e) c]? ≠ some none)
    (hempty : slots[after mask (home e) d]? = some none) (hroom : slots.countP Option.isSome + 1 ≤ mask) :
    Placed (slots.set (after mask (home e) d) (some e)) mask home ∧
      (slots.set (after mask (home e) d) (some e)).countP Option.isSome = slots.countP Option.isSome + 1 ∧
      ∀ e', some e' ∈ slots.set (after mask (home e) d) (some e) ↔ e' = e ∨ some e' ∈ slots := by
  have hlt : after mask (home e) d < slots.length := by
    rw [hp.length]
    exact Nat.lt_succ_of_le after_le
  have hget : slots[after mask (home e) d] = none := by
    rw [List.getElem?_eq_getElem hlt] at hempty
    exact Option.some.inj hempty
  -- an occupied slot, or one beyond the list, is not the one that is filled
  have hother : ∀ s : ℕ, slots[s]? ≠ some none → (slots.set (after mask (home e) d) (some e))[s]? = slots[s]? := by
    intro s hs
    rw [List.getElem?_set_ne]
    rintro rfl
    exact hs hempty
  have hself : (slots.set (after mask (home e) d) (some e))[after mask (home e) d]? = some (some e) :=
    List.getElem?_set_self hlt
  have hcount : (slots.set (after mask (home e) d) (some e)).countP Option.isSome =
      slots.countP Option.isSome + 1 := by
    rw [List.countP_set hlt, hget]
    simp
  refine ⟨⟨hp.size, by rw [List.length_set, hp.length], ?_, by rw [hcount]; exact hroom⟩, hcount, ?_⟩
  · intro s e' hs
    by_cases hsd : s = after mask (home e) d
    · rw [hsd, hself, Option.some_inj, Option.some_inj] at hs
      subst hs
      refine ⟨d, hd, hsd.symm, ?_⟩
      intro c hc
      rw [hother _ (hpass c hc)]
      exact hpass c hc
    · rw [List.getElem?_set_ne (Ne.symm hsd)] at hs
      obtain ⟨d', hd', hs', hbefore⟩ := hp.chain s e' hs
      refine ⟨d', hd', hs', ?_⟩
      intro c hc
      rw [hother _ (hbefore c hc)]
      exact hbefore c hc
  · intro e'
    constructor
    · intro hmem
      obtain ⟨s, hs⟩ := List.getElem?_of_mem hmem
      by_cases hsd : s = after mask (home e) d
      · rw [hsd, hself, Option.some_inj, Option.some_inj] at hs
        exact Or.inl hs.symm
      · rw [List.getElem?_set_ne (Ne.symm hsd)] at hs
        exact Or.inr (List.mem_of_getElem? hs)
    · rintro (rfl | hmem)
      · exact List.mem_of_getElem? hself
      · obtain ⟨s, hs⟩ := List.getElem?_of_mem hmem
        exact List.mem_of_getElem? ((hother s (by rw [hs]; simp)).trans hs)

end Placed

end Probe
