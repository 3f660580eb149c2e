import Mathlib.Data.List.Basic
import Mathlib.Tactic.Common

/-!
# The lowest occurrence of a run

Where a list has another one as a run. The lowest place of a run stays the lowest when something is appended
(`lowest_append_iff`). But where a run is appended because it was nowhere, its lowest place need not be the one that was
made for it: it may begin before and overlap the end (`Straddles`), as `aba` does behind `ab`.
-/

namespace Occurrence

variable {α : Type*}

/-- `run` is at `i` in `xs`. -/
def At (xs run : List α) (i : ℕ) : Prop := (xs.drop i).take run.length = run

instance [DecidableEq α] (xs run : List α) (i : ℕ) : Decidable (At xs run i) := inferInstanceAs (Decidable (_ = _))

/-- `i` is the first place of `run` in `xs`. -/
structure Lowest (xs run : List α) (i : ℕ) : Prop where
  here : At xs run i
  least : ∀ j < i, ¬At xs run j

/-- The first place, if there is one. -/
def lowest [DecidableEq α] (xs run : List α) : Option ℕ := (List.range (xs.length + 1)).find? fun i => At xs run i

/-- Appended, the run begins before the end. -/
def Straddles (xs run : List α) : Prop := (∀ i ≤ xs.length, ¬At xs run i) ∧ ∃ i < xs.length, At (xs ++ run) run i

instance [DecidableEq α] (xs run : List α) : Decidable (Straddles xs run) := inferInstanceAs (Decidable (_ ∧ _))

variable {xs ys run : List α} {i j : ℕ}

theorem At.le (h : At xs run i) (hne : run ≠ []) : i + run.length ≤ xs.length := by
  have hpos := List.length_pos_iff.mpr hne
  have hlen := congrArg List.length h
  rw [List.length_take, List.length_drop] at hlen
  omega

theorem at_append_iff (hle : i + run.length ≤ xs.length) : At (xs ++ ys) run i ↔ At xs run i := by
  unfold At
  rw [List.drop_append_of_le_length (by omega), List.take_append_of_le_length]
  rw [List.length_drop]
  omega

theorem lowest_append_iff (hle : i + run.length ≤ xs.length) : Lowest (xs ++ ys) run i ↔ Lowest xs run i := by
  constructor
  · rintro ⟨hat, hleast⟩
    exact ⟨(at_append_iff hle).mp hat, fun j hj h => hleast j hj ((at_append_iff (by omega)).mpr h)⟩
  · rintro ⟨hat, hleast⟩
    exact ⟨(at_append_iff hle).mpr hat, fun j hj h => hleast j hj ((at_append_iff (by omega)).mp h)⟩

/-- The run that was appended is at the end, and it is there first unless it straddles. -/
theorem lowest_appended_iff (hnone : ∀ i, ¬At xs run i) : Lowest (xs ++ run) run xs.length ↔ ¬Straddles xs run := by
  constructor
  · rintro ⟨-, hleast⟩ ⟨-, i, hi, hat⟩
    exact hleast i hi hat
  · intro h
    constructor
    · unfold At
      rw [List.drop_left, List.take_length]
    · intro j hj hat
      exact h ⟨fun i _ => hnone i, j, hj, hat⟩

theorem not_straddles (h : At xs run i) (hne : run ≠ []) : ¬Straddles xs run := by
  have := h.le hne
  rintro ⟨hnone, -⟩
  exact hnone i (by omega) h

theorem Lowest.unique (h : Lowest xs run i) (h' : Lowest xs run j) : i = j := by
  rcases Nat.lt_trichotomy i j with hlt | heq | hgt
  · exact absurd h.here (h'.least i hlt)
  · exact heq
  · exact absurd h'.here (h.least j hgt)

section

variable [DecidableEq α]

theorem lowest_eq_some (hne : run ≠ []) : lowest xs run = some i ↔ Lowest xs run i := by
  unfold lowest
  rw [List.find?_range_eq_some, List.mem_range]
  simp only [decide_eq_true_eq, Bool.not_eq_eq_eq_not, Bool.not_true, decide_eq_false_iff_not]
  constructor
  · rintro ⟨hat, -, hleast⟩
    exact ⟨hat, hleast⟩
  · rintro ⟨hat, hleast⟩
    have := hat.le hne
    exact ⟨hat, by omega, hleast⟩

theorem lowest_eq_none (hne : run ≠ []) : lowest xs run = none ↔ ∀ i, ¬At xs run i := by
  unfold lowest
  rw [List.find?_range_eq_none]
  simp only [Bool.not_eq_eq_eq_not, Bool.not_true, decide_eq_false_iff_not]
  constructor
  · intro h i hat
    have := hat.le hne
    exact h i (by omega) hat
  · exact fun h i _ => h i

theorem lowest_nil (xs : List α) : lowest xs [] = some 0 := by
  unfold lowest
  rw [List.find?_range_eq_some]
  exact ⟨by simp [At], by simp, fun j hj => absurd hj (Nat.not_lt_zero j)⟩

end

end Occurrence
