import Mathlib.Data.List.Basic

/-!
# Ordered choice

The results of a search with backtracking, as the list of its outcomes in the order in which the search
comes to them. An outcome is a result, or an error that ends the search. What a search does is the first of
its outcomes (`Outcomes.first`), so a search that tries one thing after another appends their outcomes.

`Approx c d` says that `d` is what `c` becomes if it goes on where it has its first error: an error knows
nothing of what comes after it. Both ways to build a choice preserve it, and up to an error the first
outcomes are the same (`Approx.first_ok`).
-/

/-- The outcomes of a search, in their order. -/
abbrev Outcomes (ε α : Type) := List (Except ε α)

namespace Outcomes

variable {ε ε' α β : Type}

/-- The first outcome: an error, a result or nothing. -/
def first : Outcomes ε α → Except ε (Option α)
  | [] => .ok none
  | .ok a :: _ => .ok (some a)
  | .error e :: _ => .error e

@[simp] theorem first_nil : first ([] : Outcomes ε α) = .ok none := rfl

@[simp] theorem first_ok_cons (a : α) (c : Outcomes ε α) : first (.ok a :: c) = .ok (some a) := rfl

@[simp] theorem first_error_cons (e : ε) (c : Outcomes ε α) : first (.error e :: c) = .error e := rfl

/-- If the first part has no outcome, the search goes on to the second. -/
theorem first_append_of_none {c d : Outcomes ε α} (h : first c = .ok none) : first (c ++ d) = first d := by
  cases c with
  | nil => rfl
  | cons r c =>
    cases r with
    | ok a => cases h
    | error e => cases h

/-- If the first part has an outcome, that is the outcome. -/
theorem first_append_of_some {c d : Outcomes ε α} {a : α} (h : first c = .ok (some a)) :
    first (c ++ d) = .ok (some a) := by
  cases c with
  | nil => cases h
  | cons r c =>
    cases r with
    | ok b => exact h
    | error e => cases h

theorem first_append_of_error {c d : Outcomes ε α} {e : ε} (h : first c = .error e) : first (c ++ d) = .error e := by
  cases c with
  | nil => cases h
  | cons r c =>
    cases r with
    | ok b => cases h
    | error e' => exact h

/-- The second choice goes on from the first error of the first. -/
inductive Approx : Outcomes ε α → Outcomes ε' α → Prop
  /-- Two choices that are at their end. -/
  | nil : Approx [] []
  /-- The same result. -/
  | cons (a : α) {c : Outcomes ε α} {d : Outcomes ε' α} : Approx c d → Approx (.ok a :: c) (.ok a :: d)
  /-- An error, and anything. -/
  | error (e : ε) (c : Outcomes ε α) (d : Outcomes ε' α) : Approx (.error e :: c) d

/-- A choice without an error is what it becomes. -/
theorem Approx.first_ok {c : Outcomes ε α} {d : Outcomes ε' α} (h : Approx c d) {r : Option α} (hc : first c = .ok r) :
    first d = .ok r := by
  cases h with
  | nil =>
    cases hc
    rfl
  | cons a _ =>
    cases hc
    rfl
  | error e c d => cases hc

theorem Approx.append {c₁ c₂ : Outcomes ε α} {d₁ d₂ : Outcomes ε' α} (h₁ : Approx c₁ d₁) (h₂ : Approx c₂ d₂) :
    Approx (c₁ ++ c₂) (d₁ ++ d₂) := by
  induction h₁ with
  | nil => exact h₂
  | cons a _ ih => exact .cons a ih
  | error e c d => exact .error e _ _

theorem Approx.flatMap {ι : Type} (l : List ι) {f : ι → Outcomes ε α} {g : ι → Outcomes ε' α}
    (h : ∀ i ∈ l, Approx (f i) (g i)) : Approx (l.flatMap f) (l.flatMap g) := by
  induction l with
  | nil => exact .nil
  | cons i l ih =>
    rw [List.flatMap_cons, List.flatMap_cons]
    exact (h i List.mem_cons_self).append (ih fun j hj => h j (List.mem_cons_of_mem i hj))

end Outcomes
