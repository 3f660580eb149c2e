import Mathlib

/-!
# Sweeps over places that only die

A sweep goes through the places `0`, `1`, ... once, and visits those that are live when it comes to
them. Meanwhile places may die, and none comes to life. `Swept live₀ live c seen` is its invariant: `c`
is the cursor, `seen` the places visited so far, and `live₀` the places that were live at the start.
When no place from the cursor on is live, every live place was visited (`Swept.complete`), and no
place is ever visited twice (`Swept.nodup`), so that a sweep over `n` places ends (`Swept.length_le`).
-/

namespace Sweep

/-- The invariant of a sweep. -/
structure Swept (live₀ live : ℕ → Prop) (c : ℕ) (seen : List ℕ) : Prop where
  /-- The places were visited in order. -/
  sorted : seen.Pairwise (· < ·)
  /-- They are behind the cursor. -/
  behind : ∀ r ∈ seen, r < c
  /-- They were live at the start. -/
  first : ∀ r ∈ seen, live₀ r
  /-- No place came to life. -/
  fewer : ∀ r, live r → live₀ r
  /-- A place behind the cursor that is still live was visited. -/
  done : ∀ r < c, live r → r ∈ seen

variable {live₀ live live' : ℕ → Prop} {c r n : ℕ} {seen : List ℕ}

theorem swept_start : Swept live₀ live₀ 0 [] where
  sorted := List.Pairwise.nil
  behind := by simp
  first := by simp
  fewer _ h := h
  done r hr _ := absurd hr (Nat.not_lt_zero r)

/-- Places die. -/
theorem Swept.shrink (h : Swept live₀ live c seen) (hs : ∀ r, live' r → live r) :
    Swept live₀ live' c seen where
  sorted := h.sorted
  behind := h.behind
  first := h.first
  fewer r hr := h.fewer r (hs r hr)
  done r hr hl := h.done r hr (hs r hl)

/-- The next live place is visited. -/
theorem Swept.visit (h : Swept live₀ live c seen) (hc : c ≤ r) (hr : live r)
    (hskip : ∀ q, c ≤ q → q < r → ¬ live q) : Swept live₀ live (r + 1) (seen ++ [r]) where
  sorted := by
    rw [List.pairwise_append]
    refine ⟨h.sorted, List.pairwise_singleton _ _, fun a ha b hb => ?_⟩
    rw [List.mem_singleton.mp hb]
    exact Nat.lt_of_lt_of_le (h.behind a ha) hc
  behind q hq := by
    obtain hq | hq := List.mem_append.mp hq
    · have := h.behind q hq
      omega
    · rw [List.mem_singleton.mp hq]
      exact Nat.lt_succ_self r
  first q hq := by
    obtain hq | hq := List.mem_append.mp hq
    · exact h.first q hq
    · rw [List.mem_singleton.mp hq]
      exact h.fewer r hr
  fewer := h.fewer
  done q hq hl := by
    rw [List.mem_append, List.mem_singleton]
    by_cases hqc : q < c
    · exact Or.inl (h.done q hqc hl)
    · right
      by_contra hne
      exact hskip q (by omega) (by omega) hl

/-- At the end, every live place was visited. -/
theorem Swept.complete (h : Swept live₀ live c seen) (hend : ∀ q, c ≤ q → ¬ live q) (hr : live r) :
    r ∈ seen := by
  by_cases hc : r < c
  · exact h.done r hc hr
  · exact absurd hr (hend r (by omega))

theorem Swept.nodup (h : Swept live₀ live c seen) : seen.Nodup :=
  h.sorted.imp fun hlt => Nat.ne_of_lt hlt

/-- A sweep visits no more places than there are. -/
theorem Swept.length_le (h : Swept live₀ live c seen) (hn : ∀ r, live₀ r → r < n) : seen.length ≤ n := by
  have hsub : seen ⊆ List.range n := fun r hr => List.mem_range.mpr (hn r (h.first r hr))
  calc seen.length ≤ (List.range n).length := (h.nodup.subperm hsub).length_le
    _ = n := List.length_range

end Sweep
