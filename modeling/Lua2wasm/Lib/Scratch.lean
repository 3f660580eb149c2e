import Mathlib

/-!
# Computations that take scratch cells

A computation takes scratch cells from a stack and gives them back. `Peak` bounds the cells in use at every allocation
of a run, and `Steady` adds that the run gives back what it took. Bounds are absolute: to run in `N` cells from `d` in
use, a computation that needs `n` more asks for `d + n ≤ N`.
-/

namespace Scratch

variable {σ α β : Type}

/-- How a state shows the cells in use, and the number in use after each allocation so far, in order. -/
structure Gauge (σ : Type) where
  /-- The number of cells in use. -/
  depth : σ → ℕ
  /-- The number in use after each allocation. -/
  marks : σ → List ℕ

/-- From `d` cells in use, no allocation of a run brings the cells in use above `N`, and `Q` holds of the result and
the cells in use at the end. -/
def Peak (g : Gauge σ) (N d : ℕ) (m : StateM σ α) (Q : α → ℕ → Prop) : Prop :=
  ∀ s, g.depth s = d → Q (m.run s).1 (g.depth (m.run s).2) ∧
    ∃ l, g.marks (m.run s).2 = g.marks s ++ l ∧ ∀ k ∈ l, k ≤ N

/-- As `Peak`, and all cells are given back. -/
def Steady (g : Gauge σ) (N d : ℕ) (m : StateM σ α) : Prop := Peak g N d m fun _ d' => d' = d

variable {g : Gauge σ} {N d : ℕ} {m : StateM σ α} {f : α → StateM σ β} {Q Q' : α → ℕ → Prop} {R : β → ℕ → Prop}

theorem peak_pure {a : α} (h : Q a d) : Peak g N d (pure a) Q :=
  fun _ hs => ⟨hs ▸ h, [], (List.append_nil _).symm, fun _ hk => absurd hk List.not_mem_nil⟩

theorem Peak.bind (h : Peak g N d m Q) (hf : ∀ a d', Q a d' → Peak g N d' (f a) R) :
    Peak g N d (m >>= f) R := by
  intro s hs
  obtain ⟨hQ, l, hl, hlN⟩ := h s hs
  obtain ⟨hR, l', hl', hlN'⟩ := hf _ _ hQ (m.run s).2 rfl
  refine ⟨hR, l ++ l', ?_, fun k hk => ?_⟩
  · have hrun : ((m >>= f).run s).2 = ((f (m.run s).1).run (m.run s).2).2 := rfl
    rw [hrun, hl', hl, List.append_assoc]
  · exact (List.mem_append.mp hk).elim (hlN k) (hlN' k)

theorem Peak.mono (h : Peak g N d m Q) (hQ : ∀ a d', Q a d' → Q' a d') : Peak g N d m Q' :=
  fun s hs => (h s hs).imp_left (hQ _ _)

/-- A computation that allocates nothing and leaves the cells in use as they are. -/
theorem steady_of_frame (h : ∀ s, g.depth (m.run s).2 = g.depth s ∧ g.marks (m.run s).2 = g.marks s) :
    Steady g N d m :=
  fun s hs => ⟨(h s).1.trans hs, [], (h s).2.trans (List.append_nil _).symm, fun _ hk => absurd hk List.not_mem_nil⟩

theorem steady_pure (a : α) : Steady g N d (pure a : StateM σ α) := peak_pure rfl

theorem Steady.bind (h : Steady g N d m) (hf : ∀ a, Peak g N d (f a) R) : Peak g N d (m >>= f) R :=
  Peak.bind h fun a _ hd => hd ▸ hf a

/-- A run that gives everything back may be the last of a longer one. -/
theorem Steady.seq {m' : StateM σ β} (h : Steady g N d m) (h' : Steady g N d m') :
    Steady g N d (m >>= fun _ => m') :=
  h.bind fun _ => h'

theorem steady_ite {p : Prop} [Decidable p] {m m' : StateM σ α} (h : p → Steady g N d m) (h' : ¬p → Steady g N d m') :
    Steady g N d (if p then m else m') := by
  split
  · next hp => exact h hp
  · next hp => exact h' hp

/-- The allocations of a whole run that starts with none. -/
theorem Peak.marks_le (h : Peak g N d m Q) {s : σ} (hs : g.depth s = d) (hempty : g.marks s = []) :
    ∀ k ∈ g.marks (m.run s).2, k ≤ N := by
  obtain ⟨-, l, hl, hlN⟩ := h s hs
  rw [hl, hempty, List.nil_append]
  exact hlN

end Scratch
