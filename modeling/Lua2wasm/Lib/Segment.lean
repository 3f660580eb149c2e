import Mathlib

/-!
# Segments of a sequence

A sequence is a function on the integers, and a segment of it are its values at the positions `lo`, ..., `up`.
`Permuted lo up a a'` says that `a'` has the values of `a` in another order there, and the same values elsewhere. It
is what a sort in place comes to by swaps (`permuted_swap`), and what is known of all values of a segment holds of
the rearranged segment (`Permuted.forall`).

A strict weak order on a set of values (`StrictWeakOn`) is what a sort needs of a comparison. `Sorted.join` puts a
sorted segment together from two and a pivot between them.
-/

namespace Segment

variable {α : Type} {lo up lo' up' i j k p : ℤ} {a a' a'' : ℤ → α}

/-- The values from `lo` to `up` in another order, and the others where they were. -/
def Permuted (lo up : ℤ) (a a' : ℤ → α) : Prop :=
  ∃ σ : Equiv.Perm ℤ, (∀ k, ¬ (lo ≤ k ∧ k ≤ up) → σ k = k) ∧ a' = a ∘ σ

theorem Permuted.refl (lo up : ℤ) (a : ℤ → α) : Permuted lo up a a := ⟨1, fun _ _ => rfl, rfl⟩

theorem Permuted.trans (h : Permuted lo up a a') (h' : Permuted lo up a' a'') : Permuted lo up a a'' := by
  obtain ⟨σ, hσ, rfl⟩ := h
  obtain ⟨τ, hτ, rfl⟩ := h'
  refine ⟨τ.trans σ, ?_, rfl⟩
  intro k hk
  rw [Equiv.trans_apply, hτ k hk, hσ k hk]

theorem Permuted.symm (h : Permuted lo up a a') : Permuted lo up a' a := by
  obtain ⟨σ, hσ, rfl⟩ := h
  refine ⟨σ.symm, ?_, ?_⟩
  · intro k hk
    rw [Equiv.symm_apply_eq, hσ k hk]
  · funext k
    exact congrArg a (σ.apply_symm_apply k).symm

/-- A longer segment. -/
theorem Permuted.mono (h : Permuted lo up a a') (hlo : lo' ≤ lo) (hup : up ≤ up') : Permuted lo' up' a a' := by
  obtain ⟨σ, hσ, rfl⟩ := h
  refine ⟨σ, ?_, rfl⟩
  intro k hk
  exact hσ k (by omega)

/-- A swap is a rearrangement. -/
theorem permuted_swap (hi : lo ≤ i ∧ i ≤ up) (hj : lo ≤ j ∧ j ≤ up) :
    Permuted lo up a (Function.update (Function.update a i (a j)) j (a i)) := by
  refine ⟨Equiv.swap j i, ?_, (Equiv.comp_swap_eq_update j i a).symm⟩
  intro k hk
  exact Equiv.swap_apply_of_ne_of_ne (by omega) (by omega)

theorem Permuted.outside (h : Permuted lo up a a') (hk : ¬ (lo ≤ k ∧ k ≤ up)) : a' k = a k := by
  obtain ⟨σ, hσ, rfl⟩ := h
  rw [Function.comp_apply, hσ k hk]

/-- What all values of the segment have, the rearranged ones have. -/
theorem Permuted.forall {P : α → Prop} (h : Permuted lo up a a') (hP : ∀ k, lo ≤ k → k ≤ up → P (a k)) :
    ∀ k, lo ≤ k → k ≤ up → P (a' k) := by
  obtain ⟨σ, hσ, rfl⟩ := h
  intro k hlo hup
  -- a position of the segment goes to one
  have hin : lo ≤ σ k ∧ σ k ≤ up := by
    by_contra hout
    have hfix := σ.injective (hσ (σ k) hout)
    rw [hfix] at hout
    exact hout ⟨hlo, hup⟩
  exact hP (σ k) hin.1 hin.2

/-! ## Orders -/

/-- A strict weak order on the values of a set. -/
structure StrictWeakOn (S : Set α) (r : α → α → Prop) : Prop where
  /-- Nothing is below itself. -/
  irrefl : ∀ x ∈ S, ¬ r x x
  /-- It is transitive. -/
  trans : ∀ x ∈ S, ∀ y ∈ S, ∀ z ∈ S, r x y → r y z → r x z
  /-- To have no order is transitive. -/
  incomp_trans : ∀ x ∈ S, ∀ y ∈ S, ∀ z ∈ S, ¬ r x y → ¬ r y x → ¬ r y z → ¬ r z y → ¬ r x z

variable {S : Set α} {r : α → α → Prop} {x y z : α}

theorem StrictWeakOn.asymm (h : StrictWeakOn S r) (hx : x ∈ S) (hy : y ∈ S) (hxy : r x y) : ¬ r y x :=
  fun hyx => h.irrefl x hx (h.trans x hx y hy x hx hxy hyx)

/-- Not to be below is transitive. -/
theorem StrictWeakOn.not_trans (h : StrictWeakOn S r) (hx : x ∈ S) (hy : y ∈ S) (hz : z ∈ S) (hxy : ¬ r x y)
    (hyz : ¬ r y z) : ¬ r x z := by
  intro hxz
  by_cases hyx : r y x
  · exact hyz (h.trans y hy x hx z hz hyx hxz)
  by_cases hzy : r z y
  · exact hxy (h.trans x hx z hz y hy hxz hzy)
  exact h.incomp_trans x hx y hy z hz hxy hyx hyz hzy hxz

/-- No value of the segment is below one before it. -/
def Sorted (r : α → α → Prop) (lo up : ℤ) (a : ℤ → α) : Prop :=
  ∀ i j, lo ≤ i → i < j → j ≤ up → ¬ r (a j) (a i)

theorem sorted_of_le (h : up ≤ lo) : Sorted r lo up a := fun i j hi hij hj => by omega

/-- A sorted segment depends on its values only. -/
theorem Sorted.congr (h : Sorted r lo up a) (heq : ∀ k, lo ≤ k → k ≤ up → a' k = a k) : Sorted r lo up a' := by
  intro i j hi hij hj
  rw [heq i hi (by omega), heq j (by omega) hj]
  exact h i j hi hij hj

/-- Two sorted segments, with a value between them that divides them. -/
theorem Sorted.join (h : StrictWeakOn S r) (hS : ∀ k, lo ≤ k → k ≤ up → a k ∈ S) (hp : lo ≤ p ∧ p ≤ up)
    (hleft : Sorted r lo (p - 1) a) (hright : Sorted r (p + 1) up a)
    (hbelow : ∀ k, lo ≤ k → k < p → ¬ r (a p) (a k)) (habove : ∀ k, p < k → k ≤ up → ¬ r (a k) (a p)) :
    Sorted r lo up a := by
  intro i j hi hij hj
  rcases lt_trichotomy j p with hjp | rfl | hjp
  · exact hleft i j hi hij (by omega)
  · exact hbelow i hi hij
  · rcases lt_trichotomy i p with hip | rfl | hip
    · -- one on each side
      exact h.not_trans (hS j (by omega) hj) (hS p hp.1 hp.2) (hS i hi (by omega)) (habove j hjp hj)
        (hbelow i hi hip)
    · exact habove j hij hj
    · exact hright i j (by omega) hij hj

/-- A segment that is divided by a value is sorted when its sides are, in either order. -/
theorem Sorted.join_sides (h : StrictWeakOn S r) (hS : ∀ k, lo ≤ k → k ≤ up → a'' k ∈ S) (hp : lo ≤ p ∧ p ≤ up)
    (hsides : Permuted lo (p - 1) a a' ∧ Permuted (p + 1) up a' a'' ∨
      Permuted (p + 1) up a a' ∧ Permuted lo (p - 1) a' a'')
    (hleft : Sorted r lo (p - 1) a'') (hright : Sorted r (p + 1) up a'')
    (hbelow : ∀ k, lo ≤ k → k < p → ¬ r (a p) (a k)) (habove : ∀ k, p < k → k ≤ up → ¬ r (a k) (a p)) :
    Sorted r lo up a'' := by
  have hbelow' : ∀ k, lo ≤ k → k ≤ p - 1 → ¬ r (a p) (a k) := fun k hk hkp => hbelow k hk (by omega)
  have habove' : ∀ k, p + 1 ≤ k → k ≤ up → ¬ r (a k) (a p) := fun k hk hkup => habove k (by omega) hkup
  obtain ⟨hpivot, hbelow'', habove''⟩ : a'' p = a p ∧ (∀ k, lo ≤ k → k ≤ p - 1 → ¬ r (a p) (a'' k)) ∧
      ∀ k, p + 1 ≤ k → k ≤ up → ¬ r (a'' k) (a p) := by
    rcases hsides with ⟨hl, hr⟩ | ⟨hr, hl⟩
    · refine ⟨(hr.outside (by omega)).trans (hl.outside (by omega)), ?_, ?_⟩
      · intro k hk hkp
        rw [hr.outside (by omega)]
        exact hl.forall (P := fun x => ¬ r (a p) x) hbelow' k hk hkp
      · refine hr.forall (P := fun x => ¬ r x (a p)) ?_
        intro k hk hkup
        rw [hl.outside (by omega)]
        exact habove' k hk hkup
    · refine ⟨(hl.outside (by omega)).trans (hr.outside (by omega)), ?_, ?_⟩
      · refine hl.forall (P := fun x => ¬ r (a p) x) ?_
        intro k hk hkp
        rw [hr.outside (by omega)]
        exact hbelow' k hk hkp
      · intro k hk hkup
        rw [hl.outside (by omega)]
        exact hr.forall (P := fun x => ¬ r x (a p)) habove' k hk hkup
  apply Sorted.join h hS hp hleft hright
  · intro k hk hkp
    rw [hpivot]
    exact hbelow'' k hk (by omega)
  · intro k hk hkup
    rw [hpivot]
    exact habove'' k (by omega) hkup

end Segment
