import Lua2wasm.Lib.Segment
import Lua2wasm.Table.RawIndex

/-!
# The quicksort of `table.sort`

Each part of the sort has one lemma, which says three things about a segment of an array: the values are rearranged
there, only positions of the array are touched, and, if the comparison is a strict weak order `r` on the values
(`Fair`), how they are ordered. Without that a part may raise, which leaves the array rearranged as well (`Raised`).
The lemmas hold of arrays of up to `2^30` values, where the middle of a segment lies in it.

The scan that goes up stops at the pivot at the latest, the scan that goes down before the start of the segment, as
each raises an error where an order would have stopped it.
-/

namespace Lua2wasm.Table

open Raising Segment

section

variable (s₀ : TabState) (n : ℤ) (lt : Oracle) (S : Set Val) (r : Val → Val → Prop)

/-- A state in which the array has the values `a`, and no position outside of it was touched. -/
structure Holds (a : ℤ → Val) (s : SortState) : Prop where
  /-- The array. -/
  arr : ArrayIs s₀ s.tab n a
  /-- The positions that were touched. -/
  touched : ∀ p ∈ s.touched, 1 ≤ p ∧ p ≤ n

/-- The comparison is a strict weak order on the values. -/
structure Fair (a : ℤ → Val) : Prop where
  /-- The order. -/
  order : StrictWeakOn S r
  /-- The answers. -/
  answer : ∀ k, ∀ x ∈ S, ∀ y ∈ S, ∃ b, lt k x y = .ok b ∧ (b = true ↔ r x y)
  /-- The values. -/
  mem : ∀ p, 1 ≤ p → p ≤ n → a p ∈ S

/-- A part of the sort raised, which it does not with a fair comparison. -/
def Raised (a : ℤ → Val) (e : Fault) (s : SortState) : Prop :=
  e ≠ .stuck ∧ (∃ a', Holds s₀ n a' s) ∧ ¬ Fair n lt S r a

end

variable {s₀ : TabState} {n lo up i j p upm1 : ℤ} {lt : Oracle} {S : Set Val} {r : Val → Val → Prop} {a a' : ℤ → Val}
  {s : SortState} {v x y pivot : Val}

theorem Fair.of_permuted (h : Fair n lt S r a) (hre : Permuted lo up a a') (hlo : 1 ≤ lo) (hup : up ≤ n) :
    Fair n lt S r a' :=
  ⟨h.order, h.answer, (hre.mono hlo hup).forall h.mem⟩

/-- What raised after a rearrangement. -/
theorem Raised.of_permuted {e : Fault} (h : Raised s₀ n lt S r a' e s) (hre : Permuted lo up a a') (hlo : 1 ≤ lo)
    (hup : up ≤ n) : Raised s₀ n lt S r a e s :=
  ⟨h.1, h.2.1, fun hfair => h.2.2 (hfair.of_permuted hre hlo hup)⟩

/-! ## Reads, writes and comparisons -/

theorem getIdx_spec (hn : n < 2^31) (h : Holds s₀ n a s) (hp : 1 ≤ p ∧ p ≤ n) :
    Ensures (getIdx p) s (fun v s' => v = a p ∧ Holds s₀ n a s' ∧ s'.calls = s.calls) := by
  unfold getIdx
  apply meets_get_bind
  apply meets_set_bind
  rw [h.arr.get hn hp]
  refine meets_pure ⟨rfl, ⟨h.arr, ?_⟩, rfl⟩
  intro q hq
  rcases List.mem_cons.mp hq with rfl | hq
  · exact hp
  · exact h.touched q hq

theorem setIdx_spec (hn : n < 2^31) (h : Holds s₀ n a s) (hp : 1 ≤ p ∧ p ≤ n) (hv : v ≠ .nil) :
    Ensures (setIdx p v) s (fun _ s' => Holds s₀ n (Function.update a p v) s' ∧ s'.calls = s.calls) := by
  obtain ⟨u, tab, hrun, harr⟩ := (h.arr.set hn hp hv).returns
  unfold Returns at hrun
  unfold setIdx
  apply meets_get_bind
  rw [hrun]
  apply meets_set
  refine ⟨⟨harr, ?_⟩, rfl⟩
  intro q hq
  rcases List.mem_cons.mp hq with rfl | hq
  · exact hp
  · exact h.touched q hq

/-- Two writes that swap two values. -/
theorem swap_spec (hn : n < 2^31) (h : Holds s₀ n a s) (hi : 1 ≤ i ∧ i ≤ n) (hj : 1 ≤ j ∧ j ≤ n) :
    Ensures (do
      setIdx i (a j)
      setIdx j (a i)) s
      (fun _ s' => Holds s₀ n (Function.update (Function.update a i (a j)) j (a i)) s' ∧ s'.calls = s.calls) := by
  apply (setIdx_spec hn h hi (h.arr.live j hj.1 hj.2)).bind
  rintro _ s₁ ⟨h₁, hcalls₁⟩
  refine (setIdx_spec hn h₁ hj (h.arr.live i hi.1 hi.2)).imp ?_
  rintro _ s₂ ⟨h₂, hcalls₂⟩
  exact ⟨h₂, hcalls₂.trans hcalls₁⟩

/-- A comparison of two values of the array. -/
theorem compare_spec (h : Holds s₀ n a s) (hi : 1 ≤ i ∧ i ≤ n) (hj : 1 ≤ j ∧ j ≤ n) :
    Meets (compare lt (a i) (a j)) s
      (fun b s' => Holds s₀ n a s' ∧ (Fair n lt S r a → (b = true ↔ r (a i) (a j))))
      (Raised s₀ n lt S r a) := by
  unfold compare
  apply meets_get_bind
  apply meets_set_bind
  cases hanswer : lt s.calls (a i) (a j) with
  | error msg =>
    refine meets_throw ⟨nofun, ⟨a, h.arr, h.touched⟩, ?_⟩
    intro hfair
    obtain ⟨b, hb, -⟩ := hfair.answer s.calls (a i) (hfair.mem i hi.1 hi.2) (a j) (hfair.mem j hj.1 hj.2)
    rw [hanswer] at hb
    cases hb
  | ok b =>
    refine meets_pure ⟨⟨h.arr, h.touched⟩, ?_⟩
    intro hfair
    obtain ⟨b', hb, hiff⟩ := hfair.answer s.calls (a i) (hfair.mem i hi.1 hi.2) (a j) (hfair.mem j hj.1 hj.2)
    rw [hanswer] at hb
    cases hb
    exact hiff

/-! ## The scans -/

/-- The scan that goes up stops at the pivot at the latest. -/
theorem scanUp_spec (hn : n < 2^31) (hpivot : a upm1 = pivot) (hupm1 : upm1 ≤ n) :
    ∀ (fuel : ℕ) (i : ℤ) (s : SortState), Holds s₀ n a s → 0 ≤ i → i < upm1 → upm1 - i ≤ fuel →
      Meets (scanUp lt pivot upm1 fuel i) s
        (fun w s' => Holds s₀ n a s' ∧ i < w.1 ∧ w.1 ≤ upm1 ∧ w.2 = a w.1 ∧
          (Fair n lt S r a → (∀ k, i < k → k < w.1 → r (a k) pivot) ∧ ¬ r (a w.1) pivot))
        (Raised s₀ n lt S r a) := by
  intro fuel
  induction fuel with
  | zero =>
    intro i s _ _ _ hfuel
    omega
  | succ fuel ih =>
    intro i s h hi hlt hfuel
    unfold scanUp
    apply (getIdx_spec hn h (p := i + 1) (by omega)).bind_safe
    rintro _ s₁ ⟨rfl, h₁, -⟩
    rw [← hpivot]
    apply (compare_spec h₁ (by omega) (by omega)).bind
    rintro b s₂ ⟨h₂, hless⟩
    rw [hpivot] at hless ⊢
    cases b with
    | false =>
      refine meets_pure ⟨h₂, by dsimp only; omega, by dsimp only; omega, rfl, ?_⟩
      intro hfair
      constructor
      · intro k hk hk'
        omega
      · intro hr
        cases (hless hfair).mpr hr
    | true =>
      change Meets (if i + 1 = upm1 then throw invalidOrder else _) _ _ _
      by_cases hend : i + 1 = upm1
      · rw [if_pos hend]
        refine meets_throw ⟨nofun, ⟨a, h₂⟩, ?_⟩
        intro hfair
        -- the pivot is not below itself
        have hself := (hless hfair).mp rfl
        rw [hend, hpivot] at hself
        have hmem := hfair.mem upm1 (by omega) hupm1
        rw [hpivot] at hmem
        exact hfair.order.irrefl pivot hmem hself
      · rw [if_neg hend]
        refine (ih (i + 1) s₂ h₂ (by omega) (by omega) (by omega)).imp ?_
        rintro w s' ⟨h', hw, hw', hval, hord⟩
        refine ⟨h', by omega, hw', hval, ?_⟩
        intro hfair
        obtain ⟨hbelow, hstop⟩ := hord hfair
        refine ⟨?_, hstop⟩
        intro k hk hk'
        rcases Int.lt_or_eq_of_le (show i + 1 ≤ k by omega) with hk₁ | rfl
        · exact hbelow k hk₁ hk'
        · exact (hless hfair).mp rfl

/-- The scan that goes down stops at the start of the segment at the latest. -/
theorem scanDown_spec (hn : n < 2^31) (hlo : 1 ≤ lo) (hi : lo < i) (hupm1 : 1 ≤ upm1 ∧ upm1 ≤ n) (hpivot : a upm1 = pivot)
    (hbelow : Fair n lt S r a → ∀ k, lo ≤ k → k < i → ¬ r pivot (a k)) :
    ∀ (fuel : ℕ) (j : ℤ) (s : SortState), Holds s₀ n a s → lo < j → j ≤ n → j - lo ≤ fuel →
      Meets (scanDown lt pivot i fuel j) s
        (fun w s' => Holds s₀ n a s' ∧ lo ≤ w.1 ∧ w.1 < j ∧ w.2 = a w.1 ∧
          (Fair n lt S r a → (∀ k, w.1 < k → k < j → r pivot (a k)) ∧ ¬ r pivot (a w.1)))
        (Raised s₀ n lt S r a) := by
  intro fuel
  induction fuel with
  | zero =>
    intro j s _ _ _ hfuel
    omega
  | succ fuel ih =>
    intro j s h hj hjn hfuel
    unfold scanDown
    apply (getIdx_spec hn h (p := j - 1) (by omega)).bind_safe
    rintro _ s₁ ⟨rfl, h₁, -⟩
    rw [← hpivot]
    apply (compare_spec h₁ hupm1 (by omega)).bind
    rintro b s₂ ⟨h₂, hless⟩
    rw [hpivot] at hless ⊢
    cases b with
    | false =>
      refine meets_pure ⟨h₂, by dsimp only; omega, by dsimp only; omega, rfl, ?_⟩
      intro hfair
      constructor
      · intro k hk hk'
        omega
      · intro hr
        cases (hless hfair).mpr hr
    | true =>
      change Meets (if j - 1 < i then throw invalidOrder else _) _ _ _
      by_cases hend : j - 1 < i
      · rw [if_pos hend]
        refine meets_throw ⟨nofun, ⟨a, h₂⟩, ?_⟩
        intro hfair
        exact hbelow hfair (j - 1) (by omega) hend ((hless hfair).mp rfl)
      · rw [if_neg hend]
        refine (ih (j - 1) s₂ h₂ (by omega) (by omega) (by omega)).imp ?_
        rintro w s' ⟨h', hw, hw', hval, hord⟩
        refine ⟨h', hw, by omega, hval, ?_⟩
        intro hfair
        obtain ⟨habove, hstop⟩ := hord hfair
        refine ⟨?_, hstop⟩
        intro k hk hk'
        rcases Int.lt_or_eq_of_le (show k ≤ j - 1 by omega) with hk₁ | rfl
        · exact habove k hk hk₁
        · exact (hless hfair).mp rfl

/-! ## The partition -/

/-- The values up to `i` are not above the pivot, and those from `j` on are not below it. -/
def Divided (r : Val → Val → Prop) (pivot : Val) (lo i j up : ℤ) (a : ℤ → Val) : Prop :=
  (∀ k, lo ≤ k → k ≤ i → ¬ r pivot (a k)) ∧ ∀ k, j ≤ k → k ≤ up → ¬ r (a k) pivot

/-- The scan that goes up has passed values below the pivot. -/
theorem Divided.below {i' : ℤ} (h : Divided r pivot lo i j up a) (hfair : Fair n lt S r a) (hpivot : pivot ∈ S)
    (hi : 1 ≤ i) (hi' : i' ≤ n) (hscan : ∀ k, i < k → k < i' → r (a k) pivot) :
    ∀ k, lo ≤ k → k < i' → ¬ r pivot (a k) := by
  intro k hk hk'
  by_cases hold : k ≤ i
  · exact h.1 k hk hold
  · exact hfair.order.asymm (hfair.mem k (by omega) (by omega)) hpivot (hscan k (by omega) hk')

/-- The scan that goes down has passed values above the pivot. -/
theorem Divided.above {j' : ℤ} (h : Divided r pivot lo i j up a) (hfair : Fair n lt S r a) (hpivot : pivot ∈ S)
    (hj : j ≤ n) (hj' : 1 ≤ j') (hscan : ∀ k, j' < k → k < j → r pivot (a k)) :
    ∀ k, j' < k → k ≤ up → ¬ r (a k) pivot := by
  intro k hk hk'
  by_cases hold : j ≤ k
  · exact h.2 k hold hk'
  · exact hfair.order.asymm hpivot (hfair.mem k (by omega) (by omega)) (hscan k hk (by omega))

/-- The main loop: what it has swapped is divided, and it ends with the place of the pivot. -/
theorem partitionFrom_spec (hn : n < 2^31) (hlo : 1 ≤ lo) (hup : up ≤ n) (hupm1 : upm1 < up) {scan : ℕ}
    (hscan : upm1 - lo ≤ scan) :
    ∀ (fuel : ℕ) (i j : ℤ) (a : ℤ → Val) (s : SortState), Holds s₀ n a s → lo ≤ i → i < j → j ≤ upm1 → j - i ≤ fuel →
      a upm1 = pivot → (Fair n lt S r a → Divided r pivot lo i j up a) →
      Meets (partitionFrom lt pivot upm1 scan fuel i j) s
        (fun i' s' => lo < i' ∧ i' ≤ upm1 ∧ ∃ a', Permuted lo up a a' ∧ Holds s₀ n a' s' ∧ a' upm1 = pivot ∧
          (Fair n lt S r a → Divided r pivot lo (i' - 1) i' up a'))
        (Raised s₀ n lt S r a) := by
  intro fuel
  induction fuel with
  | zero =>
    intro i j a s _ _ _ _ hfuel
    omega
  | succ fuel ih =>
    intro i j a s h hi hij hj hfuel hpivot hdiv
    have hmem : Fair n lt S r a → pivot ∈ S := by
      intro hfair
      rw [← hpivot]
      exact hfair.mem upm1 (by omega) (by omega)
    unfold partitionFrom
    apply (scanUp_spec hn hpivot (by omega) scan i s h (by omega) (by omega) (by omega)).bind
    rintro ⟨i', ai⟩ s₁ ⟨h₁, hi', hi'up, hai, hscanned⟩
    dsimp only at hi' hi'up hai hscanned ⊢
    subst hai
    have hbelow : Fair n lt S r a → ∀ k, lo ≤ k → k < i' → ¬ r pivot (a k) := fun hfair =>
      (hdiv hfair).below hfair (hmem hfair) (by omega) (by omega) (hscanned hfair).1
    apply (scanDown_spec hn hlo (by omega) (by omega) hpivot hbelow scan j s₁ h₁ (by omega) (by omega)
      (by omega)).bind
    rintro ⟨j', aj⟩ s₂ ⟨h₂, hj', hj'j, haj, hscanned'⟩
    dsimp only at hj' hj'j haj hscanned' ⊢
    subst haj
    have habove : Fair n lt S r a → ∀ k, j' < k → k ≤ up → ¬ r (a k) pivot := fun hfair =>
      (hdiv hfair).above hfair (hmem hfair) (by omega) (by omega) (hscanned' hfair).1
    -- the scans have met, or their values are swapped and the loop goes on
    by_cases hend : j' ≤ i'
    · rw [if_pos hend]
      refine meets_pure ⟨by omega, hi'up, a, Permuted.refl lo up a, h₂, hpivot, ?_⟩
      intro hfair
      constructor
      · intro k hk hk'
        exact hbelow hfair k hk (by omega)
      · intro k hk hk'
        rcases Int.lt_or_eq_of_le hk with hk | rfl
        · exact habove hfair k (by omega) hk'
        · exact (hscanned hfair).2
    · rw [if_neg hend, ← bind_assoc]
      apply (swap_spec hn h₂ (i := i') (j := j') (by omega) (by omega)).bind_safe
      rintro _ s₃ ⟨h₃, -⟩
      have hre : Permuted lo up a (Function.update (Function.update a i' (a j')) j' (a i')) :=
        permuted_swap (by omega) (by omega)
      have hsame : ∀ k, k ≠ i' → k ≠ j' → Function.update (Function.update a i' (a j')) j' (a i') k = a k := by
        intro k hki hkj
        rw [Function.update_of_ne hkj, Function.update_of_ne hki]
      refine (ih i' j' _ s₃ h₃ (by omega) (by omega) (by omega) (by omega) ?_ ?_).mono ?_ ?_
      · rw [hsame upm1 (by omega) (by omega)]
        exact hpivot
      · intro hfair₃
        have hfair := hfair₃.of_permuted hre.symm hlo hup
        constructor
        · intro k hk hki
          rcases Int.lt_or_eq_of_le hki with hki | rfl
          · rw [hsame k (by omega) (by omega)]
            exact hbelow hfair k hk hki
          · rw [Function.update_of_ne (by omega), Function.update_self]
            exact (hscanned' hfair).2
        · intro k hk hkup
          rcases Int.lt_or_eq_of_le hk with hk | rfl
          · rw [hsame k (by omega) (by omega)]
            exact habove hfair k hk hkup
          · rw [Function.update_self]
            exact (hscanned hfair).2
      · rintro i'' s' ⟨hlt, hle, a', hre', h', hpivot', hdiv'⟩
        refine ⟨hlt, hle, a', hre.trans hre', h', hpivot', ?_⟩
        intro hfair
        exact hdiv' (hfair.of_permuted hre hlo hup)
      · intro e s' hraised
        exact hraised.of_permuted hre hlo hup

/-- The partition puts the pivot between the values that are not above and those that are not below it. -/
theorem partition_spec (hn : n < 2^31) (hlo : 1 ≤ lo) (hup : up ≤ n) (hlong : lo + 2 ≤ up) (h : Holds s₀ n a s)
    (hends : Fair n lt S r a → ¬ r (a (up - 1)) (a lo) ∧ ¬ r (a up) (a (up - 1))) :
    Meets (partition lt lo up) s
      (fun i s' => lo < i ∧ i < up ∧ ∃ a', Permuted lo up a a' ∧ Holds s₀ n a' s' ∧
        (Fair n lt S r a → (∀ k, lo ≤ k → k < i → ¬ r (a' i) (a' k)) ∧ ∀ k, i < k → k ≤ up → ¬ r (a' k) (a' i)))
      (Raised s₀ n lt S r a) := by
  unfold partition
  apply (getIdx_spec hn h (p := up - 1) (by omega)).bind_safe
  rintro _ s₁ ⟨rfl, h₁, -⟩
  apply (partitionFrom_spec hn hlo hup (by omega) (by omega) (up - lo).toNat lo (up - 1) a s₁ h₁ (le_refl lo)
    (by omega) (le_refl _) (by omega) rfl ?_).bind
  · rintro i s₂ ⟨hi, hi', a', hre, h₂, hpivot, hdiv⟩
    apply (getIdx_spec hn h₂ (p := i) (by omega)).bind_safe
    rintro _ s₃ ⟨rfl, h₃, -⟩
    rw [← hpivot, ← bind_assoc]
    apply (swap_spec hn h₃ (i := up - 1) (j := i) (by omega) (by omega)).bind_safe
    rintro _ s₄ ⟨h₄, -⟩
    refine meets_pure ⟨hi, by omega, _, hre.trans (permuted_swap (by omega) (by omega)), h₄, ?_⟩
    intro hfair
    obtain ⟨hbelow, habove⟩ := hdiv hfair
    rw [Function.update_self, hpivot]
    constructor
    · intro k hk hki
      rw [Function.update_of_ne (by omega), Function.update_of_ne (by omega)]
      exact hbelow k hk (by omega)
    · intro k hk hkup
      rw [Function.update_of_ne (by omega)]
      by_cases hlast : k = up - 1
      · rw [hlast, Function.update_self]
        exact habove i (le_refl i) (by omega)
      · rw [Function.update_of_ne hlast]
        exact habove k (by omega) hkup
  · intro hfair
    obtain ⟨hfirst, hlast⟩ := hends hfair
    constructor
    · intro k hk hk'
      obtain rfl : k = lo := by omega
      exact hfirst
    · intro k hk hk'
      rcases Int.lt_or_eq_of_le hk with hk | rfl
      · obtain rfl : k = up := by omega
        exact hlast
      · exact hfair.order.irrefl _ (hfair.mem (up - 1) (by omega) (by omega))

/-! ## The median of three -/

/-- A swap if one value is below the other. -/
theorem sortEnds_spec (hn : n < 2^31) (hlo : 1 ≤ lo) (hup : up ≤ n) (hlt : lo < up) (h : Holds s₀ n a s) :
    Meets (sortEnds lt lo up) s
      (fun _ s' => ∃ a', Permuted lo up a a' ∧ Holds s₀ n a' s' ∧ (Fair n lt S r a → ¬ r (a' up) (a' lo)))
      (Raised s₀ n lt S r a) := by
  unfold sortEnds
  apply (getIdx_spec hn h (p := lo) (by omega)).bind_safe
  rintro _ s₁ ⟨rfl, h₁, -⟩
  apply (getIdx_spec hn h₁ (p := up) (by omega)).bind_safe
  rintro _ s₂ ⟨rfl, h₂, -⟩
  apply (compare_spec h₂ (by omega) (by omega)).bind
  rintro b s₃ ⟨h₃, hless⟩
  cases b with
  | true =>
    refine (swap_spec hn h₃ (i := lo) (j := up) (by omega) (by omega)).mono ?_ fun _ _ h => h.elim
    rintro _ s₄ ⟨h₄, -⟩
    refine ⟨_, permuted_swap (by omega) (by omega), h₄, ?_⟩
    intro hfair
    rw [Function.update_self, Function.update_of_ne (by omega), Function.update_self]
    exact hfair.order.asymm (hfair.mem up (by omega) (by omega)) (hfair.mem lo (by omega) (by omega))
      ((hless hfair).mp rfl)
  | false =>
    refine meets_pure ⟨a, Permuted.refl lo up a, h₃, ?_⟩
    intro hfair hr
    cases (hless hfair).mpr hr

/-- The value in the middle goes between the ends. -/
theorem sortMiddle_spec (hn : n < 2^31) (hlo : 1 ≤ lo) (hup : up ≤ n) (hp : lo < p) (hp' : p < up)
    (h : Holds s₀ n a s) (hends : Fair n lt S r a → ¬ r (a up) (a lo)) :
    Meets (sortMiddle lt lo p up) s
      (fun _ s' => ∃ a', Permuted lo up a a' ∧ Holds s₀ n a' s' ∧
        (Fair n lt S r a → ¬ r (a' p) (a' lo) ∧ ¬ r (a' up) (a' p)))
      (Raised s₀ n lt S r a) := by
  unfold sortMiddle
  apply (getIdx_spec hn h (p := p) (by omega)).bind_safe
  rintro _ s₁ ⟨rfl, h₁, -⟩
  apply (getIdx_spec hn h₁ (p := lo) (by omega)).bind_safe
  rintro _ s₂ ⟨rfl, h₂, -⟩
  apply (compare_spec h₂ (by omega) (by omega)).bind
  rintro b s₃ ⟨h₃, hless⟩
  cases b with
  | true =>
    refine (swap_spec hn h₃ (i := p) (j := lo) (by omega) (by omega)).mono ?_ fun _ _ h => h.elim
    rintro _ s₄ ⟨h₄, -⟩
    refine ⟨_, permuted_swap (by omega) (by omega), h₄, ?_⟩
    intro hfair
    rw [Function.update_self, Function.update_of_ne (by omega), Function.update_self,
      Function.update_of_ne (by omega), Function.update_of_ne (by omega)]
    exact ⟨hfair.order.asymm (hfair.mem p (by omega) (by omega)) (hfair.mem lo (by omega) (by omega))
      ((hless hfair).mp rfl), hends hfair⟩
  | false =>
    change Meets (getIdx up >>= _) s₃ _ _
    apply (getIdx_spec hn h₃ (p := up) (by omega)).bind_safe
    rintro _ s₄ ⟨rfl, h₄, -⟩
    apply (compare_spec h₄ (by omega) (by omega)).bind
    rintro b s₅ ⟨h₅, hless'⟩
    have hfirst : Fair n lt S r a → ¬ r (a p) (a lo) := by
      intro hfair hr
      cases (hless hfair).mpr hr
    cases b with
    | true =>
      refine (swap_spec hn h₅ (i := p) (j := up) (by omega) (by omega)).mono ?_ fun _ _ h => h.elim
      rintro _ s₆ ⟨h₆, -⟩
      refine ⟨_, permuted_swap (by omega) (by omega), h₆, ?_⟩
      intro hfair
      rw [Function.update_self, Function.update_of_ne (by omega), Function.update_self,
        Function.update_of_ne (by omega), Function.update_of_ne (by omega)]
      exact ⟨hends hfair, hfair.order.asymm (hfair.mem up (by omega) (by omega)) (hfair.mem p (by omega) (by omega))
        ((hless' hfair).mp rfl)⟩
    | false =>
      refine meets_pure ⟨a, Permuted.refl lo up a, h₅, ?_⟩
      intro hfair
      refine ⟨hfirst hfair, ?_⟩
      intro hr
      cases (hless' hfair).mpr hr

/-! ## The sort -/

/-- The middle of a segment, where the sum of its ends fits. -/
theorem mid_eq (hlo : 1 ≤ lo) (hlt : lo < up) (hfit : lo + up < 2^31) : mid lo up = (lo + up) / 2 := by
  unfold mid
  rw [Int.bmod_eq_of_le] <;> norm_num <;> omega

/-- The ends and the middle of an array of up to `2^30` values fit. -/
theorem mid_between (hlo : 1 ≤ lo) (hlong : lo + 2 ≤ up) (hup : up ≤ n) (hn : n ≤ 2^30) :
    lo < mid lo up ∧ mid lo up < up ∧ (lo + 3 ≤ up → mid lo up < up - 1) := by
  rw [mid_eq hlo (by omega) (by omega)]
  omega

/-- What the sort of a segment does. -/
def Sorts (s₀ : TabState) (n : ℤ) (lt : Oracle) (S : Set Val) (r : Val → Val → Prop) (lo up : ℤ) (a : ℤ → Val)
    (s : SortState) : Prop :=
  ∃ a', Permuted lo up a a' ∧ Holds s₀ n a' s ∧ (Fair n lt S r a → Sorted r lo up a')

/-- The two sides of a pivot, sorted one after the other in the order that `$qsort` chooses. -/
theorem sortSides_spec (left : Bool) {sort : ℤ → ℤ → SortM Unit} (hlo : 1 ≤ lo) (hup : up ≤ n) (hi : lo < i) (hiup : i < up)
    (hsort : ∀ lo' up' a s, lo ≤ lo' → up' ≤ up → up' - lo' + 1 < up - lo → Holds s₀ n a s →
      Meets (sort lo' up') s (fun _ s' => Sorts s₀ n lt S r lo' up' a s') (Raised s₀ n lt S r a))
    (h : Holds s₀ n a s)
    (hdiv : Fair n lt S r a → (∀ k, lo ≤ k → k < i → ¬ r (a i) (a k)) ∧ ∀ k, i < k → k ≤ up → ¬ r (a k) (a i)) :
    Meets (if left then do
        sort lo (i - 1)
        sort (i + 1) up
      else do
        sort (i + 1) up
        sort lo (i - 1)) s (fun _ s' => Sorts s₀ n lt S r lo up a s') (Raised s₀ n lt S r a) := by
  cases left with
  | true =>
    rw [if_pos rfl]
    apply (hsort lo (i - 1) a s (le_refl lo) (by omega) (by omega) h).bind
    rintro _ s₁ ⟨a₁, hre₁, h₁, hsorted₁⟩
    refine (hsort (i + 1) up a₁ s₁ (by omega) (le_refl up) (by omega) h₁).mono ?_ ?_
    · rintro _ s₂ ⟨a₂, hre₂, h₂, hsorted₂⟩
      -- each side stays a permutation of itself, so the pivot still separates them
      have hre : Permuted lo up a a₂ :=
        (hre₁.mono (le_refl lo) (by omega)).trans (hre₂.mono (by omega) (le_refl up))
      refine ⟨a₂, hre, h₂, ?_⟩
      intro hfair
      have hfair₁ := hfair.of_permuted hre₁ hlo (by omega)
      refine Sorted.join_sides hfair.order ?_ (by omega) (Or.inl ⟨hre₁, hre₂⟩) ?_ (hsorted₂ hfair₁)
        (hdiv hfair).1 (hdiv hfair).2
      · intro k hk hkup
        exact (hfair.of_permuted hre hlo hup).mem k (by omega) (by omega)
      · refine (hsorted₁ hfair).congr ?_
        intro k hk hki
        exact hre₂.outside (by omega)
    · intro e s' hraised
      exact hraised.of_permuted hre₁ hlo (by omega)
  | false =>
    rw [if_neg Bool.false_ne_true]
    apply (hsort (i + 1) up a s (by omega) (le_refl up) (by omega) h).bind
    rintro _ s₁ ⟨a₁, hre₁, h₁, hsorted₁⟩
    refine (hsort lo (i - 1) a₁ s₁ (le_refl lo) (by omega) (by omega) h₁).mono ?_ ?_
    · rintro _ s₂ ⟨a₂, hre₂, h₂, hsorted₂⟩
      have hre : Permuted lo up a a₂ :=
        (hre₁.mono (by omega) (le_refl up)).trans (hre₂.mono (le_refl lo) (by omega))
      refine ⟨a₂, hre, h₂, ?_⟩
      intro hfair
      have hfair₁ := hfair.of_permuted hre₁ (by omega) hup
      refine Sorted.join_sides hfair.order ?_ (by omega) (Or.inr ⟨hre₁, hre₂⟩) (hsorted₂ hfair₁) ?_
        (hdiv hfair).1 (hdiv hfair).2
      · intro k hk hkup
        exact (hfair.of_permuted hre hlo hup).mem k (by omega) (by omega)
      · refine (hsorted₁ hfair).congr ?_
        intro k hk hki
        exact hre₂.outside (by omega)
    · intro e s' hraised
      exact hraised.of_permuted hre₁ (by omega) hup

/-- A segment of an array of up to `2^30` values. -/
theorem qsort_spec (hn : n ≤ 2^30) :
    ∀ (fuel : ℕ) (lo up : ℤ) (a : ℤ → Val) (s : SortState), 1 ≤ lo → up ≤ n → 0 < fuel → up - lo + 1 < fuel →
      Holds s₀ n a s →
      Meets (qsort lt fuel lo up) s (fun _ s' => Sorts s₀ n lt S r lo up a s') (Raised s₀ n lt S r a) := by
  intro fuel
  induction fuel with
  | zero =>
    intro lo up a s _ _ hpos
    omega
  | succ fuel ih =>
    intro lo up a s hlo hup _ hfuel h
    have hn' : n < 2^31 := by omega
    unfold qsort
    -- at most one value is sorted
    by_cases hshort : up ≤ lo
    · rw [if_pos hshort]
      exact meets_pure ⟨a, Permuted.refl lo up a, h, fun _ => sorted_of_le hshort⟩
    rw [if_neg hshort]
    apply (sortEnds_spec hn' hlo hup (by omega) h).bind
    rintro _ s₁ ⟨a₁, hre₁, h₁, hends⟩
    have hback₁ : Fair n lt S r a₁ → Fair n lt S r a := fun hfair => hfair.of_permuted hre₁.symm hlo hup
    -- two values: the ends were put in order
    by_cases htwo : up - lo = 1
    · rw [if_pos htwo]
      refine meets_pure ⟨a₁, hre₁, h₁, ?_⟩
      intro hfair i j hi hij hj
      obtain rfl : i = lo := by omega
      obtain rfl : j = up := by omega
      exact hends hfair
    rw [if_neg htwo]
    obtain ⟨hp, hp', hp''⟩ := mid_between hlo (by omega) hup hn
    generalize mid lo up = p at hp hp' hp''
    refine Meets.bind (Q := fun _ s' => ∃ a', Permuted lo up a a' ∧ Holds s₀ n a' s' ∧
      (Fair n lt S r a → ¬ r (a' p) (a' lo) ∧ ¬ r (a' up) (a' p))) ?_ ?_
    · refine (sortMiddle_spec hn' hlo hup hp hp' h₁ fun hfair => hends (hback₁ hfair)).mono ?_ ?_
      · rintro _ s₂ ⟨a₂, hre₂, h₂, hmiddle⟩
        exact ⟨a₂, hre₁.trans hre₂, h₂, fun hfair => hmiddle (hfair.of_permuted hre₁ hlo hup)⟩
      · intro e s' hraised
        exact hraised.of_permuted hre₁ hlo hup
    rintro _ s₂ ⟨a₂, hre₂, h₂, hmiddle⟩
    -- three values: the middle one lies between the ends
    by_cases hthree : up - lo = 2
    · rw [if_pos hthree]
      refine meets_pure ⟨a₂, hre₂, h₂, ?_⟩
      intro hfair
      obtain ⟨hfirst, hlast⟩ := hmiddle hfair
      have hfair₂ := hfair.of_permuted hre₂ hlo hup
      refine Sorted.join (p := p) hfair.order (fun k hk hkup => hfair₂.mem k (by omega) (by omega)) (by omega)
        (sorted_of_le (by omega)) (sorted_of_le (by omega)) ?_ ?_
      · intro k hk hkp
        obtain rfl : k = lo := by omega
        exact hfirst
      · intro k hk hkup
        obtain rfl : k = up := by omega
        exact hlast
    rw [if_neg hthree]
    -- the pivot goes next to the end before the partition
    apply (getIdx_spec hn' h₂ (p := p) (by omega)).bind_safe
    rintro _ s₃ ⟨rfl, h₃, -⟩
    apply (getIdx_spec hn' h₃ (p := up - 1) (by omega)).bind_safe
    rintro _ s₄ ⟨rfl, h₄, -⟩
    rw [← bind_assoc]
    apply (swap_spec hn' h₄ (i := p) (j := up - 1) (by omega) (by omega)).bind_safe
    rintro _ s₅ ⟨h₅, -⟩
    have hre₅ := hre₂.trans (permuted_swap (a := a₂) (i := p) (j := up - 1) (by omega) (by omega))
    have hends₅ : Fair n lt S r (Function.update (Function.update a₂ p (a₂ (up - 1))) (up - 1) (a₂ p)) →
        ¬ r (a₂ p) (a₂ lo) ∧ ¬ r (a₂ up) (a₂ p) := fun hfair => hmiddle (hfair.of_permuted hre₅.symm hlo hup)
    generalize hval : Function.update (Function.update a₂ p (a₂ (up - 1))) (up - 1) (a₂ p) = a₅ at h₅ hre₅ hends₅
    have hpivot : a₅ (up - 1) = a₂ p := by
      rw [← hval, Function.update_self]
    have hsame : ∀ k, k ≠ p → k ≠ up - 1 → a₅ k = a₂ k := by
      intro k hkp hku
      rw [← hval, Function.update_of_ne hku, Function.update_of_ne hkp]
    refine Meets.bind (Q := fun i s' => lo < i ∧ i < up ∧ ∃ a', Permuted lo up a a' ∧ Holds s₀ n a' s' ∧
      (Fair n lt S r a' → (∀ k, lo ≤ k → k < i → ¬ r (a' i) (a' k)) ∧ ∀ k, i < k → k ≤ up → ¬ r (a' k) (a' i))) ?_ ?_
    · refine (partition_spec (S := S) (r := r) hn' hlo hup (by omega) h₅ ?_).mono ?_ ?_
      · rw [hpivot, hsame lo (by omega) (by omega), hsame up (by omega) (by omega)]
        exact hends₅
      · rintro i s₆ ⟨hi, hi', a₆, hre₆, h₆, hdiv⟩
        exact ⟨hi, hi', a₆, hre₅.trans hre₆, h₆, fun hfair => hdiv (hfair.of_permuted hre₆.symm hlo hup)⟩
      · intro e s' hraised
        exact hraised.of_permuted hre₅ hlo hup
    rintro i s₆ ⟨hi, hi', a₆, hre₆, h₆, hdiv⟩
    have hsides := sortSides_spec (decide (i - lo < up - i)) hlo hup hi hi'
      (fun lo' up' a s hlo' hup' hless h => ih lo' up' a s (by omega) (by omega) (by omega) (by omega) h) h₆ hdiv
    simp only [decide_eq_true_eq] at hsides
    refine hsides.mono ?_ ?_
    · rintro _ s' ⟨a', hre', h', hsorted⟩
      exact ⟨a', hre₆.trans hre', h', fun hfair => hsorted (hfair.of_permuted hre₆ hlo hup)⟩
    · intro e s' hraised
      exact hraised.of_permuted hre₆ hlo hup

end Lua2wasm.Table
