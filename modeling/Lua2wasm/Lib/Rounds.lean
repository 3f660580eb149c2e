import Mathlib

/-!
# Rounds that repeat until nothing changes

A round takes a state to a state and reports whether it changed anything, and a loop repeats it until a round reports
that it did not. The loop ends if some round is quiet.

`eventually_settled` is for rounds that recompute the entries of a vector, each from itself and the entries behind it
by a monotone rule: no such vector changes forever. Without the order between the entries it could, for a monotone rule
may pass a value around a cycle.
-/

namespace Rounds

variable {σ : Type}

/-- The state after `n` rounds. -/
def after (round : σ → σ × Bool) : ℕ → σ → σ
  | 0, s => s
  | n + 1, s => (round (after round n s)).1

/-- `while (changed)`: rounds until one changes nothing. There is no result when `n` rounds are not enough. -/
def untilQuiet (round : σ → σ × Bool) : ℕ → σ → Option σ
  | 0, _ => none
  | n + 1, s => if (round s).2 then untilQuiet round n (round s).1 else some (round s).1

/-- Some round of the loop from `s` changes nothing. -/
def Quiets (round : σ → σ × Bool) (s : σ) : Prop := ∃ n, (round (after round n s)).2 = false

variable {round : σ → σ × Bool} {s : σ} {P : σ → Prop}

/-- The first round may be counted first. -/
theorem after_succ (n : ℕ) (s : σ) : after round (n + 1) s = after round n (round s).1 := by
  induction n with
  | zero => rfl
  | succ n ih => rw [after, ih, after]

/-- What every round keeps holds after any number of rounds. -/
theorem after_keeps (hP : ∀ s, P s → P (round s).1) (hs : P s) (n : ℕ) : P (after round n s) := by
  induction n with
  | zero => exact hs
  | succ n ih => exact hP _ ih

/-- A loop that comes to a quiet round ends, for every number of rounds from some on, and always with the same
result: what a quiet round makes of a state that the loop goes through. -/
theorem untilQuiet_of_quiets (hP : ∀ s, P s → P (round s).1) (hs : P s) (h : Quiets round s) :
    ∃ n s₀, P s₀ ∧ (round s₀).2 = false ∧ ∀ k, n ≤ k → untilQuiet round k s = some (round s₀).1 := by
  obtain ⟨m, hm⟩ := h
  induction m generalizing s with
  | zero =>
    refine ⟨1, s, hs, hm, fun k hk => ?_⟩
    obtain ⟨k, rfl⟩ := Nat.exists_eq_add_of_le' hk
    have hm' : (round s).2 = false := hm
    simp [untilQuiet, hm']
  | succ m ih =>
    rw [after_succ] at hm
    by_cases hchanged : (round s).2 = true
    · obtain ⟨n, s₀, hs₀, hq₀, hn⟩ := ih (hP s hs) hm
      refine ⟨n + 1, s₀, hs₀, hq₀, fun k hk => ?_⟩
      obtain ⟨k, rfl⟩ := Nat.exists_eq_add_of_le' (show 1 ≤ k by omega)
      rw [untilQuiet, if_pos hchanged]
      exact hn k (by omega)
    · rw [Bool.not_eq_true] at hchanged
      refine ⟨1, s, hs, hchanged, fun k hk => ?_⟩
      obtain ⟨k, rfl⟩ := Nat.exists_eq_add_of_le' hk
      simp [untilQuiet, hchanged]

/-- A result of the loop is what a quiet round makes of a state that the loop goes through. -/
theorem untilQuiet_result (hP : ∀ s, P s → P (round s).1) (hs : P s) {n : ℕ} {s' : σ}
    (h : untilQuiet round n s = some s') : ∃ s₀, P s₀ ∧ (round s₀).2 = false ∧ s' = (round s₀).1 := by
  induction n generalizing s with
  | zero => cases h
  | succ n ih =>
    rw [untilQuiet] at h
    split at h
    · exact ih (hP s hs) h
    · next hquiet => exact ⟨s, hs, by simpa using hquiet, (Option.some.inj h).symm⟩

/-- A measure that every round with a change decreases bounds the number of rounds. -/
theorem untilQuiet_of_measure (hP : ∀ s, P s → P (round s).1) {μ : σ → ℕ}
    (hμ : ∀ s, (round s).2 = true → μ (round s).1 < μ s) (hs : P s) {n : ℕ} (hn : μ s < n) :
    ∃ s₀, P s₀ ∧ (round s₀).2 = false ∧ untilQuiet round n s = some (round s₀).1 := by
  induction n generalizing s with
  | zero => omega
  | succ n ih =>
    rw [untilQuiet]
    by_cases hchanged : (round s).2 = true
    · rw [if_pos hchanged]
      have hlt := hμ s hchanged
      exact ih (hP s hs) (by omega)
    · rw [if_neg hchanged]
      exact ⟨s, hs, by simpa using hchanged, rfl⟩

/-! ## What a round is made of -/

section

variable {τ α : Type}

/-- A step of a round leaves what `view` sees of the state, where `Q` holds, or it notes a change and decreases the
measure `μ`. -/
def Narrows (view : σ → τ) (μ : τ → ℕ) (Q : τ → Prop) (step : σ × Bool → σ × Bool) : Prop :=
  ∀ p, (view (step p).1 = view p.1 ∧ (step p).2 = p.2 ∧ Q (view p.1)) ∨
    ((step p).2 = true ∧ μ (view (step p).1) < μ (view p.1))

variable {view : σ → τ} {μ : τ → ℕ}

theorem Narrows.mono {Q R : τ → Prop} {step : σ × Bool → σ × Bool} (h : Narrows view μ Q step) (hQ : ∀ x, Q x → R x) :
    Narrows view μ R step :=
  fun p => (h p).imp_left fun h => ⟨h.1, h.2.1, hQ _ h.2.2⟩

/-- A step that does nothing. -/
theorem narrows_id {Q : τ → Prop} (h : ∀ x, Q x) : Narrows view μ Q id := fun _ => Or.inl ⟨rfl, rfl, h _⟩

/-- Two steps, one after the other. -/
theorem Narrows.comp {Q R : τ → Prop} {step step' : σ × Bool → σ × Bool} (h : Narrows view μ Q step)
    (h' : Narrows view μ R step') : Narrows view μ (fun x => Q x ∧ R x) (fun p => step' (step p)) := by
  intro p
  rcases h p with ⟨hview, hflag, hQ⟩ | ⟨hflag, hlt⟩ <;>
    rcases h' (step p) with ⟨hview', hflag', hR⟩ | ⟨hflag', hlt'⟩
  · exact Or.inl ⟨hview'.trans hview, hflag'.trans hflag, hQ, hview ▸ hR⟩
  · exact Or.inr ⟨hflag', hview ▸ hlt'⟩
  · exact Or.inr ⟨hflag'.trans hflag, hview' ▸ hlt⟩
  · exact Or.inr ⟨hflag', hlt'.trans hlt⟩

/-- A step for each element of a list. -/
theorem narrows_foldl {Q : α → τ → Prop} (step : σ × Bool → α → σ × Bool) (l : List α)
    (h : ∀ a ∈ l, Narrows view μ (Q a) (step · a)) : Narrows view μ (fun x => ∀ a ∈ l, Q a x) (l.foldl step ·) := by
  induction l with
  | nil => exact narrows_id fun x a ha => absurd ha List.not_mem_nil
  | cons a l ih =>
    have hrest := (h a List.mem_cons_self).comp (ih fun b hb => h b (List.mem_cons_of_mem _ hb))
    exact hrest.mono fun x hx => List.forall_mem_cons.mpr hx

/-- One of two steps, as the state has it. -/
theorem narrows_ite {Q Q' R : τ → Prop} {step step' : σ × Bool → σ × Bool} {q : σ × Bool → Prop} [DecidablePred q]
    (h : Narrows view μ Q step) (h' : Narrows view μ Q' step') (hR : ∀ p, q p → Q (view p.1) → R (view p.1))
    (hR' : ∀ p, ¬ q p → Q' (view p.1) → R (view p.1)) :
    Narrows view μ R fun p => if q p then step p else step' p := by
  intro p
  dsimp only
  split
  · next hq => exact (h p).imp_left fun h => ⟨h.1, h.2.1, hR p hq h.2.2⟩
  · next hq => exact (h' p).imp_left fun h => ⟨h.1, h.2.1, hR' p hq h.2.2⟩

/-- A round whose steps narrow decreases the measure when it reports a change. -/
theorem Narrows.lt {Q : τ → Prop} {step : σ × Bool → σ × Bool} (h : Narrows view μ Q step) {s : σ}
    (hchanged : (step (s, false)).2 = true) : μ (view (step (s, false)).1) < μ (view s) := by
  rcases h (s, false) with ⟨-, hflag, -⟩ | ⟨-, hlt⟩
  · rw [hchanged] at hflag
    cases hflag
  · exact hlt

/-- A round that reports no change has changed nothing. -/
theorem Narrows.quiet {Q : τ → Prop} {step : σ × Bool → σ × Bool} (h : Narrows view μ Q step) {s : σ}
    (hquiet : (step (s, false)).2 = false) : view (step (s, false)).1 = view s ∧ Q (view s) := by
  rcases h (s, false) with ⟨hview, -, hQ⟩ | ⟨hflag, -⟩
  · exact ⟨hview, hQ⟩
  · rw [hquiet] at hflag
    cases hflag

end

/-! ## Sequences that come to rest -/

/-- A number that never grows comes to rest. -/
theorem eventually_const {φ : ℕ → ℕ} (h : ∀ t, φ (t + 1) ≤ φ t) : ∃ N, ∀ t, N ≤ t → φ t = φ N := by
  have hanti : Antitone φ := antitone_nat_of_succ_le h
  obtain ⟨-, ⟨N, rfl⟩, hmin⟩ := WellFounded.has_min wellFounded_lt (Set.range φ) ⟨_, 0, rfl⟩
  refine ⟨N, fun t ht => Nat.le_antisymm (hanti ht) ?_⟩
  exact Nat.le_of_not_lt (hmin _ ⟨t, rfl⟩)

/-- A statement that follows itself from one time to the next, in the way that a monotone rule makes it, comes to
rest: it is kept from then on, or lost and never regained. -/
theorem eventually_constant {x : ℕ → Prop} {N : ℕ}
    (h : ∀ t t', N ≤ t → N ≤ t' → (x t → x t') → x (t + 1) → x (t' + 1)) :
    ∃ M, N ≤ M ∧ ∀ t, M ≤ t → (x t ↔ x M) := by
  by_cases hup : x N → x (N + 1)
  · have hkeeps : ∀ t, N ≤ t → x t → x (t + 1) := by
      intro t ht
      induction t, ht using Nat.le_induction with
      | base => exact hup
      | succ t ht ih => exact h t (t + 1) ht (by omega) ih
    by_cases hever : ∃ M, N ≤ M ∧ x M
    · obtain ⟨M, hM, hx⟩ := hever
      refine ⟨M, hM, fun t ht => iff_of_true ?_ hx⟩
      induction t, ht using Nat.le_induction with
      | base => exact hx
      | succ t ht ih => exact hkeeps t (by omega) ih
    · push Not at hever
      exact ⟨N, le_rfl, fun t ht => iff_of_false (hever t ht) (hever N le_rfl)⟩
  · have hlost : ¬ x (N + 1) := fun hx => hup fun _ => hx
    have hback : ∀ t, N ≤ t → x (t + 1) → x t := by
      intro t ht
      induction t, ht using Nat.le_induction with
      | base => exact fun hx => absurd hx hlost
      | succ t ht ih => exact h (t + 1) t (by omega) ht ih
    refine ⟨N + 1, by omega, fun t ht => iff_of_false ?_ hlost⟩
    induction t, ht using Nat.le_induction with
    | base => exact hlost
    | succ t ht ih => exact fun hx => ih (hback t (by omega) hx)

/-- A vector of statements, each made anew from itself and those behind it by a monotone rule, comes to rest. -/
theorem eventually_settled {x : ℕ → ℕ → Prop} {n N : ℕ}
    (h : ∀ f, f < n → ∀ t t', N ≤ t → N ≤ t' → (∀ g, f ≤ g → g < n → x t g → x t' g) → x (t + 1) f → x (t' + 1) f) :
    ∃ M, N ≤ M ∧ ∀ t, M ≤ t → ∀ f, f < n → (x t f ↔ x M f) := by
  -- from the last entry to the first: the entries behind one are at rest before it is
  have hbehind : ∀ d, d ≤ n → ∃ M, N ≤ M ∧ ∀ t, M ≤ t → ∀ f, n - d ≤ f → f < n → (x t f ↔ x M f) := by
    intro d hd
    induction d with
    | zero => exact ⟨N, le_rfl, fun t _ f hf hlt => by omega⟩
    | succ d ih =>
      obtain ⟨M, hM, hrest⟩ := ih (by omega)
      obtain ⟨M', hM', hown⟩ := @eventually_constant (fun t => x t (n - (d + 1))) M fun t t' ht ht' himp =>
        h (n - (d + 1)) (by omega) t t' (by omega) (by omega) fun g hg hlt hx => by
          rcases Nat.eq_or_lt_of_le hg with rfl | hg
          · exact himp hx
          · exact (hrest t' ht' g (by omega) hlt).mpr ((hrest t ht g (by omega) hlt).mp hx)
      refine ⟨M', by omega, fun t ht f hf hlt => ?_⟩
      rcases Nat.eq_or_lt_of_le hf with rfl | hf
      · exact hown t ht
      · exact (hrest t (by omega) f (by omega) hlt).trans (hrest M' hM' f (by omega) hlt).symm
  obtain ⟨M, hM, hrest⟩ := hbehind n le_rfl
  exact ⟨M, hM, fun t ht f hf => hrest t ht f (by omega) hf⟩

end Rounds
