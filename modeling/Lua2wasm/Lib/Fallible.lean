import Mathlib

/-!
# Fallible state computations

A computation in `StateT σ (Except ε)` either fails or returns a value with a new state. A successful
run of a `do` block splits into successful runs of its steps. These are the rules that do the
splitting.
-/

namespace Fallible

variable {σ ε α β : Type}
variable {x : Except ε α} {f : α → StateT σ (Except ε) β} {P : α → Prop}

/-- A successful run of a sequence is a successful run of each part. -/
theorem bind_ok {x : StateT σ (Except ε) α} {s s' : σ} {b : β}
    (h : (x >>= f) s = .ok (b, s')) : ∃ a s₁, x s = .ok (a, s₁) ∧ f a s₁ = .ok (b, s') := by
  change (x s >>= fun r => f r.1 r.2) = _ at h
  cases hx : x s with
  | error e => rw [hx] at h; cases h
  | ok r => rw [hx] at h; exact ⟨r.1, r.2, rfl, h⟩

/-- A run of `pure` returns its value and leaves the state. -/
theorem pure_ok {a b : α} {s s' : σ} (h : (pure a : StateT σ (Except ε) α) s = .ok (b, s')) :
    a = b ∧ s = s' := by
  cases h
  exact ⟨rfl, rfl⟩

/-- A run that ends with a value made from a result. -/
theorem bind_pure_ok {x : StateT σ (Except ε) α} {g : α → β} {s s' : σ} {b : β}
    (h : (x >>= fun a => pure (g a)) s = .ok (b, s')) : ∃ a, x s = .ok (a, s') ∧ g a = b := by
  obtain ⟨a, s₁, hx, hg⟩ := bind_ok h
  obtain ⟨rfl, rfl⟩ := pure_ok hg
  exact ⟨a, hx, rfl⟩

/-- The same success has the same value and the same state. -/
theorem ok_inj {a b : α} {s s' : σ} (h : (.ok (a, s) : Except ε (α × σ)) = .ok (b, s')) : a = b ∧ s = s' :=
  Prod.mk.inj (Except.ok.inj h)

/-- A failing computation has no successful run. -/
theorem throw_ok {e : ε} {b : α} {s s' : σ} (h : (throw e : StateT σ (Except ε) α) s = .ok (b, s')) :
    False := by
  cases h

/-- Whatever the computation returns has the property. -/
def Yields (x : StateT σ (Except ε) α) (Q : α → Prop) : Prop := ∀ s a s', x s = .ok (a, s') → Q a

theorem yields_pure {a : α} {Q : α → Prop} (h : Q a) : Yields (pure a : StateT σ (Except ε) α) Q := by
  intro s b s' hrun
  obtain ⟨rfl, -⟩ := pure_ok hrun
  exact h

theorem Yields.bind {x : StateT σ (Except ε) α} {Q : α → Prop} {R : β → Prop}
    (h : Yields x Q) (hf : ∀ a, Q a → Yields (f a) R) : Yields (x >>= f) R := by
  intro s b s' hrun
  obtain ⟨a, s₁, hx, hfa⟩ := bind_ok hrun
  exact hf a (h s a s₁ hx) s₁ b s' hfa

/-- After a part of whose result nothing needs to be known. -/
theorem yields_after {x : StateT σ (Except ε) α} {R : β → Prop}
    (hf : ∀ a, Yields (f a) R) : Yields (x >>= f) R :=
  Yields.bind (fun _ _ _ _ => trivial : Yields x fun _ => True) fun a _ => hf a

/-- A successful sequence of plain fallible computations splits in the same way. -/
theorem except_bind_ok {f : α → Except ε β} {b : β} (h : (x >>= f) = .ok b) : ∃ a, x = .ok a ∧ f a = .ok b := by
  cases x with
  | error e => cases h
  | ok a => exact ⟨a, rfl, h⟩

/-- A successful mapped computation. -/
theorem map_ok {f : α → β} {b : β} (h : x.map f = .ok b) : ∃ a, x = .ok a ∧ f a = b := by
  cases x with
  | error e => cases h
  | ok a => exact ⟨a, rfl, Except.ok.inj h⟩

/-- A computation that is known to succeed has a result. -/
theorem toBool_ok (h : x.toBool = true) : ∃ a, x = .ok a := by
  cases x with
  | error e => cases h
  | ok a => exact ⟨a, rfl⟩

/-- A computation of whose result something is known. -/
theorem toOption_map_some {f : α → β} {b : β} (h : x.toOption.map f = some b) : ∃ a, x = .ok a ∧ f a = b := by
  cases x with
  | error e => cases h
  | ok a => exact ⟨a, rfl, Option.some.inj h⟩

/-- The computation does not fail with `e`, and if it succeeds its result has the property. -/
def Avoids (e : ε) (x : Except ε α) (P : α → Prop) : Prop := x ≠ .error e ∧ ∀ a, x = .ok a → P a

theorem avoids_ok {e : ε} {a : α} (h : P a) : Avoids e (.ok a) P := by
  constructor
  · nofun
  · rintro b ⟨⟩
    exact h

theorem avoids_error {e e' : ε} (h : e' ≠ e) : Avoids e (.error e' : Except ε α) P := by
  constructor
  · rintro ⟨⟩
    exact h rfl
  · nofun

/-- A sequence avoids a failure if both of its parts do. -/
theorem Avoids.bind {e : ε} {f : α → Except ε β} {Q : β → Prop}
    (h : Avoids e x P) (hf : ∀ a, P a → Avoids e (f a) Q) : Avoids e (x >>= f) Q := by
  cases x with
  | error e' =>
    apply avoids_error
    rintro rfl
    exact h.1 rfl
  | ok a => exact hf a (h.2 a rfl)

theorem Avoids.mono {e : ε} {P Q : α → Prop} (h : Avoids e x P) (himp : ∀ a, P a → Q a) : Avoids e x Q :=
  ⟨h.1, fun a ha => himp a (h.2 a ha)⟩

/-- A sequence of which the first part is known to succeed, where failures have no message. -/
theorem bind_some {x : StateT σ Option α} {f : α → StateT σ Option β} {s s₁ : σ} {a : α}
    (h : x s = some (a, s₁)) : (x >>= f) s = f a s₁ := by
  change (x s).bind (fun r => f r.1 r.2) = _
  rw [h]
  rfl

end Fallible
