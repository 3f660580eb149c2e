import Mathlib

/-!
# Computations that keep their state when they raise

`ExceptT ε (StateM σ)` is a computation that may raise an error, with the changes that it made to
the state before. `Meets x s Q E` says how it ends from the state `s`: with a value and a state that
`Q` holds of, or with an error and a state that `E` holds of. The rules follow the structure of a
computation.
-/

namespace Raising

variable {ε σ α β : Type}

/-- From `s` on, the computation returns with `Q`, or raises with `E`. It is irreducible, so that
nothing runs a computation to see what it meets. -/
@[irreducible] def Meets (x : ExceptT ε (StateM σ) α) (s : σ) (Q : α → σ → Prop) (E : ε → σ → Prop) : Prop :=
  match (x.run s : Except ε α × σ) with
  | (.ok a, s') => Q a s'
  | (.error e, s') => E e s'

/-- From `s` on, the computation returns, with `Q`. -/
abbrev Ensures (x : ExceptT ε (StateM σ) α) (s : σ) (Q : α → σ → Prop) : Prop := Meets x s Q fun _ _ => False

variable {x : ExceptT ε (StateM σ) α} {f : α → ExceptT ε (StateM σ) β} {s : σ}
variable {s' : σ} {a : α}
  {Q Q' : α → σ → Prop} {R : β → σ → Prop} {E E' : ε → σ → Prop}

theorem meets_pure (h : Q a s) : Meets (pure a) s Q E := by
  unfold Meets
  exact h

theorem meets_throw {e : ε} (h : E e s) : Meets (throw e) s Q E := by
  unfold Meets
  exact h

theorem meets_get {P : σ → σ → Prop} (h : P s s) :
    Meets (get : ExceptT ε (StateM σ) σ) s P E := by
  unfold Meets
  exact h

theorem meets_set {P : PUnit → σ → Prop} (h : P ⟨⟩ s') : Meets (set s' : ExceptT ε (StateM σ) PUnit) s P E := by
  unfold Meets
  exact h

theorem meets_modify {g : σ → σ} {P : PUnit → σ → Prop} (h : P ⟨⟩ (g s)) :
    Meets (modify g : ExceptT ε (StateM σ) PUnit) s P E := by
  unfold Meets
  exact h

/-- A weaker condition on the result, or on the error. -/
theorem Meets.mono (h : Meets x s Q E) (hQ : ∀ a s', Q a s' → Q' a s')
    (hE : ∀ e s', E e s' → E' e s') : Meets x s Q' E' := by
  unfold Meets at h ⊢
  generalize (x.run s : Except ε α × σ) = r at h
  obtain ⟨r | a, s'⟩ := r
  · exact hE _ _ h
  · exact hQ _ _ h

/-- A weaker condition on the result alone. -/
theorem Meets.imp (h : Meets x s Q E) (hQ : ∀ a s', Q a s' → Q' a s') : Meets x s Q' E := h.mono hQ fun _ _ h => h

/-- A weaker condition on the error alone. -/
theorem Meets.imp_error (h : Meets x s Q E) (hE : ∀ e s', E e s' → E' e s') : Meets x s Q E' :=
  h.mono (fun _ _ h => h) hE

/-- A sequence: the second part runs from where the first returns. -/
theorem Meets.bind (h : Meets x s Q E) (hf : ∀ a s', Q a s' → Meets (f a) s' R E) :
    Meets (x >>= f) s R E := by
  have hrun : ((x >>= f).run s : Except ε β × σ) =
      match (x.run s : Except ε α × σ) with
      | (.ok a, s') => (f a).run s'
      | (.error e, s') => (.error e, s') := by
    change ((x.run >>= ExceptT.bindCont f) s : Except ε β × σ) = _
    change ExceptT.bindCont f (x.run s : Except ε α × σ).1 (x.run s : Except ε α × σ).2 = _
    generalize (x.run s : Except ε α × σ) = r
    obtain ⟨r | a, s'⟩ := r <;> rfl
  unfold Meets at h ⊢
  rw [hrun]
  generalize (x.run s : Except ε α × σ) = r at h
  obtain ⟨r | a, s'⟩ := r
  · exact h
  · have hnext := hf a s' h
    unfold Meets at hnext
    exact hnext

/-- A sequence that starts with a computation that never raises. -/
theorem Meets.bind_safe (h : Ensures x s Q) (hf : ∀ a s', Q a s' → Meets (f a) s' R E) :
    Meets (x >>= f) s R E :=
  (h.imp_error fun _ _ h => h.elim).bind hf

/-- A computation that only reads the state, as the first part of a sequence. -/
theorem meets_get_bind {f : σ → ExceptT ε (StateM σ) β} (h : Meets (f s) s R E) :
    Meets (get >>= f) s R E :=
  (meets_get (P := fun a s' => a = s ∧ s' = s) ⟨rfl, rfl⟩).bind fun a s' ha => by
    obtain ⟨rfl, rfl⟩ := ha
    exact h

theorem meets_pure_bind (h : Meets (f a) s R E) : Meets (pure a >>= f) s R E :=
  (meets_pure (Q := fun b s' => b = a ∧ s' = s) ⟨rfl, rfl⟩).bind fun b s' hb => by
    obtain ⟨rfl, rfl⟩ := hb
    exact h

theorem meets_set_bind {f : PUnit → ExceptT ε (StateM σ) β} (h : Meets (f ⟨⟩) s' R E) :
    Meets (set s' >>= f) s R E :=
  (meets_set (P := fun _ t => t = s') rfl).bind fun a t ht => by
    obtain rfl := ht
    exact h

theorem meets_modify_bind {g : σ → σ} {f : PUnit → ExceptT ε (StateM σ) β}
    (h : Meets (f ⟨⟩) (g s) R E) : Meets (modify g >>= f) s R E :=
  (meets_modify (P := fun _ t => t = g s) rfl).bind fun a t ht => by
    obtain rfl := ht
    exact h

/-- How the computation ends may be used for what it meets. -/
theorem Meets.with_run (h : Meets x s Q E) :
    Meets x s (fun a s' => Q a s' ∧ (x.run s : Except ε α × σ) = (.ok a, s'))
      (fun e s' => E e s' ∧ (x.run s : Except ε α × σ) = (.error e, s')) := by
  unfold Meets at h ⊢
  generalize (x.run s : Except ε α × σ) = r at h ⊢
  obtain ⟨r | a, s'⟩ := r
  · exact ⟨h, rfl⟩
  · exact ⟨h, rfl⟩

/-- Two conditions that the computation meets. -/
theorem Meets.and (h : Meets x s Q E) (h' : Meets x s Q' E') :
    Meets x s (fun a s' => Q a s' ∧ Q' a s') (fun e s' => E e s' ∧ E' e s') := by
  unfold Meets at h h' ⊢
  generalize (x.run s : Except ε α × σ) = r at h h' ⊢
  obtain ⟨r | a, s'⟩ := r
  · exact ⟨h, h'⟩
  · exact ⟨h, h'⟩

/-- What a computation meets says how it ends. -/
theorem Meets.of_ok (h : Meets x s Q E) (hx : (x.run s : Except ε α × σ) = (.ok a, s')) : Q a s' := by
  unfold Meets at h
  rw [hx] at h
  exact h

theorem Meets.of_error {e : ε} (h : Meets x s Q E) (hx : (x.run s : Except ε α × σ) = (.error e, s')) : E e s' := by
  unfold Meets at h
  rw [hx] at h
  exact h

/-- From `s` on, the computation returns `a` and ends in `s'`. -/
def Returns (x : ExceptT ε (StateM σ) α) (s : σ) (a : α) (s' : σ) : Prop :=
  (x.run s : Except ε α × σ) = (.ok a, s')

/-- A sequence that starts with a computation whose end is known. -/
theorem Returns.bind_meets (h : Returns x s a s') (hf : Meets (f a) s' R E) : Meets (x >>= f) s R E := by
  have hx : Meets x s (fun b t => b = a ∧ t = s') E := by
    unfold Meets
    rw [show (x.run s : Except ε α × σ) = _ from h]
    exact ⟨rfl, rfl⟩
  apply hx.bind
  rintro _ _ ⟨rfl, rfl⟩
  exact hf

/-- A sequence of two computations whose ends are known. -/
theorem Returns.bind {s' s'' : σ} {b : β} (h : Returns x s a s') (hf : Returns (f a) s' b s'') :
    Returns (x >>= f) s b s'' := by
  have hrun : Meets (x >>= f) s (fun c t => c = b ∧ t = s'') (fun _ _ => False) := by
    apply h.bind_meets
    unfold Meets
    rw [show ((f a).run s' : Except ε β × σ) = _ from hf]
    exact ⟨rfl, rfl⟩
  unfold Meets at hrun
  unfold Returns
  generalize ((x >>= f).run s : Except ε β × σ) = r at hrun ⊢
  obtain ⟨r | c, t⟩ := r
  · exact absurd hrun id
  · obtain ⟨rfl, rfl⟩ := hrun
    rfl

/-- A sequence goes on from where its first part returns. -/
theorem Returns.run_bind (h : Returns x s a s') (f : α → ExceptT ε (StateM σ) β) :
    ((x >>= f).run s : Except ε β × σ) = (f a).run s' := by
  have hrun : Meets (x >>= f) s (fun b t => ((f a).run s' : Except ε β × σ) = (.ok b, t))
      (fun e t => ((f a).run s' : Except ε β × σ) = (.error e, t)) := by
    apply h.bind_meets
    unfold Meets
    generalize ((f a).run s' : Except ε β × σ) = r
    obtain ⟨r | b, t⟩ := r <;> rfl
  unfold Meets at hrun
  generalize ((x >>= f).run s : Except ε β × σ) = r at hrun ⊢
  obtain ⟨r | b, t⟩ := r <;> exact hrun.symm

/-- A sequence that starts by reading the state. -/
theorem returns_get_bind {b : β} {f : σ → ExceptT ε (StateM σ) β} (h : Returns (f s) s b s') :
    Returns (get >>= f) s b s' :=
  Returns.bind (show Returns get s s s from rfl) h

/-- A computation whose end is known meets what holds of it. -/
theorem Returns.meets (h : Returns x s a s') (hQ : Q a s') : Meets x s Q E := by
  unfold Meets
  rw [show (x.run s : Except ε α × σ) = _ from h]
  exact hQ

/-- A computation that never raises returns. -/
theorem Meets.returns (h : Meets x s Q fun _ _ => False) : ∃ a s', Returns x s a s' ∧ Q a s' := by
  unfold Meets at h
  unfold Returns
  generalize (x.run s : Except ε α × σ) = r at h ⊢
  obtain ⟨r | a, s'⟩ := r
  · exact absurd h id
  · exact ⟨a, s', rfl, h⟩

/-- A computation whose end is known ends in no other way. -/
theorem Returns.of_meets (h : Returns x s a s') (hx : Meets x s Q E) : Q a s' :=
  hx.of_ok h

end Raising
