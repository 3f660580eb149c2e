import Lua2wasm.Lib.Raising

/-!
# Where a computation can take the state

`Moves R x` says that the computation `x` takes every state to one that `R` relates to it, whether it
returns or raises. For a preorder `R` it goes through sequences, so that a relation on the states is
proved for a whole program from its single steps.
-/

namespace Raising

variable {ε σ α β : Type} {R : σ → σ → Prop} {x : ExceptT ε (StateM σ) α} {f : α → ExceptT ε (StateM σ) β}

/-- However it ends, the computation moves the state along `R`. -/
def Moves (R : σ → σ → Prop) (x : ExceptT ε (StateM σ) α) : Prop :=
  ∀ s, Meets x s (fun _ s' => R s s') fun _ s' => R s s'

theorem moves_pure [Std.Refl R] (a : α) : Moves R (pure a : ExceptT ε (StateM σ) α) :=
  fun s => meets_pure (Std.Refl.refl s)

theorem moves_throw [Std.Refl R] (e : ε) : Moves R (throw e : ExceptT ε (StateM σ) α) :=
  fun s => meets_throw (Std.Refl.refl s)

theorem moves_get [Std.Refl R] : Moves R (get : ExceptT ε (StateM σ) σ) :=
  fun s => meets_get (Std.Refl.refl s)

theorem moves_modify {g : σ → σ} (h : ∀ s, R s (g s)) : Moves R (modify g : ExceptT ε (StateM σ) PUnit) :=
  fun s => meets_modify (h s)

/-- A sequence moves the state along both parts. -/
theorem Moves.bind [IsTrans σ R] (h : Moves R x) (hf : ∀ a, Moves R (f a)) : Moves R (x >>= f) := by
  intro s
  -- an error of the first part is one of the sequence
  have hx : Meets x s (fun _ s' => R s s') fun _ s' => R s s' := h s
  apply hx.bind
  intro a s' hs
  exact (hf a s').mono (fun _ _ hs' => IsTrans.trans _ _ _ hs hs') fun _ _ hs' => IsTrans.trans _ _ _ hs hs'

/-- A sequence that starts by reading the state, when its rest depends on what was read. -/
theorem moves_get_bind {f : σ → ExceptT ε (StateM σ) β}
    (h : ∀ s, Meets (f s) s (fun _ s' => R s s') fun _ s' => R s s') : Moves R (get >>= f) :=
  fun s => meets_get_bind (h s)

theorem moves_map [IsTrans σ R] [Std.Refl R] (g : α → β) (h : Moves R x) : Moves R (g <$> x) := by
  rw [map_eq_pure_bind]
  exact h.bind fun a => moves_pure _

end Raising
