import Mathlib

/-!
# Fallible state computations with a log

What a computation in `Logged σ ε ω` has logged stays when it fails. A sequence splits into the runs of its parts, as
without the log.
-/

/-- Computations on a state that may fail, with a log of `ω`. -/
abbrev Logged (σ ε ω : Type) := StateT σ (ExceptT ε (StateM (List ω)))

namespace Logged

variable {σ ε ω α β : Type} {m : Logged σ ε ω α} {f : α → Logged σ ε ω β} {s s' : σ} {log log' : List ω}

/-- A computation that logs nothing. -/
def silent (m : StateT σ (Except ε) α) : Logged σ ε ω α := fun s log => (m s, log)

instance : MonadLift (StateT σ (Except ε)) (Logged σ ε ω) := ⟨silent⟩

/-- An entry of the log. -/
def record (x : σ → Option ω) : Logged σ ε ω Unit := fun s log => (.ok ((), s), log ++ (x s).toList)

/-- A sequence whose first part succeeds. -/
theorem bind_of_ok {x : α} (h : m s log = (.ok (x, s'), log')) : (m >>= f) s log = f x s' log' := by
  change (ExceptT.bindCont (fun r => f r.1 r.2) (m s log).1 : StateM (List ω) _) (m s log).2 = _
  rw [h]
  rfl

/-- A sequence whose first part fails. -/
theorem bind_of_error {e : ε} (h : m s log = (.error e, log')) : (m >>= f) s log = (.error e, log') := by
  change (ExceptT.bindCont (fun r => f r.1 r.2) (m s log).1 : StateM (List ω) _) (m s log).2 = _
  rw [h]
  rfl

end Logged
