import Mathlib

/-!
# Structured control

Code with labelled blocks and loops, and a program logic for it. A branch names a label and leaves
the constructs inside the innermost one of that name: a block is left, a loop is entered again. The
instructions and the state they act on are parameters, given by a machine, so that one emitted
program can be run under several readings of its instructions.

`run` interprets code with a bound on its depth. When the bound runs out the run stops where it is,
so what is proved of every result of every bound is proved of every state that the code passes
through, whether it ends or not. `Triple` is the judgement of a Hoare logic whose postcondition has
one part for each way of leaving the code.
-/

namespace Structured

/-- How an instruction ends. -/
inductive Signal
  | ok
  | err
  | trap
  | stop
  deriving DecidableEq, Repr

/-- How a piece of code is left. -/
inductive Outcome (L : Type)
  | next
  | br (l : L)
  | ret
  | err
  | trap
  | stop
  deriving DecidableEq, Repr

/-- The outcome of an instruction. -/
def Signal.outcome {L : Type} : Signal → Outcome L
  | .ok => .next
  | .err => .err
  | .trap => .trap
  | .stop => .stop

/-- Code, over labels `L`, instructions `A` and index registers `X`. A conditional reads the flag
that the last test set. -/
inductive Code (L A X : Type)
  | op (a : A)
  | block (l : L) (body : List (Code L A X))
  | loop (l : L) (body : List (Code L A X))
  | br (l : L)
  | brIf (l : L)
  | brTable (x : X) (targets : List L) (default : L)
  | ite (thn els : List (Code L A X))
  | ret
  | tryTable (l : L) (body : List (Code L A X))
  | unreachable

/-- A reading of the instructions over states `σ`. -/
structure Machine (A X σ : Type) where
  /-- What an instruction does. -/
  op : A → σ → Signal × σ
  /-- The flag that conditionals read. -/
  flag : σ → Bool
  /-- The value of an index register. -/
  index : X → σ → ℕ

variable {L A X σ : Type} [DecidableEq L]

/-- A block turns a branch to its label into falling through. -/
def Outcome.leave (l : L) : Outcome L → Outcome L
  | .br l' => if l' = l then .next else .br l'
  | o => o

/-- A handler turns an error into a branch to its label. -/
def Outcome.catching (l : L) : Outcome L → Outcome L
  | .err => .br l
  | o => o

/-- What one instruction does, where `exec` runs the code inside it. -/
def runOne (m : Machine A X σ) (exec : List (Code L A X) → σ → Outcome L × σ) :
    Code L A X → σ → Outcome L × σ
  | .op a, s => ((m.op a s).1.outcome, (m.op a s).2)
  | .block l body, s => ((exec body s).1.leave l, (exec body s).2)
  | .loop l body, s =>
    if (exec body s).1 = .br l then exec [.loop l body] (exec body s).2 else exec body s
  | .br l, s => (.br l, s)
  | .brIf l, s => (if m.flag s then .br l else .next, s)
  | .brTable x targets default, s => (.br (targets.getD (m.index x s) default), s)
  | .ite thn els, s => exec (if m.flag s then thn else els) s
  | .ret, s => (.ret, s)
  | .tryTable l body, s => ((exec body s).1.catching l, (exec body s).2)
  | .unreachable, s => (.trap, s)

/-- Runs code with a bound on its depth. -/
def run (m : Machine A X σ) : ℕ → List (Code L A X) → σ → Outcome L × σ
  | _, [], s => (.next, s)
  | 0, _ :: _, s => (.stop, s)
  | n + 1, i :: code, s =>
    let r := runOne m (run m n) i s
    if r.1 = .next then run m n code r.2 else r

/-- No code falls through. -/
@[simp] theorem run_nil (m : Machine A X σ) (n : ℕ) (s : σ) :
    run m n ([] : List (Code L A X)) s = (.next, s) := by
  cases n <;> rfl

/-- The run of one instruction, given as code. -/
theorem run_singleton (m : Machine A X σ) (n : ℕ) (i : Code L A X) (s : σ) :
    run m (n + 1) [i] s = runOne m (run m n) i s := by
  unfold run
  dsimp only
  split
  · rename_i hnext
    rw [run_nil, ← hnext]
  · rfl

/-- Code before more code. -/
theorem run_append (m : Machine A X σ) (code rest : List (Code L A X)) (n : ℕ) (s : σ) :
    run m n (code ++ rest) s =
      if (run m n code s).1 = .next then run m (n - code.length) rest (run m n code s).2
      else run m n code s := by
  induction code generalizing n s with
  | nil => simp
  | cons i code ih =>
    cases n with
    | zero => simp [run]
    | succ n =>
      simp only [List.cons_append, run, List.length_cons, Nat.add_sub_add_right]
      split
      · exact ih n _
      · rfl

/-- `code`, begun where `P` holds, is left only as `Q` says. -/
def Triple (m : Machine A X σ) (P : σ → Prop) (code : List (Code L A X))
    (Q : Outcome L → σ → Prop) : Prop :=
  ∀ n s, P s → Q (run m n code s).1 (run m n code s).2

/-- The judgement for one instruction. -/
def TripleOne (m : Machine A X σ) (P : σ → Prop) (i : Code L A X)
    (Q : Outcome L → σ → Prop) : Prop :=
  ∀ n s, P s → Q (runOne m (run m n) i s).1 (runOne m (run m n) i s).2

/-- The postcondition `Q` with `R` for falling through. -/
def onNext (R : σ → Prop) (Q : Outcome L → σ → Prop) (o : Outcome L) : σ → Prop :=
  if o = .next then R else Q o

/-- The postcondition `Q` with `R` for a branch to `l`. -/
def onBr (l : L) (R : σ → Prop) (Q : Outcome L → σ → Prop) (o : Outcome L) : σ → Prop :=
  if o = .br l then R else Q o

/-- Only the first condition for falling through counts. -/
theorem onNext_onNext (R R' : σ → Prop) (Q : Outcome L → σ → Prop) :
    onNext R (onNext R' Q) = onNext R Q := by
  funext o
  unfold onNext
  split <;> rfl

/-- A weaker postcondition for the other ways of leaving. -/
theorem onNext_mono {R R' : σ → Prop} {Q Q' : Outcome L → σ → Prop} (hR : ∀ s, R s → R' s)
    (hQ : ∀ o s, Q o s → Q' o s) {o : Outcome L} {s : σ} (h : onNext R Q o s) :
    onNext R' Q' o s := by
  unfold onNext at h ⊢
  split
  · rename_i ho
    rw [if_pos ho] at h
    exact hR s h
  · rename_i ho
    rw [if_neg ho] at h
    exact hQ o s h

namespace Triple

variable {m : Machine A X σ} {P P' : σ → Prop} {Q Q' : Outcome L → σ → Prop}
  {code : List (Code L A X)}

/-- Consequence. -/
theorem conseq (h : Triple m P code Q) (hP : ∀ s, P' s → P s) (hQ : ∀ o s, Q o s → Q' o s) :
    Triple m P' code Q' :=
  fun n s hs => hQ _ _ (h n s (hP s hs))

/-- A stronger precondition. -/
theorem pre (h : Triple m P code Q) (hP : ∀ s, P' s → P s) : Triple m P' code Q :=
  h.conseq hP fun _ _ hq => hq

/-- A weaker postcondition. -/
theorem post (h : Triple m P code Q) (hQ : ∀ o s, Q o s → Q' o s) : Triple m P code Q' :=
  h.conseq (fun _ hs => hs) hQ

end Triple

namespace TripleOne

variable {m : Machine A X σ} {P P' : σ → Prop} {Q Q' : Outcome L → σ → Prop}
  {body thn els : List (Code L A X)} {i : Code L A X} {l : L}

/-- Consequence. -/
theorem conseq (h : TripleOne m P i Q) (hP : ∀ s, P' s → P s) (hQ : ∀ o s, Q o s → Q' o s) :
    TripleOne m P' i Q' :=
  fun n s hs => hQ _ _ (h n s (hP s hs))

/-- An instruction of the machine. -/
theorem op {a : A} (h : ∀ s, P s → Q (m.op a s).1.outcome (m.op a s).2) :
    TripleOne m P (.op a) Q :=
  fun _ s hs => h s hs

/-- A block: a branch to its label falls through. -/
theorem block (h : Triple m P body (fun o => Q (o.leave l))) : TripleOne m P (.block l body) Q :=
  fun n s hs => h n s hs

/-- A loop, by an invariant that every branch to its label restores. -/
theorem loop (h : Triple m P body (onBr l P Q)) (hstop : ∀ s, P s → Q .stop s) :
    TripleOne m P (.loop l body) Q := by
  intro n
  induction n with
  | zero =>
    intro s hs
    have hb := h 0 s hs
    unfold onBr at hb
    simp only [runOne]
    split
    · rename_i hbr
      rw [if_pos hbr] at hb
      exact hstop _ hb
    · rename_i hbr
      rwa [if_neg hbr] at hb
  | succ n ih =>
    intro s hs
    have hb := h (n + 1) s hs
    unfold onBr at hb
    simp only [runOne]
    split
    · rename_i hbr
      -- The body asks for another iteration, so the invariant holds where that one begins.
      rw [if_pos hbr] at hb
      rw [run_singleton]
      exact ih _ hb
    · rename_i hbr
      rwa [if_neg hbr] at hb

/-- A branch. -/
theorem br (h : ∀ s, P s → Q (.br l) s) : TripleOne m P (.br l : Code L A X) Q :=
  fun _ s hs => h s hs

/-- A block whose branches to its own label join its falling through. -/
theorem block_join {R : σ → Prop} (h : Triple m P body (onNext R (onBr l R Q))) :
    TripleOne m P (.block l body) (onNext R Q) := by
  refine block (h.post ?_)
  intro o s ho
  unfold onNext onBr at *
  cases o with
  | br l' =>
    by_cases hl : l' = l
    · simpa [Outcome.leave, hl] using ho
    · simpa [Outcome.leave, hl] using ho
  | next => simpa [Outcome.leave] using ho
  | _ => simpa [Outcome.leave] using ho

/-- A conditional branch. -/
theorem brIf (ht : ∀ s, P s → m.flag s → Q (.br l) s)
    (hf : ∀ s, P s → m.flag s = false → Q .next s) : TripleOne m P (.brIf l : Code L A X) Q := by
  intro n s hs
  simp only [runOne]
  split
  · rename_i hflag
    exact ht s hs hflag
  · rename_i hflag
    exact hf s hs (by simpa using hflag)

/-- A branch through a table. -/
theorem brTable {x : X} {targets : List L}
    (h : ∀ s, P s → Q (.br (targets.getD (m.index x s) l)) s) :
    TripleOne m P (.brTable x targets l : Code L A X) Q :=
  fun _ s hs => h s hs

/-- A conditional. -/
theorem ite (ht : Triple m (fun s => P s ∧ m.flag s) thn Q)
    (hf : Triple m (fun s => P s ∧ m.flag s = false) els Q) :
    TripleOne m P (.ite thn els) Q := by
  intro n s hs
  simp only [runOne]
  split
  · rename_i hflag
    exact ht n s ⟨hs, hflag⟩
  · rename_i hflag
    exact hf n s ⟨hs, by simpa using hflag⟩

/-- A return. -/
theorem ret (h : ∀ s, P s → Q .ret s) : TripleOne m P (.ret : Code L A X) Q :=
  fun _ s hs => h s hs

/-- A handler: an error becomes a branch to its label. -/
theorem tryTable (h : Triple m P body (fun o => Q (o.catching l))) :
    TripleOne m P (.tryTable l body) Q :=
  fun n s hs => h n s hs

/-- The end of code that no run reaches. -/
theorem unreachable (h : ∀ s, ¬ P s) : TripleOne m P (.unreachable : Code L A X) Q :=
  fun _ s hs => absurd hs (h s)

end TripleOne

namespace Triple

variable {m : Machine A X σ} {P R : σ → Prop} {Q : Outcome L → σ → Prop}
  {code rest body : List (Code L A X)} {i : Code L A X} {l : L}

/-- No code. -/
theorem nil (h : ∀ s, P s → Q .next s) : Triple m P ([] : List (Code L A X)) Q := by
  intro n s hs
  rw [run_nil]
  exact h s hs

/-- An instruction before the rest. -/
theorem cons (hstop : ∀ s, P s → Q .stop s) (hi : TripleOne m P i (onNext R Q))
    (hrest : Triple m R rest Q) : Triple m P (i :: rest) Q := by
  intro n s hs
  cases n with
  | zero => exact hstop s hs
  | succ n =>
    have h := hi n s hs
    unfold onNext at h
    simp only [run]
    split
    · rename_i hnext
      rw [if_pos hnext] at h
      exact hrest n _ h
    · rename_i hnext
      rwa [if_neg hnext] at h

/-- One instruction alone. -/
theorem singleton (hstop : ∀ s, P s → Q .stop s) (hi : TripleOne m P i Q) : Triple m P [i] Q := by
  intro n s hs
  cases n with
  | zero => exact hstop s hs
  | succ n =>
    rw [run_singleton]
    exact hi n s hs

/-- Code before more code: what the first part establishes on falling through is what the second
needs. -/
theorem append (h : Triple m P code (onNext R Q)) (hrest : Triple m R rest Q) :
    Triple m P (code ++ rest) Q := by
  intro n s hs
  have hc := h n s hs
  unfold onNext at hc
  rw [run_append]
  split
  · rename_i hnext
    rw [if_pos hnext] at hc
    exact hrest _ _ hc
  · rename_i hnext
    rwa [if_neg hnext] at hc

/-- A conditional branch before the rest. -/
theorem brIf_cons (hstop : ∀ s, P s → Q .stop s) (hbr : ∀ s, P s → Q (.br l) s)
    (hrest : Triple m P rest Q) : Triple m P (.brIf l :: rest) Q := by
  refine cons (R := P) hstop (TripleOne.brIf ?_ ?_) hrest
  · intro s hs _
    simpa [onNext] using hbr s hs
  · intro s hs _
    simpa [onNext] using hs

/-- A block before the rest. -/
theorem block_cons {R' : σ → Prop} (hstop : ∀ s, P s → Q .stop s)
    (h : Triple m P body (onNext R (onBr l R Q))) (hrest : Triple m R rest (onNext R' Q)) :
    Triple m P (.block l body :: rest) (onNext R' Q) := by
  refine cons (R := R) ?_ ?_ hrest
  · intro s hs
    simpa [onNext] using hstop s hs
  · rw [onNext_onNext]
    exact TripleOne.block_join h

/-- A block that nothing follows. -/
theorem block_last (hstop : ∀ s, P s → Q .stop s) (h : Triple m P body (onNext R (onBr l R Q))) :
    Triple m P [.block l body] (onNext R Q) := by
  refine singleton ?_ (TripleOne.block_join h)
  intro s hs
  simpa [onNext] using hstop s hs

/-- A loop that nothing follows. -/
theorem loop_last (hstop : ∀ s, P s → Q .stop s) (h : Triple m P body (onBr l P Q)) :
    Triple m P [.loop l body] Q :=
  singleton hstop (TripleOne.loop h hstop)

/-- A branch that nothing follows. -/
theorem br_last (hstop : ∀ s, P s → Q .stop s) (hbr : ∀ s, P s → Q (.br l) s) :
    Triple m P ([.br l] : List (Code L A X)) Q :=
  singleton hstop (TripleOne.br hbr)

end Triple

end Structured
