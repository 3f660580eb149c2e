import Lua2wasm.Calls.Machine

/-!
# The stack accounting is exact

The invariant ties the globals to what waits on the stack (`Stands`): the call depth is the number of
framed calls, the handler nesting the number of handlers that run, and `$stack_cost` is the sum of the
recorded weights, up to an offset. The offset changes only where a message handler or the close of an
unwind gets its headroom, so without these it is 0. What `$protected_call` saved is what the invariant
demands of the globals once its call is off the stack.
-/

namespace Lua2wasm.Calls

variable {c c' : Config} {g : Globals} {stack : List Item} {weights weights' : ℕ → Int32} {off : Int32}
  {n : ℕ}

/-- The framed calls of a stack. -/
def frames : List Item → ℕ
  | [] => 0
  | .framed :: stack => frames stack + 1
  | _ :: stack => frames stack

/-- The message handlers that run. -/
def handlers : List Item → ℕ
  | [] => 0
  | .handled _ :: stack => handlers stack + 1
  | _ :: stack => handlers stack

/-- Code of the program runs on top of this stack: no runtime function waits before the last framed
call. -/
def Running : List Item → Prop
  | [] => True
  | .framed :: _ => True
  | .bare :: stack => Running stack
  | .closeBody _ _ :: stack => Running stack
  | _ => False

/-- What waits on the stack is in order, and `$stack_cost` is off the sum of the weights by `off` on top of
it. -/
inductive Stands (weights : ℕ → Int32) : List Item → Int32 → Prop
  /-- The start of the program. -/
  | nil : Stands weights [] 0
  /-- A framed call. -/
  | framed {stack : List Item} {off : Int32} (h : Stands weights stack off) :
      Stands weights (.framed :: stack) off
  /-- A call without a frame. -/
  | bare {stack : List Item} {off : Int32} (h : Stands weights stack off) (hrun : Running stack) :
      Stands weights (.bare :: stack) off
  /-- A function with to-be-closed variables. -/
  | closeBody {stack : List Item} {off cost : Int32} (h : Stands weights stack off) (hrun : Running stack) :
      Stands weights (.closeBody (frames stack) cost :: stack) off
  /-- A protected call. -/
  | guarded {stack : List Item} {off : Int32} {saved : Saved} (h : Stands weights stack off)
      (hrun : Running stack) (hdepth : saved.depth = frames stack)
      (hcost : saved.cost = off + weightSum weights (frames stack)) (hnest : saved.nest = handlers stack) :
      Stands weights (.guarded saved :: stack) off
  /-- A message handler, which leaves the offset open. -/
  | handled {stack : List Item} {off off' : Int32} {outer : Bool} (h : Stands weights stack off) :
      Stands weights (.handled outer :: stack) off'
  /-- The closing of a scope. -/
  | closing {stack : List Item} {off : Int32} {cl : Closing} (h : Stands weights stack off)
      (hrun : Running stack) (hdepth : cl.depth = frames stack) (herr : cl.errobj = false)
      (hcost : cl.cost = off + weightSum weights (frames stack)) : Stands weights (.closing cl :: stack) off
  /-- The closing of an unwind, which leaves the offset open. -/
  | unwinding {stack : List Item} {off off' : Int32} {cl : Closing} (h : Stands weights stack off)
      (hrun : Running stack) (hdepth : cl.depth = frames stack) (hpending : cl.pending = true)
      (herr : cl.errobj = true) (hcost : cl.cost = off' + weightSum weights (frames stack)) :
      Stands weights (.closing cl :: stack) off'

/-- No message handler runs, and no close of an unwind. -/
def Plain : List Item → Prop
  | [] => True
  | .handled _ :: _ => False
  | .closing cl :: stack => cl.errobj = false ∧ Plain stack
  | _ :: stack => Plain stack

/-- What the globals have to be in a mode. -/
def ModeOk (g : Globals) (stack : List Item) (off : Int32) : Mode → Prop
  | .run => Running stack ∧ g.callDepth = frames stack ∧
      g.stackCost = off + weightSum g.callWeights (frames stack)
  | .call => g.callDepth = frames stack ∧ g.stackCost = off + weightSum g.callWeights (frames stack)
  | .raise => g.callDepth = frames stack
  | .throw => True
  | .close cl => Running stack ∧ cl.depth = frames stack ∧
      (cl.errobj = true → cl.pending = true) ∧
      (cl.errobj = false → cl.cost = off + weightSum g.callWeights (frames stack))

/-- The invariant of the machine. -/
structure Accounted (c : Config) : Prop where
  /-- The handlers that run are counted. -/
  nest : c.g.msghNest = handlers c.stack
  /-- They are not nested too deep. -/
  nest_le : c.g.msghNest ≤ msghMaxNest
  /-- The rest. -/
  stands : ∃ off, Stands c.g.callWeights c.stack off ∧ ModeOk c.g c.stack off c.mode

/-! ## Weights -/

theorem weightSum_congr (h : ∀ i < n, weights' i = weights i) : weightSum weights' n = weightSum weights n := by
  induction n with
  | zero => rfl
  | succ n ih =>
    unfold weightSum
    rw [ih fun i hi => h i (Nat.lt_succ_of_lt hi), h n (Nat.lt_succ_self n)]

/-- A weight that is recorded on top of the others. -/
theorem weightSum_update (w : Int32) :
    weightSum (Function.update weights n w) (n + 1) = weightSum weights n + w := by
  have hbelow : weightSum (Function.update weights n w) n = weightSum weights n :=
    weightSum_congr fun i hi => Function.update_of_ne (Nat.ne_of_lt hi) w weights
  calc weightSum (Function.update weights n w) (n + 1)
      = weightSum (Function.update weights n w) n + Function.update weights n w n := rfl
    _ = weightSum weights n + w := by rw [hbelow, Function.update_self]

/-- What waits depends on the weights of its own frames only. -/
theorem Stands.congr (h : Stands weights stack off) (hw : ∀ i < frames stack, weights' i = weights i) :
    Stands weights' stack off := by
  induction h with
  | nil => exact .nil
  | framed _ ih => exact .framed (ih fun i hi => hw i (Nat.lt_succ_of_lt hi))
  | bare _ hrun ih => exact .bare (ih hw) hrun
  | closeBody _ hrun ih => exact .closeBody (ih hw) hrun
  | @guarded stack off saved _ hrun hdepth hcost hnest ih =>
    have hsum : weightSum weights' (frames stack) = weightSum weights (frames stack) := weightSum_congr hw
    exact .guarded (ih hw) hrun hdepth (by rw [hcost, hsum]) hnest
  | handled _ ih => exact .handled (ih hw)
  | @closing stack off cl _ hrun hdepth herr hcost ih =>
    have hsum : weightSum weights' (frames stack) = weightSum weights (frames stack) := weightSum_congr hw
    exact .closing (ih hw) hrun hdepth herr (by rw [hcost, hsum])
  | @unwinding stack off off' cl _ hrun hdepth hpending herr hcost ih =>
    have hsum : weightSum weights' (frames stack) = weightSum weights (frames stack) := weightSum_congr hw
    exact .unwinding (ih hw) hrun hdepth hpending herr (by rw [hcost, hsum])

/-- Where code of the program runs, the weight of the last frame matters to nothing that waits. -/
theorem Stands.congr_top (h : Stands weights stack off) (hrun : Running stack)
    (hw : ∀ i, i + 1 < frames stack → weights' i = weights i) : Stands weights' stack off := by
  induction h with
  | nil => exact .nil
  | framed h _ => exact .framed (h.congr fun i hi => hw i (Nat.succ_lt_succ hi))
  | bare _ hrun' ih => exact .bare (ih hrun' hw) hrun'
  | closeBody _ hrun' ih => exact .closeBody (ih hrun' hw) hrun'
  | guarded => exact hrun.elim
  | handled => exact hrun.elim
  | closing => exact hrun.elim
  | unwinding => exact hrun.elim

/-- The offset is 0 where the stack is plain. -/
theorem Stands.off_eq_zero (h : Stands weights stack off) (hplain : Plain stack) : off = 0 := by
  induction h with
  | nil => rfl
  | framed _ ih => exact ih hplain
  | bare _ _ ih => exact ih hplain
  | closeBody _ _ ih => exact ih hplain
  | guarded _ _ _ _ _ ih => exact ih hplain
  | handled => exact hplain.elim
  | closing _ _ _ _ _ ih => exact ih hplain.2
  | unwinding _ _ _ _ herr => exact absurd (herr.symm.trans hplain.1) (by decide)

/-! ## The runtime functions -/

/-- A call enters a closure. -/
theorem Accounted.enter (w : Int32) (hnest : c.g.msghNest = handlers c.stack)
    (hle : c.g.msghNest ≤ msghMaxNest) (hs : Stands c.g.callWeights c.stack off)
    (hdepth : c.g.callDepth = frames c.stack)
    (hcost : c.g.stackCost = off + weightSum c.g.callWeights (frames c.stack)) : Accounted (c.enter w) := by
  unfold Config.enter
  dsimp only
  split
  · exact ⟨hnest, hle, off, hs, hdepth⟩
  · refine ⟨hnest, hle, off, .framed (hs.congr ?_), trivial, congrArg (· + 1) hdepth, ?_⟩
    · intro i hi
      apply Function.update_of_ne
      rw [hdepth]
      exact Nat.ne_of_lt hi
    · change c.g.stackCost + w = off + weightSum (Function.update c.g.callWeights c.g.callDepth w) (frames c.stack + 1)
      rw [hdepth, weightSum_update, hcost, Int32.add_assoc]

/-- `$pop_call_frame`, after the code of a framed call. -/
theorem popCallFrame_spec (hdepth : g.callDepth = n + 1)
    (hcost : g.stackCost = off + weightSum g.callWeights (n + 1)) :
    g.popCallFrame = { g with callDepth := n, stackCost := off + weightSum g.callWeights n } := by
  have hsub : g.stackCost - g.callWeights n = off + weightSum g.callWeights n := by
    calc g.stackCost - g.callWeights n
        = off + (weightSum g.callWeights n + g.callWeights n) - g.callWeights n := by rw [hcost]; rfl
      _ = off + weightSum g.callWeights n := by rw [← Int32.add_assoc, Int32.add_sub_cancel]
  unfold Globals.popCallFrame
  rw [if_pos (by omega), hdepth, Nat.add_sub_cancel, hsub]

/-- What a framed call returns to goes on. -/
theorem Accounted.resume (hnest : g.msghNest = handlers stack) (hle : g.msghNest ≤ msghMaxNest)
    (hs : Stands g.callWeights stack off) (hdepth : g.callDepth = frames stack)
    (hcost : g.stackCost = off + weightSum g.callWeights (frames stack)) :
    Accounted (Config.resume g stack) := by
  cases hs with
  | nil => exact ⟨hnest, hle, 0, .nil, trivial, hdepth, hcost⟩
  | framed h => exact ⟨hnest, hle, off, .framed h, trivial, hdepth, hcost⟩
  | bare h hrun => exact ⟨hnest, hle, off, .bare h hrun, hrun, hdepth, hcost⟩
  | closeBody h hrun => exact ⟨hnest, hle, off, .closeBody h hrun, hrun, hdepth, hcost⟩
  | guarded h hrun => exact ⟨hnest, hle, off, h, hrun, hdepth, hcost⟩
  | @handled stack _ _ _ h =>
    have hnest' : g.msghNest = handlers stack + 1 := hnest
    refine ⟨?_, ?_, _, h, trivial⟩
    · change g.msghNest - 1 = handlers stack
      rw [hnest', Nat.add_sub_cancel]
    · exact (Nat.sub_le _ 1).trans hle
  | closing h hrun hcd herr hcc =>
    exact ⟨hnest, hle, off, h, hrun, hcd, fun htrue => absurd (herr.symm.trans htrue) (by decide), fun _ => hcc⟩
  | unwinding h hrun hcd hpending herr =>
    exact ⟨hnest, hle, _, h, hrun, hcd, fun _ => hpending,
      fun hfalse => absurd (herr.symm.trans hfalse) (by decide)⟩

/-- A function returns. -/
theorem Accounted.ret (h : Accounted c) (hmode : c.mode = .run) (hret : c.ret = some c') : Accounted c' := by
  obtain ⟨hnest, hle, off, hs, hok⟩ := h
  rw [hmode] at hok
  obtain ⟨hrun, hdepth, hcost⟩ := hok
  obtain ⟨g, stack, mode⟩ := c
  dsimp only at hnest hle hs hrun hdepth hcost hmode
  unfold Config.ret at hret
  cases hs with
  | nil => cases hret
  | framed h =>
    cases hret
    rw [popCallFrame_spec hdepth hcost]
    exact Accounted.resume hnest hle h rfl rfl
  | bare h hrun' =>
    cases hret
    exact ⟨hnest, hle, off, h, by rw [hmode]; exact ⟨hrun', hdepth, hcost⟩⟩
  | closeBody h hrun' =>
    cases hret
    exact ⟨hnest, hle, off, h, by rw [hmode]; exact ⟨hrun', hdepth, hcost⟩⟩
  | guarded => exact hrun.elim
  | handled => exact hrun.elim
  | closing => exact hrun.elim
  | unwinding => exact hrun.elim

/-- Leaving the `try_table` of a function changes nothing else that waits. -/
theorem Stands.leaveBody (h : Stands weights stack off) (hrun : Running stack) :
    Stands weights (leaveBody stack) off ∧ Running (leaveBody stack) ∧
      frames (leaveBody stack) = frames stack ∧ handlers (leaveBody stack) = handlers stack := by
  cases h with
  | closeBody h hrun' => exact ⟨h, hrun', rfl, rfl⟩
  | nil => exact ⟨.nil, hrun, rfl, rfl⟩
  | framed h => exact ⟨.framed h, hrun, rfl, rfl⟩
  | bare h hrun' => exact ⟨.bare h hrun', hrun, rfl, rfl⟩
  | guarded => exact hrun.elim
  | handled => exact hrun.elim
  | closing => exact hrun.elim
  | unwinding => exact hrun.elim

/-- A tail call. The weight that it replaces is that of the last frame. -/
theorem Accounted.tailCall (h : Accounted c) (hmode : c.mode = .run) (w : Int32) :
    Accounted (c.tailCall w) := by
  obtain ⟨hnest, hle, off, hs, hok⟩ := h
  rw [hmode] at hok
  obtain ⟨hrun, hdepth, hcost⟩ := hok
  -- the globals after `$replace_top_call_frame`
  have hreplace : (c.g.replaceTop w).callDepth = frames c.stack ∧ (c.g.replaceTop w).msghNest = c.g.msghNest ∧
      Stands (c.g.replaceTop w).callWeights c.stack off ∧
      (c.g.replaceTop w).stackCost = off + weightSum (c.g.replaceTop w).callWeights (frames c.stack) := by
    unfold Globals.replaceTop
    split
    · rename_i hpos
      obtain ⟨n, hn⟩ : ∃ n, frames c.stack = n + 1 := ⟨c.g.callDepth - 1, by omega⟩
      rw [hn] at hdepth hcost
      have htop : c.g.callDepth - 1 = n := by omega
      refine ⟨by rw [hn]; exact hdepth, rfl, hs.congr_top hrun fun i hi => ?_, ?_⟩
      · apply Function.update_of_ne
        omega
      · dsimp only
        rw [hn, htop, weightSum_update]
        calc c.g.stackCost - c.g.callWeights n + w
            = off + (weightSum c.g.callWeights n + c.g.callWeights n) - c.g.callWeights n + w := by
              rw [hcost]
              rfl
          _ = off + (weightSum c.g.callWeights n + w) := by
              rw [← Int32.add_assoc, Int32.add_sub_cancel, Int32.add_assoc]
    · exact ⟨hdepth, rfl, hs, hcost⟩
  obtain ⟨hdepth', hnest', hs', hcost'⟩ := hreplace
  unfold Config.tailCall
  dsimp only
  split
  · exact ⟨hnest'.trans hnest, hnest'.trans_le hle, off, hs', hdepth'⟩
  · -- the code of the closure runs in the place of the function
    obtain ⟨hs'', hrun', hframes, hhandlers⟩ := hs'.leaveBody hrun
    refine ⟨?_, hnest'.trans_le hle, off, hs'', hrun', ?_, ?_⟩
    · exact hnest'.trans (hnest.trans hhandlers.symm)
    · exact hdepth'.trans hframes.symm
    · dsimp only
      rw [hframes]
      exact hcost'

/-- A protected call begins: what it saves is what it has to restore. -/
theorem Accounted.guard (h : Accounted c) (hmode : c.mode = .run) (msgh : Option Int32) :
    Accounted (c.guard msgh) := by
  obtain ⟨hnest, hle, off, hs, hok⟩ := h
  rw [hmode] at hok
  obtain ⟨hrun, hdepth, hcost⟩ := hok
  exact ⟨hnest, hle, off, .guarded hs hrun hdepth hcost hnest, hdepth, hcost⟩

/-- `$raised`. -/
theorem Accounted.raised (h : Accounted c) (hmode : c.mode = .raise) : Accounted c.raised := by
  obtain ⟨hnest, hle, off, hs, hok⟩ := h
  rw [hmode] at hok
  unfold Config.raised
  split
  · exact ⟨hnest, hle, off, hs, trivial⟩
  split
  · exact ⟨hnest, hle, off, hs, trivial⟩
  · rename_i hlt
    -- the offset on top of the handler is whatever the cost is off by
    exact Accounted.enter _ (congrArg (· + 1) hnest) (Nat.not_le.mp hlt) (.handled hs) hok
      (Int32.sub_add_cancel _ (weightSum c.g.callWeights (frames c.stack))).symm

/-- An error is thrown further, or caught. -/
theorem Accounted.unwind (h : Accounted c) (hmode : c.mode = .throw) (hstep : c.unwind = some c') :
    Accounted c' := by
  obtain ⟨hnest, hle, off, hs, -⟩ := h
  obtain ⟨g, stack, mode⟩ := c
  dsimp only at hnest hle hs hmode
  unfold Config.unwind at hstep
  subst hmode
  cases hs with
  | nil => cases hstep
  | framed h =>
    cases hstep
    exact ⟨hnest, hle, off, h, trivial⟩
  | bare h =>
    cases hstep
    exact ⟨hnest, hle, off, h, trivial⟩
  | closeBody h hrun =>
    cases hstep
    exact ⟨hnest, hle, off, h, hrun, rfl, fun _ => rfl, fun hfalse => by cases hfalse⟩
  | guarded h hrun hdepth hcost hn =>
    cases hstep
    exact ⟨hn, hn.trans_le (hnest.symm.trans_le hle), off, h, hrun, hdepth, hcost⟩
  | @handled stack _ _ _ h =>
    cases hstep
    have hnest' : g.msghNest = handlers stack + 1 := hnest
    refine ⟨?_, (Nat.sub_le _ 1).trans hle, _, h, trivial⟩
    change g.msghNest - 1 = handlers stack
    rw [hnest', Nat.add_sub_cancel]
  | closing h hrun hdepth _ hcost =>
    cases hstep
    exact ⟨hnest, hle, off, h, hrun, hdepth, fun _ => rfl, fun _ => hcost⟩
  | unwinding h hrun hdepth _ herr =>
    cases hstep
    exact ⟨hnest, hle, _, h, hrun, hdepth, fun _ => rfl,
      fun hfalse => absurd (herr.symm.trans hfalse) (by decide)⟩

/-! ## Runs -/

/-- Every step keeps the accounting. -/
theorem Accounted.step (h : Accounted c) {a : Act} (hs : c.step a = some c') : Accounted c' := by
  have hinv := h
  obtain ⟨hnest, hle, off, hstands, hok⟩ := h
  unfold Config.step at hs
  cases a with
  | call =>
    obtain ⟨hmode, heq⟩ := Option.ite_none_right_eq_some.mp hs
    cases heq
    rw [hmode] at hok
    exact ⟨hnest, hle, off, hstands, hok.2⟩
  | bareCall =>
    obtain ⟨hmode, heq⟩ := Option.ite_none_right_eq_some.mp hs
    cases heq
    rw [hmode] at hok
    refine ⟨hnest, hle, off, .bare hstands hok.1, ?_⟩
    rw [hmode]
    exact hok
  | tailCall w =>
    obtain ⟨hmode, heq⟩ := Option.ite_none_right_eq_some.mp hs
    cases heq
    exact hinv.tailCall hmode w
  | ret =>
    obtain ⟨hmode, heq⟩ := Option.ite_none_right_eq_some.mp hs
    exact hinv.ret hmode heq
  | error =>
    obtain ⟨hmode, heq⟩ := Option.ite_none_right_eq_some.mp hs
    cases heq
    rw [hmode] at hok
    exact ⟨hnest, hle, off, hstands, hok.2.1⟩
  | pcall =>
    obtain ⟨hmode, heq⟩ := Option.ite_none_right_eq_some.mp hs
    cases heq
    exact hinv.guard hmode none
  | xpcall handler =>
    obtain ⟨hmode, heq⟩ := Option.ite_none_right_eq_some.mp hs
    cases heq
    exact hinv.guard hmode (some handler)
  | enterBody =>
    obtain ⟨hmode, heq⟩ := Option.ite_none_right_eq_some.mp hs
    cases heq
    rw [hmode] at hok
    refine ⟨hnest, hle, off, ?_, ?_⟩
    · dsimp only
      rw [hok.2.1]
      exact .closeBody hstands hok.1
    · rw [hmode]
      exact hok
  | closeScope =>
    obtain ⟨hmode, heq⟩ := Option.ite_none_right_eq_some.mp hs
    cases heq
    rw [hmode] at hok
    exact ⟨hnest, hle, off, hstands, hok.1, hok.2.1, fun herr => herr, fun _ => hok.2.2⟩
  | closure w =>
    obtain ⟨hmode, heq⟩ := Option.ite_none_right_eq_some.mp hs
    cases heq
    rw [hmode] at hok
    exact Accounted.enter w hnest hle hstands hok.1 hok.2
  | notCallable =>
    obtain ⟨hmode, heq⟩ := Option.ite_none_right_eq_some.mp hs
    cases heq
    rw [hmode] at hok
    exact ⟨hnest, hle, off, hstands, hok.1⟩
  | closeNext =>
    dsimp only at hs
    split at hs
    · rename_i cl hmode
      cases hs
      rw [hmode] at hok
      obtain ⟨hrun, hdepth, hpending, hcost⟩ := hok
      cases herr : cl.errobj with
      | false => exact ⟨hnest, hle, off, .closing hstands hrun hdepth herr (hcost herr), hdepth, hcost herr⟩
      | true =>
        have hoff : cl.cost = cl.cost - weightSum c.g.callWeights (frames c.stack) +
            weightSum c.g.callWeights (frames c.stack) := (Int32.sub_add_cancel _ _).symm
        exact ⟨hnest, hle, _, .unwinding hstands hrun hdepth (hpending herr) herr hoff, hdepth, hoff⟩
    · cases hs
  | closeDone =>
    dsimp only at hs
    split at hs
    · rename_i cl hmode
      cases hs
      rw [hmode] at hok
      obtain ⟨hrun, hdepth, hpending, hcost⟩ := hok
      cases hp : cl.pending with
      | true => exact ⟨hnest, hle, off, hstands, trivial⟩
      | false =>
        -- no error is pending, so there was none at the start
        have herr : cl.errobj = false := by
          by_contra hne
          rw [Bool.not_eq_false] at hne
          exact absurd (hp.symm.trans (hpending hne)) (by decide)
        exact ⟨hnest, hle, off, hstands, hrun, hdepth, hcost herr⟩
    · cases hs
  | proceed =>
    dsimp only at hs
    split at hs
    · rename_i hmode
      cases hs
      exact hinv.raised hmode
    · rename_i hmode
      exact hinv.unwind hmode hs
    · cases hs

theorem Accounted.init : Accounted Config.init := ⟨rfl, Nat.zero_le _, 0, .nil, trivial, rfl, rfl⟩

/-- Every reachable state is accounted for. -/
theorem Reachable.accounted (h : Reachable c) : Accounted c := by
  induction h with
  | refl => exact Accounted.init
  | tail _ hstep ih =>
    obtain ⟨a, hs⟩ := hstep
    exact ih.step hs

/-- Some steps during all of which the stack keeps a part. -/
def Inside (base : List Item) : Config → Config → Prop :=
  Relation.ReflTransGen fun c c' => Step c c' ∧ base <:+ c'.stack

theorem Inside.reachable {base : List Item} (h : Inside base c c') (hc : Reachable c) : Reachable c' := by
  induction h with
  | refl => exact hc
  | tail _ hstep ih => exact ih.tail hstep.1

theorem Inside.suffix {base : List Item} (h : Inside base c c') (hc : base <:+ c.stack) : base <:+ c'.stack := by
  cases h with
  | refl => exact hc
  | tail _ hstep => exact hstep.2

/-- The globals that a protected call restores are as they were saved. -/
structure Restored (saved : Saved) (g : Globals) : Prop where
  /-- The call depth. -/
  depth : g.callDepth = saved.depth
  /-- The cost. -/
  cost : g.stackCost = saved.cost
  /-- The message handler. -/
  msgh : g.msgh = saved.msgh
  /-- The nesting of handlers. -/
  nest : g.msghNest = saved.nest

/-- A call that returns to `$protected_call`. -/
theorem Accounted.restored_ret {saved : Saved} (h : Accounted c) (hmode : c.mode = .run)
    (hstack : c.stack = .framed :: .guarded saved :: stack) (hret : c.ret = some c') :
    Restored saved c'.g := by
  obtain ⟨hnest, -, off, hs, hok⟩ := h
  rw [hmode] at hok
  obtain ⟨-, hdepth, hcost⟩ := hok
  rw [hstack] at hs hnest hdepth hcost
  unfold Config.ret at hret
  rw [hstack] at hret
  cases hret
  rw [popCallFrame_spec hdepth hcost]
  cases hs with
  | framed hs =>
    cases hs with
    | guarded _ _ hd hc hn => exact ⟨hd.symm, hc.symm, rfl, hnest.trans hn.symm⟩

theorem length_enter (c : Config) (w : Int32) : c.stack.length ≤ (c.enter w).stack.length := by
  unfold Config.enter
  dsimp only
  split
  · exact Nat.le_refl _
  · exact Nat.le_succ _

theorem length_raised (c : Config) : c.stack.length ≤ c.raised.stack.length := by
  unfold Config.raised
  split
  · exact Nat.le_refl _
  split
  · exact Nat.le_refl _
  · exact (Nat.le_succ c.stack.length).trans (length_enter
      ⟨_, .handled (decide (c.g.msghNest = 0)) :: c.stack, .call⟩ _)

theorem length_leaveBody (stack : List Item) : stack.length ≤ (leaveBody stack).length + 1 := by
  unfold leaveBody
  split
  · exact Nat.le_refl _
  · exact Nat.le_succ _

/-- A framed call returns to at most one runtime function. -/
theorem length_resume (g : Globals) (stack : List Item) :
    stack.length ≤ (Config.resume g stack).stack.length + 1 := by
  unfold Config.resume
  split
  · exact Nat.le_refl _
  · exact Nat.le_refl _
  · exact Nat.le_refl _
  · exact Nat.le_succ _

theorem length_ret (h : c.ret = some c') : c.stack.length ≤ c'.stack.length + 2 := by
  unfold Config.ret at h
  split at h
  · rename_i stack hstack
    cases h
    rw [hstack]
    exact Nat.succ_le_succ (length_resume _ _)
  · rename_i stack hstack
    cases h
    rw [hstack]
    exact Nat.le_succ _
  · rename_i stack hstack
    cases h
    rw [hstack]
    exact Nat.le_succ _
  · cases h

theorem length_unwind (h : c.unwind = some c') : c.stack.length = c'.stack.length + 1 := by
  unfold Config.unwind at h
  cases hstack : c.stack with
  | nil =>
    rw [hstack] at h
    cases h
  | cons item stack =>
    rw [hstack] at h
    cases item <;> cases h <;> rfl

/-- What takes something off the stack: a tail call, a return, and an error. -/
theorem step_pops {a : Act} (hs : c.step a = some c') :
    c.stack.length ≤ c'.stack.length ∨ (c'.stack = leaveBody c.stack) ∨
      (c.mode = .run ∧ c.ret = some c') ∨ (c.mode = .throw ∧ c.unwind = some c') := by
  unfold Config.step at hs
  cases a with
  | tailCall w =>
    obtain ⟨-, heq⟩ := Option.ite_none_right_eq_some.mp hs
    cases heq
    unfold Config.tailCall
    dsimp only
    split
    · exact Or.inl (Nat.le_refl _)
    · exact Or.inr (Or.inl rfl)
  | ret => exact Or.inr (Or.inr (Or.inl (Option.ite_none_right_eq_some.mp hs)))
  | closure w =>
    obtain ⟨-, heq⟩ := Option.ite_none_right_eq_some.mp hs
    cases heq
    exact Or.inl (length_enter c w)
  | closeNext =>
    dsimp only at hs
    split at hs
    · cases hs
      exact Or.inl (Nat.le_succ _)
    · cases hs
  | closeDone =>
    dsimp only at hs
    split at hs
    · cases hs
      exact Or.inl (Nat.le_refl _)
    · cases hs
  | proceed =>
    dsimp only at hs
    split at hs
    · cases hs
      exact Or.inl (length_raised c)
    · rename_i hmode
      exact Or.inr (Or.inr (Or.inr ⟨hmode, hs⟩))
    · cases hs
  | call | error | closeScope | notCallable =>
    obtain ⟨-, heq⟩ := Option.ite_none_right_eq_some.mp hs
    cases heq
    exact Or.inl (Nat.le_refl _)
  | bareCall | pcall | xpcall _ | enterBody =>
    obtain ⟨-, heq⟩ := Option.ite_none_right_eq_some.mp hs
    cases heq
    exact Or.inl (Nat.le_succ _)

/-- A step out of a protected call: its call returns, or an error is caught. -/
theorem Accounted.restored {saved : Saved} (h : Accounted c) (hin : .guarded saved :: stack <:+ c.stack)
    (hstep : Step c c') (hout : c'.stack = stack) : c'.mode = .run ∧ Restored saved c'.g := by
  obtain ⟨a, hs⟩ := hstep
  obtain ⟨above, habove⟩ := hin
  have hlen : c.stack.length = above.length + 1 + c'.stack.length := by
    rw [← habove, hout, List.length_append, List.length_cons]
    omega
  rcases step_pops hs with hle | hleave | ⟨hmode, hret⟩ | ⟨hmode, hunwind⟩
  · omega
  · -- a tail call leaves the body of a function only
    have hpop := length_leaveBody c.stack
    rw [← hleave] at hpop
    obtain rfl : above = [] := List.eq_nil_of_length_eq_zero (by omega)
    rw [← habove] at hleave
    have hsame : c'.stack.length = c.stack.length := by
      rw [hleave, ← habove]
      rfl
    omega
  · have hpop := length_ret hret
    cases above with
    | nil =>
      -- the code of the program does not return to a protected call without a frame
      unfold Config.ret at hret
      rw [← habove] at hret
      cases hret
    | cons item above =>
      rw [List.length_cons] at hlen
      obtain rfl : above = [] := List.eq_nil_of_length_eq_zero (by omega)
      rw [List.cons_append, List.nil_append] at habove
      cases item with
      | framed =>
        refine ⟨?_, h.restored_ret hmode habove.symm hret⟩
        unfold Config.ret at hret
        rw [← habove] at hret
        cases hret
        rfl
      | bare | closeBody _ _ =>
        unfold Config.ret at hret
        rw [← habove] at hret
        cases hret
        exact absurd (congrArg List.length hout) (Nat.succ_ne_self _)
      | guarded _ | handled _ | closing _ =>
        unfold Config.ret at hret
        rw [← habove] at hret
        cases hret
  · -- the error is caught
    have hpop := length_unwind hunwind
    obtain rfl : above = [] := List.eq_nil_of_length_eq_zero (by omega)
    unfold Config.unwind at hunwind
    rw [← habove] at hunwind
    cases hunwind
    exact ⟨rfl, rfl, rfl, rfl, rfl⟩

/-- The action is a protected call. -/
def Act.protects : Act → Bool
  | .pcall => true
  | .xpcall _ => true
  | _ => false

/-- A protected call saves the globals that it is called with. -/
theorem stack_of_protects {a : Act} (ha : a.protects = true) (hs : c.step a = some c') :
    c'.stack = .guarded ⟨c.g.callDepth, c.g.stackCost, c.g.msgh, c.g.msghNest⟩ :: c.stack := by
  cases a with
  | pcall | xpcall _ =>
    obtain ⟨-, heq⟩ := Option.ite_none_right_eq_some.mp hs
    cases heq
    rfl
  | _ => cases ha

/-- The accounting of every run. Handlers nest at most 20 deep. Where no message handler runs, and no close
of an unwind, `$stack_cost` is the sum of the recorded weights. And a protected call that returns, with an
error or without one, leaves the depth, the cost, the message handler and the nesting of handlers as it
found them. -/
theorem stack_accounting :
    (∀ c, Reachable c → c.g.msghNest ≤ msghMaxNest) ∧
      (∀ c, Reachable c → c.mode = .run → Plain c.stack →
        c.g.stackCost = weightSum c.g.callWeights c.g.callDepth) ∧
      ∀ c c₁ c₂ c₃ a, Reachable c → a.protects = true → c.step a = some c₁ →
        Inside c₁.stack c₁ c₂ → Step c₂ c₃ → c₃.stack = c.stack →
        c₃.mode = .run ∧ c₃.g.callDepth = c.g.callDepth ∧ c₃.g.stackCost = c.g.stackCost ∧
          c₃.g.msgh = c.g.msgh ∧ c₃.g.msghNest = c.g.msghNest := by
  refine ⟨fun c hc => hc.accounted.nest_le, ?_, ?_⟩
  · intro c hc hmode hplain
    obtain ⟨off, hs, hok⟩ := hc.accounted.stands
    rw [hmode] at hok
    obtain ⟨-, hdepth, hcost⟩ := hok
    rw [hcost, hs.off_eq_zero hplain, hdepth, Int32.zero_add]
  · intro c c₁ c₂ c₃ a hc ha hentry hrun hexit hout
    have hc₁ : Reachable c₁ := hc.tail ⟨a, hentry⟩
    have hbase : c₁.stack <:+ c₂.stack := hrun.suffix (List.suffix_refl _)
    rw [stack_of_protects ha hentry] at hbase
    obtain ⟨hmode, hrest⟩ := (hrun.reachable hc₁).accounted.restored hbase hexit hout
    exact ⟨hmode, hrest.depth, hrest.cost, hrest.msgh, hrest.nest⟩

/-- A handler that is called for an error of a function, all within the budget. -/
def handlerRun : List Act := [.xpcall 300, .closure 300, .error, .proceed]

/-- A `__close` that is called for an error of its function, all within the budget. -/
def closeRun : List Act :=
  [.pcall, .closure 300, .enterBody, .error, .proceed, .proceed, .closeNext, .closure 300]

theorem Reachable.of_run : ∀ {acts : List Act} {c c' : Config}, Reachable c → c.run acts = some c' → Reachable c' := by
  intro acts
  induction acts with
  | nil =>
    intro c c' hc hrun
    cases hrun
    exact hc
  | cons a acts ih =>
    intro c c' hc hrun
    obtain ⟨c₁, hstep, hrest⟩ := Option.bind_eq_some_iff.mp hrun
    exact ih (hc.tail ⟨a, hstep⟩) hrest

/-- The actions lead to code of the program at a cost that is not the sum of the weights, and never pass
the budget. -/
def OffAfter (acts : List Act) : Prop :=
  ∃ c, Config.init.run acts = some c ∧ Reachable c ∧ c.mode = .run ∧
    (∀ n ≤ acts.length, (Config.init.run (acts.take n)).map
      (fun c' => decide (c'.g.stackCost ≤ stackBudget)) = some true) ∧
    c.g.stackCost ≠ weightSum c.g.callWeights c.g.callDepth

/-- A message handler, and a `__close` that an error calls, run at a cost below the sum of the weights. -/
theorem headroom_off : OffAfter handlerRun ∧ OffAfter closeRun := by
  constructor
  · exact ⟨_, rfl, @Reachable.of_run handlerRun _ _ .refl rfl, rfl, by decide, by decide⟩
  · exact ⟨_, rfl, @Reachable.of_run closeRun _ _ .refl rfl, rfl, by decide, by decide⟩

end Lua2wasm.Calls
