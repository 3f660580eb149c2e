import Lua2wasm.Lowering.Bound

/-!
# The declared temporaries suffice

`good` bounds what one expression takes. A statement emits each of its expressions with at most three temporaries in use
(the table, key and value cells of an unboxed store), but for a multi-assignment, whose cells `multi_assign_stmt_need`
counts. Every statement gives back what it took, so that `block_temp_need` is a bound for the whole body
(`allocs_le_mtMax`).
-/

namespace Lua2wasm.Lowering

open Analysis Scratch

variable {c : EmitCG} {N d : ℕ} {e : Expr} {s : Stmt}
variable {values : List Expr} {t : AssignTarget} {targets : List AssignTarget}

/-- There is room for the expression above the three cells of an unboxed store. -/
def Fits (c : EmitCG) (N : ℕ) (e : Expr) : Prop := Room c N 0 (4 + exprTempNeed c e)

/-- It fits above one cell more, for a value that is boxed. -/
theorem Fits.room (h : Fits c N e) (hd : d ≤ 3) : Room c N d (1 + exprTempNeed c e) := by
  intro hopt
  have hle := h hopt
  omega

/-- An expression as a Lua value. -/
theorem Fits.expr (h : Fits c N e) (hd : d ≤ 3) : Steady temps N d (emitExpr c e) := (good c e).expr (h.room hd)

/-- As an unboxed integer. -/
theorem Fits.int (h : Fits c N e) (hd : d ≤ 3) : Steady temps N d (emitIntExpr c e) :=
  (good c e).int ((h.room hd).mono (Nat.le_add_left _ _))

/-- As an unboxed double. -/
theorem Fits.float (h : Fits c N e) (hd : d ≤ 3) : Steady temps N d (emitFloatExpr c e) :=
  (good c e).float ((h.room hd).mono (Nat.le_add_left _ _))

/-- As a double, whatever number it is. -/
theorem Fits.num (h : Fits c N e) (hd : d ≤ 3) : Steady temps N d (emitNumAsF64 c e) :=
  (good c e).num ((h.room hd).mono (Nat.le_add_left _ _))

/-- As an array of values. -/
theorem Fits.array (h : Fits c N e) (hd : d ≤ 3) : Steady temps N d (emitMultivalArray c e) :=
  (good c e).array ((h.room hd).mono (Nat.le_add_left _ _))

/-- As a value in a cell. -/
theorem Fits.lower (h : Fits c N e) (hopt : c.optInt = true) (hd : d ≤ 3) :
    Steady temps N d (emitMaybeLower c e) := by
  have hle := h hopt
  exact (good c e).lower hopt (by omega)

/-- Room for every expression of a list. -/
def AllFit (c : EmitCG) (N : ℕ) (es : List Expr) : Prop := ∀ e ∈ es, Fits c N e

section lists

variable {es : List Expr} (h : AllFit c N es)

include h

/-- Values one by one. -/
theorem AllFit.exprs : Steady temps N 0 (emitExprs c es) :=
  steady_exprs (fun e _ => good c e) fun e he => (h e he).room (Nat.zero_le 3)

/-- Values in an array. -/
theorem AllFit.argsArray : Steady temps N 0 (emitArgsArray c es) :=
  steady_argsArray (fun e _ => good c e) fun e he => (h e he).room (Nat.zero_le 3)

end lists

/-! ## Conditions and calls -/

/-- A condition. -/
theorem steady_truthy (h : Fits c N e) : Steady temps N 0 (emitTruthy c e) := by
  have hself := h.expr (Nat.zero_le 3)
  unfold emitTruthy
  cases e with
  | binop op lhs rhs paren =>
    have hroom := (h.room (Nat.zero_le 3)).mono (Nat.le_add_left _ _)
    refine steady_ite (fun hmaybe => ?_) fun _ => ?_
    · have hopt := involvesMaybe_opt hmaybe.2
      exact steady_cmpBlock (fun x _ => good c x) rfl hopt (hroom hopt)
    · split
      · exact steady_cmpI32 (fun x _ => good c x) hroom rfl _
      · exact hself
  | _ => exact hself

/-- A call whose values are dropped. -/
theorem steady_callStmt (h : Fits c N e) : Steady temps N 0 (emitCallStmt c e) := by
  have hroom := (h.room (Nat.zero_le 3)).mono (Nat.le_add_left _ _)
  have hcall := steady_callArray (fun x _ => good c x) hroom
  have hfast := steady_fastCall (fun x _ => good c x) hroom
  unfold emitCallStmt
  cases e with
  | call callee args paren => exact steady_call (fun x _ => good c x) hroom
  | _ => exact steady_ite (fun _ => hfast) fun _ => hcall

/-! ## Stores -/

/-- Only an optimised build keeps a slot in cells. -/
theorem slotIsMaybe_opt {slot : ℕ} (h : slotIsMaybe c slot = true) : c.optInt = true :=
  (Bool.and_eq_true_iff.mp h).1

/-- A store to a typed slot. -/
theorem steady_typedSlotStore {slot : ℕ} {m : EmitM Unit} (h : Fits c N e)
    (hm : emitTypedSlotStore c slot e = some m) : Steady temps N 0 m := by
  unfold emitTypedSlotStore at hm
  split_ifs at hm with hint hfloat hmaybe
  · rw [← Option.some.inj hm]
    exact h.int (Nat.zero_le 3)
  · rw [← Option.some.inj hm]
    exact h.float (Nat.zero_le 3)
  · rw [← Option.some.inj hm]
    exact h.lower (slotIsMaybe_opt hmaybe) (Nat.zero_le 3)

/-- A variable needs nothing in front of the value. -/
theorem steady_targetOpen_var (kind : VarKind) (idx : ℕ) : Steady temps N d (emitTargetOpen c (.var kind idx)) := by
  unfold emitTargetOpen
  cases kind with
  | varLocal => exact steady_ite (fun _ => steady_cgError) fun _ => steady_pure ()
  | varUpval => exact steady_ite (fun _ => steady_cgError) fun _ => steady_pure ()
  | _ => exact steady_pure ()

/-- The expressions of a target. -/
def targetExprs : AssignTarget → List Expr
  | .index table key => [table, key]
  | .var _ _ => []

/-- An index target is evaluated in front of the value. -/
theorem steady_targetOpen (h : AllFit c N (targetExprs t)) : Steady temps N 0 (emitTargetOpen c t) := by
  cases t with
  | var kind idx => exact steady_targetOpen_var kind idx
  | index table key =>
    have ht := (h table (by simp [targetExprs])).expr (Nat.zero_le 3)
    have hk := h key (by simp [targetExprs])
    unfold emitTargetOpen
    exact steady_ite (fun _ => ht) fun _ => steady_ite (fun _ => ht.seq (hk.int (Nat.zero_le 3))) fun _ =>
      steady_ite (fun _ => ht) fun _ => ht.seq (hk.expr (Nat.zero_le 3))

/-- An unboxed store: its three cells stay in use until the end. -/
theorem steady_unboxedIndexStore {table key v : Expr} {m : EmitM Unit} (ht : Fits c N table) (hk : Fits c N key)
    (hv : Fits c N v) (hm : emitUnboxedIndexStore c table key v = some m) : Steady temps N 0 m := by
  unfold emitUnboxedIndexStore at hm
  obtain ⟨hopt, hm⟩ := Option.ite_none_left_eq_some.mp hm
  have hopt : c.optInt = true := by
    by_contra hoff
    exact hopt (by simp [hoff])
  have hroom := hv hopt
  obtain ⟨-, hm⟩ := Option.ite_none_left_eq_some.mp hm
  rw [← Option.some.inj hm]
  apply Peak.alloc (by omega)
  refine (ht.expr (by omega)).bind fun _ => Steady.bind ?_ fun _ => Steady.bind ?_ fun _ => peak_setDepth 0
  · exact steady_ite (fun _ => hk.int (by omega)) fun _ =>
      steady_ite (fun _ => hk.lower hopt (by omega)) fun _ => steady_pure ()
  · refine steady_ite (fun _ => ?_) fun _ => hv.expr (by omega)
    exact steady_ite (fun _ => hv.float (by omega)) fun _ => hv.lower hopt (by omega)

/-! ## Multi-assignments -/

/-- What `multi_assign_stmt_need` counts for the targets: two cells for each index target, and the deepest of their
expressions. -/
theorem targetsTempNeed_spec (targets : List AssignTarget) (live sub : ℕ) :
    (targetsTempNeed c targets (live, sub)).1 = live + 2 * targets.countP isIndexTarget ∧
      sub ≤ (targetsTempNeed c targets (live, sub)).2 ∧
      ∀ e ∈ targets.flatMap targetExprs, 1 + exprTempNeed c e ≤ (targetsTempNeed c targets (live, sub)).2 := by
  induction targets generalizing live sub with
  | nil => exact ⟨rfl, le_rfl, fun e he => absurd he List.not_mem_nil⟩
  | cons t targets ih =>
    cases t with
    | var kind idx => exact ih live sub
    | index table key =>
      obtain ⟨hlive, hsub, hexprs⟩ := ih (live + 2) (max (max sub (1 + exprTempNeed c table)) (1 + exprTempNeed c key))
      refine ⟨?_, ((le_max_left _ _).trans (le_max_left _ _)).trans hsub, fun e he => ?_⟩
      · rw [targetsTempNeed, hlive, List.countP_cons_of_pos rfl]
        omega
      · rcases List.mem_append.mp he with he | he
        · rcases List.mem_pair.mp he with rfl | rfl
          · exact ((le_max_right _ _).trans (le_max_left _ _)).trans hsub
          · exact (le_max_right _ _).trans hsub
        · exact hexprs e he

/-- The cells of the targets: at most two for each index target stay in use. -/
theorem peak_targetCells {S : ℕ} (targets : List AssignTarget)
    (hsub : ∀ e ∈ targets.flatMap targetExprs, 1 + exprTempNeed c e ≤ S)
    (hroom : d + 2 * targets.countP isIndexTarget + S ≤ N) :
    Peak temps N d (emitTargetCells c targets) fun _ d' => d' ≤ d + 2 * targets.countP isIndexTarget := by
  induction targets generalizing d with
  | nil => exact peak_pure (Nat.le_add_right _ _)
  | cons t targets ih =>
    cases t with
    | var kind idx => exact ih hsub hroom
    | index table key =>
      have htable := hsub table (by simp [targetExprs])
      have hkey := hsub key (by simp [targetExprs])
      have hrest := fun e he => hsub e (List.mem_append_right _ he)
      rw [List.countP_cons_of_pos rfl] at hroom ⊢
      have ht : Steady temps N (d + 1) (emitExpr c table) := (good c table).expr fun _ => by omega
      rw [emitTargetCells]
      refine Peak.alloc (by omega) (ht.bind fun _ => ?_)
      have hcell : Peak temps N (d + 1) (if isKstr key then pure () else do
          let _ ← mtAlloc 1
          if exprIsInt c key then emitIntExpr c key else if isMaybeKey c key then pure () else emitExpr c key)
          fun _ d' => d' ≤ d + 2 := by
        split
        · exact peak_pure (by omega)
        · have hk : Steady temps N (d + 1 + 1) (if exprIsInt c key then emitIntExpr c key
              else if isMaybeKey c key then pure () else emitExpr c key) :=
            steady_ite (fun _ => (good c key).int fun _ => by omega) fun _ =>
              steady_ite (fun _ => steady_pure ()) fun _ => (good c key).expr fun _ => by omega
          exact Peak.alloc (by omega) (Peak.mono hk fun _ _ hd => hd.le)
      refine hcell.bind fun _ d' hd' => Peak.mono (ih hrest (by omega)) fun _ _ hd => ?_
      omega

/-- The cells of the values: each value is evaluated below its own cell and those before it. -/
theorem peak_valueCells {S : ℕ} (hopt : c.optInt = true) (pairs : List (AssignTarget × Expr))
    (hsub : ∀ p ∈ pairs, 1 + exprTempNeed c p.2 ≤ S) (hroom : d + pairs.length + S ≤ N) :
    Peak temps N d (emitValueCells c pairs) fun _ _ => True := by
  induction pairs generalizing d with
  | nil => exact peak_pure trivial
  | cons p pairs ih =>
    obtain ⟨t, v⟩ := p
    have hv := hsub (t, v) List.mem_cons_self
    dsimp only at hv
    rw [List.length_cons] at hroom
    have hfloat : Steady temps N (d + 1) (emitFloatExpr c v) := (good c v).float fun _ => by omega
    have hlower : Steady temps N (d + 1) (emitMaybeLower c v) := (good c v).lower hopt (by omega)
    have hexpr : Steady temps N (d + 1) (emitExpr c v) := (good c v).expr fun _ => by omega
    rw [emitValueCells]
    refine Peak.alloc (by omega) (Steady.bind ?_ fun _ => ih (fun q hq => hsub q (List.mem_cons_of_mem _ hq)) (by omega))
    exact steady_ite (fun _ => steady_ite (fun _ => hfloat) fun _ => hlower) fun _ => hexpr

/-- The variables among the targets. -/
theorem steady_varTargets (targets : List AssignTarget) : Steady temps N d (emitVarTargets c targets) := by
  refine steady_forM fun t _ => ?_
  cases t with
  | var kind idx => exact steady_targetOpen_var kind idx
  | index table key => exact steady_pure ()

/-- A multi-assignment that goes through cells. -/
theorem steady_assignMultiCells {m : EmitM Unit}
    (hroom : Room c N 0 (multiAssignStmtNeed c (.assign targets values)))
    (hm : emitAssignMultiCells c targets values = some m) : Steady temps N 0 m := by
  unfold emitAssignMultiCells at hm
  obtain ⟨hcells, hm⟩ := Option.ite_none_left_eq_some.mp hm
  rw [← Option.some.inj hm]
  simp only [Bool.or_eq_true, Bool.not_eq_true', decide_eq_true_eq, not_or, not_lt, not_not,
    Bool.not_eq_false, Bool.not_eq_true] at hcells
  obtain ⟨⟨⟨hopt, htwo⟩, hlen⟩, -⟩ := hcells
  have hneed := hroom hopt
  obtain ⟨hlive, -, hexprs⟩ := targetsTempNeed_spec (c := c) targets values.length 0
  unfold multiAssignStmtNeed at hneed
  dsimp only at hneed
  rw [if_neg (by omega)] at hneed
  generalize targetsTempNeed c targets (values.length, 0) = p at hneed hlive hexprs
  obtain ⟨live, sub⟩ := p
  obtain ⟨hle, hvalues⟩ := le_argsTempNeed (c := c) 1 values sub
  dsimp only at hneed hlive hexprs
  have hpairs : (targets.zip values).length = values.length := by
    rw [List.length_zip]
    omega
  apply Peak.depth
  refine (peak_targetCells targets hexprs (by omega)).bind fun _ d' hd' => ?_
  have hcells : Peak temps N d' (emitValueCells c (targets.zip values)) fun _ _ => True := by
    refine peak_valueCells hopt _ (S := argsTempNeed c 1 values sub) (fun p hp => ?_) (by omega)
    exact hvalues p.2 (List.of_mem_zip hp).2
  exact hcells.bind fun _ d _ => (steady_varTargets targets).bind fun _ => peak_setDepth 0

/-! ## Assignments and declarations -/

/-- The tables and keys of a multi-assignment in arrays. -/
theorem steady_targetArrays (h : AllFit c N (targets.flatMap targetExprs)) :
    Steady temps N 0 (emitTargetArrays c targets) := by
  refine steady_forM fun t ht => ?_
  cases t with
  | var kind idx => exact steady_pure ()
  | index table key =>
    have hmem : ∀ e ∈ [table, key], Fits c N e := fun e he => h e (List.mem_flatMap.mpr ⟨_, ht, he⟩)
    exact ((hmem table (by simp)).expr (Nat.zero_le 3)).seq ((hmem key (by simp)).expr (Nat.zero_le 3))

/-- A store to a boxed integer. -/
theorem steady_iboxStore {v : Expr} {m : EmitM Unit} (hv : Fits c N v)
    (hm : emitIboxStore c t v = some m) : Steady temps N 0 m := by
  unfold emitIboxStore at hm
  split at hm
  · split at hm
    · rw [← Option.some.inj hm]
      exact hv.int (Nat.zero_le 3)
    · cases hm
  · split at hm
    · rw [← Option.some.inj hm]
      exact hv.int (Nat.zero_le 3)
    · cases hm
  · cases hm

/-- An assignment to one target. -/
theorem steady_singleAssign {v : Expr} (ht : AllFit c N (targetExprs t)) (hv : Fits c N v) :
    Steady temps N 0 (emitSingleAssign c t v) := by
  unfold emitSingleAssign
  cases hibox : emitIboxStore c t v with
  | some m => exact steady_iboxStore hv hibox
  | none =>
    have hopen := (steady_targetOpen ht).seq (hv.expr (Nat.zero_le 3))
    cases t with
    | index table key =>
      change Steady temps N 0 ((emitUnboxedIndexStore c table key v).getD _)
      cases hm : emitUnboxedIndexStore c table key v with
      | none => exact hopen
      | some m =>
        exact steady_unboxedIndexStore (ht table (by simp [targetExprs])) (ht key (by simp [targetExprs])) hv hm
    | var kind idx =>
      cases kind with
      | varLocal =>
        change Steady temps N 0 (((emitTypedSlotStore c idx v).or none).getD _)
        rw [Option.or_none]
        cases hm : emitTypedSlotStore c idx v with
        | none => exact hopen
        | some m => exact steady_typedSlotStore hv hm
      | _ => exact hopen

/-- Every assignment. -/
theorem steady_assign (ht : AllFit c N (targets.flatMap targetExprs)) (hv : AllFit c N values)
    (hmulti : Room c N 0 (multiAssignStmtNeed c (.assign targets values))) :
    Steady temps N 0 (emitAssign c targets values) := by
  unfold emitAssign
  split
  · next t v =>
    exact steady_singleAssign (fun e he => ht e (by simpa using he)) (hv v List.mem_cons_self)
  · cases hm : emitAssignMultiCells c targets values with
    | some m => exact steady_assignMultiCells hmulti hm
    | none =>
      refine Steady.seq (steady_ite (fun _ => steady_targetArrays ht) fun _ => steady_pure ())
        (Steady.seq hv.argsArray (steady_forM fun t htarget => ?_))
      have hopen := steady_targetOpen (t := t) fun e he =>
        ht e (List.mem_flatMap.mpr ⟨t, List.mem_reverse.mp htarget, he⟩)
      cases t with
      | var kind idx => exact hopen
      | index table key => exact steady_ite (fun _ => steady_pure ()) fun _ => hopen

/-- The values that have a slot of their own. -/
theorem steady_leadValues (pairs : List (Option ℕ × Expr)) (h : ∀ p ∈ pairs, Fits c N p.2) :
    Steady temps N 0 (emitLeadValues c pairs) := by
  induction pairs with
  | nil => exact steady_pure ()
  | cons p pairs ih =>
    obtain ⟨hp, hpairs⟩ := List.forall_mem_cons.mp h
    have hrest := ih hpairs
    obtain ⟨_ | slot, v⟩ := p
    · exact (hp.expr (Nat.zero_le 3)).seq hrest
    · rw [emitLeadValues]
      refine Steady.seq (steady_ite (fun _ => hp.int (Nat.zero_le 3)) fun _ => ?_) hrest
      cases hm : emitTypedSlotStore c slot v with
      | none => exact hp.expr (Nat.zero_le 3)
      | some m => exact steady_typedSlotStore hp hm

/-- A declaration of locals. -/
theorem steady_localStmt {localIdxs : List ℕ} {attribs : List Attrib} (h : AllFit c N values) :
    Steady temps N 0 (emitLocalStmt c localIdxs attribs values) := by
  unfold emitLocalStmt
  refine Steady.seq (steady_leadValues _ ?_) (Steady.seq (steady_forM ?_) (steady_modify (fun _ => rfl) fun _ => rfl))
  · intro p hp
    obtain ⟨q, hq, rfl⟩ := List.mem_map.mp hp
    exact h q.1 (List.mem_of_mem_take (List.fst_mem_of_mem_zipIdx hq))
  · exact fun v hv => (h v (List.mem_of_mem_drop hv)).array (Nat.zero_le 3)

/-! ## Returns -/

/-- The values of a `return`. -/
theorem steady_returnValues (h : AllFit c N values) : Steady temps N 0 (emitReturnValues c values) := by
  unfold emitReturnValues
  refine steady_ite (fun _ => ?_) fun _ => h.argsArray
  split
  · next v =>
    have hv := h v List.mem_cons_self
    exact steady_ite (fun _ => hv.int (Nat.zero_le 3)) fun _ =>
      steady_ite (fun _ => hv.num (Nat.zero_le 3)) fun _ => hv.expr (Nat.zero_le 3)
  · exact h.exprs

/-- A `return`, or a tail call. -/
theorem steady_return {mode : OlMode} (h : AllFit c N values) : Steady temps N 0 (emitReturn c mode values) := by
  have hvalues := steady_returnValues h
  unfold emitReturn
  refine steady_ite (fun _ => h.exprs) fun _ => steady_get.bind fun s => steady_ite (fun _ => hvalues) fun _ => ?_
  split
  · next v =>
    have hv := h v List.mem_cons_self
    have hroom := (hv.room (Nat.zero_le 3)).mono (Nat.le_add_left _ _)
    refine steady_ite (fun _ => steady_fastCall (fun x _ => good c x) hroom) fun _ => steady_ite (fun _ => ?_) fun _ => hvalues
    -- a tail call
    cases v with
    | call callee args paren =>
      obtain ⟨hcallee, hargs, hrooms⟩ := steady_callee (fun x _ => good c x) hroom rfl
      exact hcallee.seq (steady_argsArray hargs hrooms)
    | methodCall recv method args paren =>
      obtain ⟨hrecv, hargs, hrooms⟩ := steady_recv (fun x _ => good c x) hroom rfl
      exact hrecv.seq (steady_argsArray hargs hrooms)
    | _ => exact steady_pure ()
  · exact hvalues

/-! ## Blocks and loops -/

section blocks

variable {m : EmitM Unit} (h : Steady temps N 0 m)

include h

/-- A loop. -/
theorem steady_withBreakLabel : Steady temps N 0 (withBreakLabel m) := by
  refine steady_get.bind fun s => steady_ite (fun _ => steady_cgError) fun _ => ?_
  refine Steady.seq (steady_modify ?_ ?_) (h.seq (steady_modify ?_ ?_)) <;> exact fun _ => rfl

/-- The statements of a block. -/
theorem steady_blockStmts (b : List Stmt) : Steady temps N 0 (blockStmts b m) :=
  steady_ite (fun _ => steady_cgError) fun _ => h

/-- A block, and what it closes. -/
theorem steady_inBlock (b : List Stmt) : Steady temps N 0 (inBlock b m) :=
  steady_get.bind fun _ => (steady_blockStmts h b).seq (steady_ite (fun _ => steady_pure ()) fun _ => steady_setCloseCount _)

end blocks

/-- What every statement begins with. -/
theorem steady_stmtHead {mode : OlMode} {emit : OlMode → EmitM Unit} (h : ∀ m, Steady temps N 0 (emit m)) :
    Steady temps N 0 (stmtHead c mode s emit) :=
  steady_whenOk (steady_get.bind fun _ => steady_ite (fun _ => steady_whenOk (h _)) fun _ => h _)

/-- An expression that may be missing. -/
theorem steady_optForM {o : Option Expr} {f : Expr → EmitM Unit} (h : ∀ e ∈ o, Steady temps N d (f e)) :
    Steady temps N d (o.forM f) := by
  cases o with
  | none => exact steady_pure ()
  | some e => exact h e rfl

/-- The step is evaluated only if there is one. -/
theorem mem_of_stepEvaluated {step : Option Expr} (h : e ∈ stepEvaluated step) : e ∈ step := by
  unfold stepEvaluated at h
  split at h
  · split at h
    · exact h
    · cases h
  · exact h

/-- The start, the limit and the step of a numeric `for`. -/
theorem steady_forSetup {slot : ℕ} {start stop : Expr} {step : Option Expr} (hstart : Fits c N start)
    (hstop : Fits c N stop) (hstep : ∀ e ∈ step, Fits c N e) :
    Steady temps N 0 (emitForSetup c slot start stop step) := by
  unfold emitForSetup
  refine steady_ite (fun _ => ?_) fun _ => ?_
  · refine (hstart.int (Nat.zero_le 3)).seq (Steady.seq ?_ ?_)
    · exact steady_ite (fun _ => hstop.int (Nat.zero_le 3)) fun _ => hstop.expr (Nat.zero_le 3)
    · exact steady_optForM fun e he => (hstep e (mem_of_stepEvaluated he)).int (Nat.zero_le 3)
  · refine (hstart.expr (Nat.zero_le 3)).seq ((hstop.expr (Nat.zero_le 3)).seq ?_)
    exact steady_optForM fun e he => (hstep e he).expr (Nat.zero_le 3)

/-- A `break`. -/
theorem steady_break : Steady temps N d emitBreak :=
  steady_get.bind fun _ => steady_ite (fun _ => steady_cgError) fun _ => steady_pure ()

/-! ## Statements -/

/-- What a statement may take, its nested statements apart. -/
structure StmtRoom (c : EmitCG) (N : ℕ) (s : Stmt) : Prop where
  own : AllFit c N (ownExprs s)
  multi : Room c N 0 (multiAssignStmtNeed c s)

/-- The condition of an arm. -/
def armCond : IfArm → Expr
  | .mk cond _ => cond

mutual

/-- A statement, with one case for each kind. -/
theorem steady_stmt (mode : OlMode) (s : Stmt) (h : StmtRoom c N s) (hnested : ∀ t ∈ nestedStmts s, StmtRoom c N t) :
    Steady temps N 0 (emitStmt c mode s) := by
  have hown := h.own
  cases s with
  | localStmt localIdxs attribs values => exact steady_localStmt hown
  | assign targets values =>
    have htargets : AllFit c N (targets.flatMap targetExprs) := fun e he => hown e (List.mem_append_left _ he)
    exact steady_assign htargets (fun e he => hown e (List.mem_append_right _ he)) h.multi
  | exprStmt e => exact steady_callStmt (hown e List.mem_cons_self)
  | ifStmt arms hasElse elseBody =>
    rw [emitStmt]
    have harms := steady_arms mode arms hown fun t ht => hnested t (List.mem_append_left _ ht)
    refine harms.seq (steady_ite (fun helse => ?_) fun _ => steady_pure ())
    refine steady_inBlock (steady_stmts mode elseBody fun t ht => hnested t ?_) elseBody
    rw [nestedStmts, if_pos helse]
    exact List.mem_append_right _ ht
  | whileStmt cond body =>
    rw [emitStmt]
    have hcond := steady_truthy (hown cond List.mem_cons_self)
    exact steady_withBreakLabel (hcond.seq (steady_inBlock (steady_stmts mode body hnested) body))
  | doStmt body =>
    rw [emitStmt]
    exact steady_inBlock (steady_stmts mode body hnested) body
  | returnStmt values => exact steady_return hown
  | localFunc localIdx func => exact steady_functionExpr func
  | forNum slot start stop step body =>
    rw [emitStmt]
    have hstep : ∀ e ∈ step, Fits c N e := fun e he => hown e (by simp [ownExprs, Option.mem_def.mp he])
    have hsetup : Steady temps N 0 (emitForSetup c slot start stop step) :=
      steady_forSetup (hown start (by simp [ownExprs])) (hown stop (by simp [ownExprs])) hstep
    have hbody := fun m => steady_inBlock (steady_stmts m body hnested) body
    refine steady_withBreakLabel (hsetup.seq (Steady.seq (steady_ite (fun _ => ?_) fun _ => steady_pure ()) (hbody mode)))
    exact steady_whenOk (steady_withBreakLabel (hsetup.seq (hbody .resumed)))
  | forGen localIdxs exprs body =>
    rw [emitStmt]
    have hbody := steady_inBlock (steady_stmts mode body hnested) body
    refine steady_withBreakLabel (Steady.seq (AllFit.argsArray hown) (steady_get.bind fun s => ?_))
    exact (steady_setCloseCount _).seq (hbody.seq
      (steady_ite (fun _ => steady_setCloseCount _) fun _ => steady_pure ()))
  | repeatStmt body cond =>
    rw [emitStmt]
    have hcond := steady_truthy (hown cond List.mem_cons_self)
    have hbody := steady_blockStmts (steady_stmts mode body hnested) body
    exact steady_withBreakLabel (steady_get.bind fun s => hbody.seq (hcond.seq (steady_setCloseCount _)))
  | breakStmt => exact steady_break
  | globalDecl globalIdxs values => exact AllFit.argsArray hown
  | gotoStmt name => exact steady_pure ()
  | label name => exact steady_pure ()
termination_by sizeOf s

/-- A list of statements. -/
theorem steady_stmts (mode : OlMode) (b : List Stmt) (h : ∀ s ∈ walkStmts b, StmtRoom c N s) :
    Steady temps N 0 (emitStmts c mode b) := by
  cases b with
  | nil => exact steady_pure ()
  | cons s rest =>
    rw [emitStmts]
    have hs := h s (by simp [walkStmts])
    have hnested : ∀ t ∈ nestedStmts s, StmtRoom c N t := fun t ht => h t (by simp [walkStmts, ht])
    have hrest : ∀ t ∈ walkStmts rest, StmtRoom c N t := fun t ht => h t (by simp [walkStmts, ht])
    exact (steady_stmtHead fun m => steady_stmt m s hs hnested).seq (steady_stmts mode rest hrest)
termination_by sizeOf b

/-- The arms of an `if`. -/
theorem steady_arms (mode : OlMode) (arms : List IfArm) (hconds : AllFit c N (arms.map armCond))
    (h : ∀ s ∈ walkArms arms, StmtRoom c N s) : Steady temps N 0 (emitArms c mode arms) := by
  cases arms with
  | nil => exact steady_pure ()
  | cons arm arms =>
    cases arm with
    | mk cond body =>
      rw [emitArms]
      have hcond := steady_truthy (hconds cond List.mem_cons_self)
      have hbody : ∀ t ∈ walkStmts body, StmtRoom c N t := fun t ht => h t (by simp [walkArms, ht])
      have harms : ∀ t ∈ walkArms arms, StmtRoom c N t := fun t ht => h t (by simp [walkArms, ht])
      exact hcond.seq ((steady_inBlock (steady_stmts mode body hbody) body).seq
        (steady_arms mode arms (fun e he => hconds e (List.mem_cons_of_mem _ he)) harms))
termination_by sizeOf arms

end

/-! ## Bodies -/

/-- A maximum over a list. -/
theorem le_maxNeed {α : Type} (need : α → ℕ) (xs : List α) (m : ℕ) :
    m ≤ maxNeed need xs m ∧ ∀ x ∈ xs, need x ≤ maxNeed need xs m := by
  induction xs generalizing m with
  | nil => exact ⟨le_rfl, fun x hx => absurd hx List.not_mem_nil⟩
  | cons y xs ih =>
    obtain ⟨hm, hxs⟩ := ih (max m (need y))
    refine ⟨(le_max_left _ _).trans hm, fun x hx => ?_⟩
    rcases List.mem_cons.mp hx with rfl | hx
    · exact (le_max_right _ _).trans hm
    · exact hxs x hx

/-- `block_temp_need` has room for every statement of the body. -/
theorem stmtRoom_mtMax {b : Block} (hs : s ∈ walkStmts b) : StmtRoom c (mtMax c b) s := by
  constructor
  · intro e he hopt
    have hmem : e ∈ (walkStmts b).flatMap ownExprs := List.mem_flatMap.mpr ⟨s, hs, he⟩
    have hexpr := (le_maxNeed (fun e => 1 + exprTempNeed c e) ((walkStmts b).flatMap ownExprs) 0).2 e hmem
    have hmulti := (le_maxNeed (multiAssignStmtNeed c) (walkStmts b)
      (maxNeed (fun e => 1 + exprTempNeed c e) ((walkStmts b).flatMap ownExprs) 0)).1
    rw [mtMax, if_pos hopt, blockTempNeed]
    omega
  · intro hopt
    have hmulti := (le_maxNeed (multiAssignStmtNeed c) (walkStmts b)
      (maxNeed (fun e => 1 + exprTempNeed c e) ((walkStmts b).flatMap ownExprs) 0)).2 s hs
    rw [mtMax, if_pos hopt, blockTempNeed]
    omega

/-- The whole body. -/
theorem steady_bodyEmit {b : Block} (h : ∀ s ∈ walkStmts b, StmtRoom c N s) : Steady temps N 0 (bodyEmit c b) :=
  steady_whenOk ((steady_setCloseCount 0).seq (steady_inBlock (steady_stmts .inline b h) b))

/-- Whatever the analyses of the slots and of the types say, whichever entry of a function is emitted and whichever of
its loops are outlined: at every allocation the temporaries in use are no more than those that `block_temp_need` has the
body declare, and in the end none is in use. -/
theorem allocs_le_mtMax (c : EmitCG) (ok : Bool) (b : Block) :
    (∀ k ∈ (emitBody c ok b).allocs, k ≤ mtMax c b) ∧ (emitBody c ok b).mtDepth = 0 := by
  have hrun : Steady temps (mtMax c b) 0 (bodyEmit c b) := steady_bodyEmit fun s hs => stmtRoom_mtMax hs
  exact ⟨Peak.marks_le hrun rfl rfl, (hrun ⟨0, mtMax c b, ok, 0, 0, []⟩ rfl).1⟩

end Lua2wasm.Lowering
