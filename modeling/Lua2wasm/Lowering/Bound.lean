import Lua2wasm.Lib.Scratch
import Lua2wasm.Lowering.Stmt

/-!
# The temporaries of a body suffice

`block_temp_need` bounds the temporaries in use at every allocation of the emission of a body, whatever the analyses
found out about it. An expression that is lowered into a cell takes at most `expr_temp_need` temporaries above those in
use, and one more when its value is a Lua value, for a cell to box it from (`Good`). The proof is an induction over the
expression: each way to emit it goes to its sub-expressions only, or to another way on itself.
-/

namespace Lua2wasm.Lowering

open Analysis Scratch

/-- The temporaries, as scratch cells. -/
def temps : Gauge EmitState := ⟨(·.mtDepth), (·.allocs)⟩

variable {c : EmitCG} {N d : ℕ} {e : Expr}
variable {paren : Bool} {op : BinOp} {lhs rhs : Expr} {callee : Expr}

/-! ## The steps of an emission -/

/-- The state is read. -/
theorem steady_get : Steady temps N d (get : EmitM EmitState) := steady_of_frame fun _ => ⟨rfl, rfl⟩

/-- A change of other parts of the state. -/
theorem steady_modify {f : EmitState → EmitState} (hdepth : ∀ s, (f s).mtDepth = s.mtDepth)
    (hallocs : ∀ s, (f s).allocs = s.allocs) : Steady temps N d (modify f : EmitM Unit) :=
  steady_of_frame fun s => ⟨hdepth s, hallocs s⟩

/-- An error is noted. -/
theorem steady_cgError : Steady temps N d cgError := steady_modify (fun _ => rfl) fun _ => rfl

/-- The variables to be closed do not matter. -/
theorem steady_setCloseCount (base : ℕ) : Steady temps N d (setCloseCount base) :=
  steady_modify (fun _ => rfl) fun _ => rfl

/-- Nothing is emitted behind an error. -/
theorem steady_whenOk {m : EmitM Unit} (h : Steady temps N d m) : Steady temps N d (whenOk m) :=
  steady_get.bind fun _ => steady_ite (fun _ => h) fun _ => steady_pure ()

/-- The depth is read. -/
theorem peak_getDepth : Peak temps N d getDepth fun k d' => k = d ∧ d' = d :=
  fun _ hs => ⟨⟨hs, hs⟩, [], (List.append_nil _).symm, fun _ hk => absurd hk List.not_mem_nil⟩

/-- The depth is set back. -/
theorem peak_setDepth (k : ℕ) : Peak temps N d (setDepth k) fun _ d' => d' = k :=
  fun _ _ => ⟨rfl, [], (List.append_nil _).symm, fun _ hk => absurd hk List.not_mem_nil⟩

/-- An allocation, of which there is a record. -/
theorem peak_mtAlloc {n : ℕ} (h : d + n ≤ N) : Peak temps N d (mtAlloc n) fun k d' => k = d ∧ d' = d + n := by
  intro s hs
  have hrun : ((mtAlloc n).run s).1 = s.mtDepth ∧ ((mtAlloc n).run s).2.mtDepth = s.mtDepth + n ∧
      ((mtAlloc n).run s).2.allocs = s.allocs ++ [s.mtDepth + n] := by
    -- past the bound an error is raised as well
    by_cases hmax : s.mtMax < s.mtDepth + n
    · simp only [mtAlloc, getDepth, cgError, StateT.run_bind, StateT.run_get, StateT.run_modify, StateT.run_pure,
        pure_bind, if_pos hmax]
      exact ⟨rfl, rfl, rfl⟩
    · simp only [mtAlloc, getDepth, StateT.run_bind, StateT.run_get, StateT.run_modify, StateT.run_pure, pure_bind,
        if_neg hmax]
      exact ⟨rfl, rfl, rfl⟩
  obtain ⟨hk, hd, hl⟩ := hrun
  refine ⟨⟨hk.trans hs, ?_⟩, [s.mtDepth + n], hl, fun k hk => ?_⟩
  · exact hd.trans (congrArg (· + n) hs)
  · rw [List.mem_singleton.mp hk]
    exact (congrArg (· + n) hs).trans_le h

/-- Temporaries are taken, and what follows gives back all but those. -/
theorem Peak.alloc {β : Type} {n : ℕ} {f : ℕ → EmitM β} {R : β → ℕ → Prop} (h : d + n ≤ N)
    (hf : Peak temps N (d + n) (f d) R) : Peak temps N d (mtAlloc n >>= f) R :=
  (peak_mtAlloc h).bind fun k d' hkd => by
    obtain ⟨rfl, rfl⟩ := hkd
    exact hf

/-- The depth to go back to is read. -/
theorem Peak.depth {β : Type} {f : ℕ → EmitM β} {R : β → ℕ → Prop} (hf : Peak temps N d (f d) R) :
    Peak temps N d (getDepth >>= f) R :=
  peak_getDepth.bind fun k d' hkd => by
    obtain ⟨rfl, rfl⟩ := hkd
    exact hf

/-- Steps that each keep the temporaries as they are. -/
theorem steady_forM {α : Type} {xs : List α} {f : α → EmitM Unit} (h : ∀ x ∈ xs, Steady temps N d (f x)) :
    Steady temps N d (xs.forM f) := by
  induction xs with
  | nil => exact steady_pure ()
  | cons x xs ih =>
    have hrest := ih fun y hy => h y (List.mem_cons_of_mem x hy)
    exact (h x List.mem_cons_self).seq hrest

/-- A function expression. -/
theorem steady_functionExpr (func : ℕ) : Steady temps N d (emitFunctionExpr c func) :=
  steady_forM fun _ _ => steady_ite (fun _ => steady_cgError) fun _ => steady_pure ()

/-! ## Room -/

/-- There are `n` temporaries left above `d`. Where the specializer is off, none is needed. -/
def Room (c : EmitCG) (N d n : ℕ) : Prop := c.optInt = true → d + n ≤ N

/-- A smaller need. -/
theorem Room.mono {n m : ℕ} (h : Room c N d n) (hmn : m ≤ n) : Room c N d m :=
  fun hopt => (Nat.add_le_add_left hmn d).trans (h hopt)

/-- The need of an operand that becomes a Lua value or gets a cell: an immediate one has none. -/
def operandNeed (c : EmitCG) (e : Expr) (otherAfter : Option Expr) : ℕ :=
  if operandImmediate c e otherAfter then 0 else 1 + exprTempNeed c e

/-- An operand in place needs nothing. -/
theorem need_immediate {o : Option Expr} (h : operandImmediate c e o = true) : exprTempNeed c e = 0 := by
  cases e with
  | binop op lhs rhs paren => cases h
  | unop op operand => cases h
  | call callee args paren => cases h
  | methodCall recv method args paren => cases h
  | index table key => cases h
  | table entries => cases h
  | _ => simp [exprTempNeed]

/-- What an operand needs covers its expression. -/
theorem need_le_operandNeed (o : Option Expr) : exprTempNeed c e ≤ operandNeed c e o := by
  unfold operandNeed
  split
  · next h => exact (need_immediate h).le
  · omega

/-- The need of an operator covers its operands. -/
theorem need_binop (op : BinOp) (lhs rhs : Expr) (paren : Bool) :
    operandNeed c lhs (some rhs) ≤ exprTempNeed c (.binop op lhs rhs paren) ∧
      operandNeed c rhs none ≤ exprTempNeed c (.binop op lhs rhs paren) := by
  rw [exprTempNeed, operandNeed, operandNeed]
  cases operandImmediate c lhs (some rhs) <;> cases operandImmediate c rhs none
  all_goals
    simp
    try omega

/-- There is room for both operands. -/
theorem Room.operands (h : Room c N d (exprTempNeed c (.binop op lhs rhs paren))) :
    Room c N d (exprTempNeed c lhs) ∧ Room c N d (exprTempNeed c rhs) := by
  obtain ⟨hl, hr⟩ := need_binop (c := c) op lhs rhs paren
  exact ⟨h.mono ((need_le_operandNeed _).trans hl), h.mono ((need_le_operandNeed _).trans hr)⟩

/-- The need of a unary operator is that of its operand. -/
theorem need_unop (op : UnOp) (operand : Expr) :
    exprTempNeed c (.unop op operand) = operandNeed c operand none := by
  rw [exprTempNeed, operandNeed]
  cases operandImmediate c operand none <;> simp

/-- The need of a list covers its expressions. -/
theorem le_argsTempNeed (k : ℕ) (args : List Expr) (m : ℕ) :
    m ≤ argsTempNeed c k args m ∧ ∀ a ∈ args, k + exprTempNeed c a ≤ argsTempNeed c k args m := by
  induction args generalizing m with
  | nil => exact ⟨le_rfl, fun a ha => absurd ha List.not_mem_nil⟩
  | cons b args ih =>
    obtain ⟨hm, hargs⟩ := ih (max m (k + exprTempNeed c b))
    rw [argsTempNeed]
    refine ⟨(le_max_left _ _).trans hm, fun a ha => ?_⟩
    rcases List.mem_cons.mp ha with rfl | ha
    · exact (le_max_right _ _).trans hm
    · exact hargs a ha

/-- The expressions of an entry. -/
def entryExprs : TableEntry → List Expr
  | .positional v => [v]
  | .keyExpr k v => [k, v]

/-- The need of a table covers its entries. -/
theorem le_entriesTempNeed (entries : List TableEntry) (m : ℕ) :
    m ≤ entriesTempNeed c entries m ∧
      ∀ e ∈ entries.flatMap entryExprs, 1 + exprTempNeed c e ≤ entriesTempNeed c entries m := by
  induction entries generalizing m with
  | nil => exact ⟨le_rfl, fun a ha => absurd ha List.not_mem_nil⟩
  | cons ent entries ih =>
    cases ent with
    | positional v =>
      obtain ⟨hm, hentries⟩ := ih (max m (1 + exprTempNeed c v))
      rw [entriesTempNeed]
      refine ⟨(le_max_left _ _).trans hm, fun e he => ?_⟩
      rcases List.mem_append.mp he with he | he
      · rw [List.mem_singleton.mp he]
        exact (le_max_right _ _).trans hm
      · exact hentries e he
    | keyExpr k v =>
      obtain ⟨hm, hentries⟩ := ih (max (max m (1 + exprTempNeed c k)) (1 + exprTempNeed c v))
      rw [entriesTempNeed]
      refine ⟨((le_max_left _ _).trans (le_max_left _ _)).trans hm, fun e he => ?_⟩
      rcases List.mem_append.mp he with he | he
      · rcases List.mem_pair.mp he with rfl | rfl
        · exact ((le_max_right _ _).trans (le_max_left _ _)).trans hm
        · exact (le_max_right _ _).trans hm
      · exact hentries e he

/-! ## Expressions -/

/-- `for_each_subexpr`. -/
def subExprs : Expr → List Expr
  | .call callee args _ => callee :: args
  | .methodCall recv _ args _ => recv :: args
  | .binop _ lhs rhs _ => [lhs, rhs]
  | .unop _ operand => [operand]
  | .index table key => [table, key]
  | .table entries => entries.flatMap entryExprs
  | _ => []

/-- The expression of an entry is smaller than the table. -/
theorem sizeOf_entry {entries : List TableEntry} (h : e ∈ entries.flatMap entryExprs) :
    sizeOf e < sizeOf entries := by
  obtain ⟨ent, hent, he⟩ := List.mem_flatMap.mp h
  have hlt := List.sizeOf_lt_of_mem hent
  cases ent with
  | positional v =>
    rw [entryExprs, List.mem_singleton] at he
    subst he
    simp only [TableEntry.positional.sizeOf_spec] at hlt
    omega
  | keyExpr k v =>
    rw [entryExprs, List.mem_pair] at he
    simp only [TableEntry.keyExpr.sizeOf_spec] at hlt
    rcases he with rfl | rfl <;> omega

/-- Induction over the sub-expressions. -/
theorem subExpr_induction {P : Expr → Prop} (h : ∀ e, (∀ x ∈ subExprs e, P x) → P e) (e : Expr) : P e :=
  h e fun x _ => subExpr_induction h x
termination_by sizeOf e
decreasing_by
  rename_i hx
  cases e with
  | call callee args paren =>
    simp only [Expr.call.sizeOf_spec]
    rcases List.mem_cons.mp hx with rfl | hx
    · omega
    · have hlt := List.sizeOf_lt_of_mem hx
      omega
  | methodCall recv method args paren =>
    simp only [Expr.methodCall.sizeOf_spec]
    rcases List.mem_cons.mp hx with rfl | hx
    · omega
    · have hlt := List.sizeOf_lt_of_mem hx
      omega
  | binop op lhs rhs paren =>
    rw [subExprs, List.mem_pair] at hx
    rcases hx with rfl | rfl <;> simp only [Expr.binop.sizeOf_spec] <;> omega
  | unop op operand =>
    rw [subExprs, List.mem_singleton] at hx
    subst hx
    simp only [Expr.unop.sizeOf_spec]
    omega
  | index table key =>
    rw [subExprs, List.mem_pair] at hx
    rcases hx with rfl | rfl <;> simp only [Expr.index.sizeOf_spec] <;> omega
  | table entries =>
    have hlt := sizeOf_entry hx
    simp only [Expr.table.sizeOf_spec]
    omega
  | _ => exact absurd hx List.not_mem_nil

/-- The ways to emit an expression need no more temporaries than `expr_temp_need` and, for a Lua value, one more. -/
structure Good (c : EmitCG) (e : Expr) : Prop where
  int : ∀ {N d}, Room c N d (exprTempNeed c e) → Steady temps N d (emitIntExpr c e)
  float : ∀ {N d}, Room c N d (exprTempNeed c e) → Steady temps N d (emitFloatExpr c e)
  array : ∀ {N d}, Room c N d (exprTempNeed c e) → Steady temps N d (emitMultivalArray c e)
  expr : ∀ {N d}, Room c N d (1 + exprTempNeed c e) → Steady temps N d (emitExpr c e)
  concat : ∀ {N d} (k : ℕ), Room c N d (operandNeed c e none) → Steady temps N d (emitConcatParts c k e)
  lower : ∀ {N d}, c.optInt = true → d + exprTempNeed c e ≤ N → Steady temps N d (emitMaybeLower c e)

/-- Any number, as a double. -/
theorem Good.num (h : Good c e) (hroom : Room c N d (exprTempNeed c e)) : Steady temps N d (emitNumAsF64 c e) := by
  rw [emitNumAsF64]
  exact steady_ite (fun _ => h.float hroom) fun _ => h.int hroom

/-- An operand that may get a cell, which stays in use until the end. -/
theorem peak_operandCell (h : Good c e) (hopt : c.optInt = true)
    (hroom : ¬operandImmediate c e none = true → d + (1 + exprTempNeed c e) ≤ N) :
    Peak temps N d (if operandImmediate c e none then pure () else do
      let _ ← mtAlloc 1
      emitMaybeLower c e) fun _ _ => True := by
  split
  · exact peak_pure trivial
  · next himm =>
    have hle := hroom himm
    have hlower := h.lower (N := N) (d := d + 1) hopt (by omega)
    exact Peak.alloc (by omega) (Peak.mono hlower fun _ _ _ => trivial)

/-- An expression without sub-expressions takes no temporary. -/
theorem steady_leaf (hleaf : subExprs e = []) : Steady temps N d (emitExpr c e) := by
  have hint : Steady temps N d (emitIntExpr c e) := by
    unfold emitIntExpr
    apply steady_whenOk
    cases e with
    | int i => exact steady_pure ()
    | var name kind idx ro => exact steady_pure ()
    | binop op lhs rhs paren => cases hleaf
    | unop op operand => cases hleaf
    | call callee args paren => cases hleaf
    | _ => exact steady_cgError
  have hfloat : Steady temps N d (emitFloatExpr c e) := by
    unfold emitFloatExpr
    apply steady_whenOk
    cases e with
    | float x => exact steady_pure ()
    | var name kind idx ro => exact steady_pure ()
    | binop op lhs rhs paren => cases hleaf
    | unop op operand => cases hleaf
    | call callee args paren => cases hleaf
    | _ => exact steady_cgError
  unfold emitExpr
  refine steady_whenOk (steady_ite (fun _ => hint) fun _ => steady_ite (fun _ => hfloat) fun _ => ?_)
  cases e with
  | binop op lhs rhs paren => cases hleaf
  | unop op operand => cases hleaf
  | call callee args paren => cases hleaf
  | methodCall recv method args paren => cases hleaf
  | index table key => cases hleaf
  | function func => exact steady_functionExpr func
  | table entries =>
    -- each entry has an expression
    obtain _ | ⟨_ | _, entries⟩ := entries
    · dsimp only
      rw [emitTableEntries]
      exact steady_pure ()
    · cases hleaf
    · cases hleaf
  | _ => exact steady_pure ()

/-- An operand in place takes no temporary. -/
theorem steady_immediate {o : Option Expr} (h : operandImmediate c e o = true) : Steady temps N d (emitExpr c e) := by
  apply steady_leaf
  cases e with
  | int i => rfl
  | float x => rfl
  | var name kind idx ro => rfl
  | _ => cases h

/-- An operand as a Lua value. -/
theorem Good.operand (h : Good c e) (o : Option Expr) (hroom : Room c N d (operandNeed c e o)) :
    Steady temps N d (emitExpr c e) := by
  unfold operandNeed at hroom
  split at hroom
  · next himm => exact steady_immediate himm
  · exact h.expr hroom

/-! ### Lists of expressions -/

section lists

variable {args : List Expr} (h : ∀ a ∈ args, Good c a) (hroom : ∀ a ∈ args, Room c N d (1 + exprTempNeed c a))

include h hroom

/-- Values one by one. -/
theorem steady_exprs : Steady temps N d (emitExprs c args) := by
  induction args with
  | nil =>
    rw [emitExprs]
    exact steady_pure ()
  | cons a args ih =>
    rw [emitExprs]
    obtain ⟨ha, hargs⟩ := List.forall_mem_cons.mp h
    obtain ⟨hra, hrargs⟩ := List.forall_mem_cons.mp hroom
    exact (ha.expr hra).seq (ih hargs hrargs)

/-- The arguments of a typed function. -/
theorem steady_typedArgs (tys : List NumTy) : Steady temps N d (emitTypedArgs c tys args) := by
  induction args generalizing tys with
  | nil =>
    rw [emitTypedArgs]
    exact steady_pure ()
  | cons a args ih =>
    obtain ⟨ha, hargs⟩ := List.forall_mem_cons.mp h
    obtain ⟨hra, hrargs⟩ := List.forall_mem_cons.mp hroom
    have hra' : Room c N d (exprTempNeed c a) := hra.mono (Nat.le_add_left _ _)
    rw [emitTypedArgs]
    refine Steady.seq ?_ (ih hargs hrargs tys.tail)
    split
    · exact ha.int hra'
    · exact ha.num hra'
    · exact ha.expr hra

/-- Arguments in an array. -/
theorem steady_argsArray : Steady temps N d (emitArgsArray c args) := by
  induction args with
  | nil =>
    rw [emitArgsArray]
    exact steady_pure ()
  | cons a args ih =>
    obtain ⟨ha, hargs⟩ := List.forall_mem_cons.mp h
    obtain ⟨hra, hrargs⟩ := List.forall_mem_cons.mp hroom
    cases args with
    | nil =>
      rw [emitArgsArray]
      exact steady_ite (fun _ => ha.array (hra.mono (Nat.le_add_left _ _))) fun _ => ha.expr hra
    | cons b args =>
      rw [emitArgsArray]
      · exact (ha.expr hra).seq (ih hargs hrargs)
      · exact List.cons_ne_nil b args

end lists

/-- The entries of a table. -/
theorem steady_entries {entries : List TableEntry} (h : ∀ x ∈ entries.flatMap entryExprs, Good c x)
    (hroom : ∀ x ∈ entries.flatMap entryExprs, Room c N d (1 + exprTempNeed c x)) (nshape : ℕ) :
    Steady temps N d (emitTableEntries c nshape entries) := by
  induction entries with
  | nil =>
    rw [emitTableEntries]
    exact steady_pure ()
  | cons ent entries ih =>
    have hrest := ih (fun x hx => h x (List.mem_append_right _ hx)) fun x hx => hroom x (List.mem_append_right _ hx)
    cases ent with
    | positional v =>
      have hv : v ∈ (TableEntry.positional v :: entries).flatMap entryExprs := by simp [entryExprs]
      have hexpr := (h v hv).expr (hroom v hv)
      cases entries with
      | nil =>
        rw [emitTableEntries]
        exact steady_ite (fun _ => (h v hv).array ((hroom v hv).mono (Nat.le_add_left _ _))) fun _ => hexpr
      | cons b entries =>
        rw [emitTableEntries]
        · exact hexpr.seq hrest
        · exact List.cons_ne_nil b entries
    | keyExpr k v =>
      have hk : k ∈ (TableEntry.keyExpr k v :: entries).flatMap entryExprs := by simp [entryExprs]
      have hv : v ∈ (TableEntry.keyExpr k v :: entries).flatMap entryExprs := by simp [entryExprs]
      have hexpr := (h v hv).expr (hroom v hv)
      rw [emitTableEntries]
      refine Steady.seq (steady_ite (fun _ => ?_) fun _ => ?_) hrest
      · exact steady_ite (fun _ => (h v hv).float ((hroom v hv).mono (Nat.le_add_left _ _))) fun _ => hexpr
      · exact ((h k hk).expr (hroom k hk)).seq hexpr

/-! ### One expression -/

/-- The need of a call. -/
theorem need_call (callee : Expr) (args : List Expr) (paren : Bool) :
    1 + exprTempNeed c callee ≤ exprTempNeed c (.call callee args paren) ∧
      ∀ a ∈ args, 2 + exprTempNeed c a ≤ exprTempNeed c (.call callee args paren) := by
  rw [exprTempNeed]
  exact le_argsTempNeed 2 args _

/-- The need of a method call. -/
theorem need_methodCall (recv : Expr) (method : String) (args : List Expr) (paren : Bool) :
    1 + exprTempNeed c recv ≤ exprTempNeed c (.methodCall recv method args paren) ∧
      ∀ a ∈ args, 1 + exprTempNeed c a ≤ exprTempNeed c (.methodCall recv method args paren) := by
  rw [exprTempNeed]
  exact le_argsTempNeed 1 args _

/-- The need of an index. -/
theorem need_index (table key : Expr) :
    1 + exprTempNeed c table ≤ exprTempNeed c (.index table key) ∧
      1 + exprTempNeed c key ≤ exprTempNeed c (.index table key) := by
  rw [exprTempNeed]
  exact ⟨le_max_left _ _, le_max_right _ _⟩

/-- The need of a table. -/
theorem need_table (entries : List TableEntry) :
    ∀ x ∈ entries.flatMap entryExprs, 1 + exprTempNeed c x ≤ exprTempNeed c (.table entries) := by
  rw [exprTempNeed]
  exact (le_entriesTempNeed entries 0).2

section one

variable (h : ∀ x ∈ subExprs e, Good c x)

include h

section room

variable (hroom : Room c N d (exprTempNeed c e))

include hroom

/-- A callee and its arguments. -/
theorem steady_callee {args : List Expr} (he : e = .call callee args paren) :
    Steady temps N d (emitExpr c callee) ∧ (∀ a ∈ args, Good c a) ∧
      ∀ a ∈ args, Room c N d (1 + exprTempNeed c a) := by
  subst he
  obtain ⟨hcallee, hargs⟩ := need_call (c := c) callee args paren
  refine ⟨(h callee List.mem_cons_self).expr (hroom.mono hcallee), fun a ha => h a (List.mem_cons_of_mem _ ha),
    fun a ha => hroom.mono ?_⟩
  have hle := hargs a ha
  omega

/-- An expression as an integer. -/
theorem steady_int : Steady temps N d (emitIntExpr c e) := by
  unfold emitIntExpr
  apply steady_whenOk
  cases e with
  | int i => exact steady_pure ()
  | var name kind idx ro => exact steady_pure ()
  | unop op operand =>
    rw [need_unop] at hroom
    exact (h operand (by simp [subExprs])).int (hroom.mono (need_le_operandNeed none))
  | binop op lhs rhs paren =>
    obtain ⟨hl, hr⟩ := hroom.operands
    exact ((h lhs (by simp [subExprs])).int hl).seq ((h rhs (by simp [subExprs])).int hr)
  | call callee args paren =>
    obtain ⟨hcallee, hargs, hrooms⟩ := steady_callee h hroom rfl
    exact hcallee.seq (steady_typedArgs hargs hrooms _)
  | _ => exact steady_cgError

/-- As a double. -/
theorem steady_float : Steady temps N d (emitFloatExpr c e) := by
  unfold emitFloatExpr
  apply steady_whenOk
  cases e with
  | float x => exact steady_pure ()
  | var name kind idx ro => exact steady_pure ()
  | unop op operand =>
    rw [need_unop] at hroom
    exact (h operand (by simp [subExprs])).num (hroom.mono (need_le_operandNeed none))
  | binop op lhs rhs paren =>
    obtain ⟨hl, hr⟩ := hroom.operands
    exact ((h lhs (by simp [subExprs])).num hl).seq ((h rhs (by simp [subExprs])).num hr)
  | call callee args paren =>
    obtain ⟨hcallee, hargs, hrooms⟩ := steady_callee h hroom rfl
    exact hcallee.seq (steady_typedArgs hargs hrooms _)
  | _ => exact steady_cgError

/-- The receiver of a method call and the arguments. -/
theorem steady_recv {recv : Expr} {method : String} {args : List Expr}
    (he : e = .methodCall recv method args paren) :
    Steady temps N d (emitExpr c recv) ∧ (∀ a ∈ args, Good c a) ∧ ∀ a ∈ args, Room c N d (1 + exprTempNeed c a) := by
  subst he
  obtain ⟨hrecv, hargs⟩ := need_methodCall (c := c) recv method args paren
  exact ⟨(h recv List.mem_cons_self).expr (hroom.mono hrecv), fun a ha => h a (List.mem_cons_of_mem _ ha),
    fun a ha => hroom.mono (hargs a ha)⟩

/-- A call that gives an array. -/
theorem steady_callArray : Steady temps N d (emitCallArray c e) := by
  unfold emitCallArray
  cases e with
  | call callee args paren =>
    obtain ⟨hcallee, hargs, hrooms⟩ := steady_callee h hroom rfl
    refine hcallee.seq ?_
    split
    · exact steady_typedArgs hargs hrooms _
    · exact steady_argsArray hargs hrooms
  | methodCall recv method args paren =>
    obtain ⟨hrecv, hargs, hrooms⟩ := steady_recv h hroom rfl
    exact hrecv.seq (steady_argsArray hargs hrooms)
  | _ => exact steady_pure ()

/-- A call with its arguments on the stack. -/
theorem steady_fastCall : Steady temps N d (emitFastCall c e) := by
  unfold emitFastCall
  cases e with
  | call callee args paren =>
    obtain ⟨hcallee, hargs, hrooms⟩ := steady_callee h hroom rfl
    exact hcallee.seq (steady_exprs hargs hrooms)
  | methodCall recv method args paren =>
    obtain ⟨hrecv, hargs, hrooms⟩ := steady_recv h hroom rfl
    exact hrecv.seq (steady_exprs hargs hrooms)
  | _ => exact steady_pure ()

/-- Any call. -/
theorem steady_call : Steady temps N d (emitCall c e) := by
  unfold emitCall
  cases e with
  | call callee args paren =>
    dsimp only
    split
    · obtain ⟨hcallee, hargs, hrooms⟩ := steady_callee h hroom rfl
      exact hcallee.seq (steady_typedArgs hargs hrooms _)
    · exact steady_ite (fun _ => steady_fastCall h hroom) fun _ => steady_callArray h hroom
  | _ => exact steady_pure ()

/-- An expression that gives several values. -/
theorem steady_array : Steady temps N d (emitMultivalArray c e) := by
  unfold emitMultivalArray
  cases e with
  | vararg a b e => exact steady_pure ()
  | _ => exact steady_callArray h hroom

/-- An index. -/
theorem steady_indexExpr : Steady temps N d (emitIndexExpr c e) := by
  unfold emitIndexExpr
  cases e with
  | index table key =>
    obtain ⟨htable, hkey⟩ := need_index (c := c) table key
    have ht := (h table (by simp [subExprs])).expr (hroom.mono htable)
    have hk := h key (by simp [subExprs])
    refine steady_ite (fun _ => ht) fun _ => steady_ite (fun _ => ht) fun _ => steady_ite (fun _ => ?_) fun _ => ?_
    · exact ht.seq (hk.int (hroom.mono ((Nat.le_add_left _ _).trans hkey)))
    · exact ht.seq (hk.expr (hroom.mono hkey))
  | _ => exact steady_pure ()

/-- A comparison of typed operands. -/
theorem steady_cmpI32 (he : e = .binop op lhs rhs paren) (kind : CmpKind) :
    Steady temps N d (emitCmpI32 c kind lhs rhs) := by
  subst he
  obtain ⟨hrl, hrr⟩ := hroom.operands
  have hlhs := h lhs (by simp [subExprs])
  have hrhs := h rhs (by simp [subExprs])
  have hnums : Steady temps N d (do emitNumAsF64 c lhs; emitNumAsF64 c rhs) := (hlhs.num hrl).seq (hrhs.num hrr)
  unfold emitCmpI32
  cases kind with
  | int => exact (hlhs.int hrl).seq (hrhs.int hrr)
  | float => exact hnums
  | intFloat => exact steady_ite (fun _ => hnums) fun _ => (hlhs.int hrl).seq (hrhs.float hrr)
  | floatInt => exact steady_ite (fun _ => hnums) fun _ => (hlhs.float hrl).seq (hrhs.int hrr)

end room

/-! ### The maybe-typed lowering -/

/-- The operands of an operator, with their cells. -/
theorem peak_operands (he : e = .binop op lhs rhs paren)
    (hopt : c.optInt = true) (hroom : d + exprTempNeed c e ≤ N) :
    Peak temps N d (emitMaybeOperands c lhs rhs) fun k _ => k = d := by
  subst he
  rw [exprTempNeed] at hroom
  have hlhs := h lhs (by simp [subExprs])
  have hrhs := h rhs (by simp [subExprs])
  rw [emitMaybeOperands]
  apply Peak.depth
  dsimp only
  -- the cells of both operands are taken before either is lowered
  have hcells : d + (!operandImmediate c lhs (some rhs)).toNat + (!operandImmediate c rhs none).toNat - d =
      (!operandImmediate c lhs (some rhs)).toNat + (!operandImmediate c rhs none).toNat := by
    omega
  rw [hcells]
  apply Peak.alloc
  · omega
  refine Steady.bind ?_ fun _ => Steady.bind ?_ fun _ => peak_pure rfl
  · refine steady_ite (fun _ => steady_pure ()) fun hil => hlhs.lower hopt ?_
    rw [Bool.not_eq_true] at hil
    simp only [hil, Bool.not_false, if_true] at hroom ⊢
    omega
  · refine steady_ite (fun _ => steady_pure ()) fun hir => hrhs.lower hopt ?_
    rw [Bool.not_eq_true] at hir
    simp only [hir, Bool.not_false, if_true] at hroom ⊢
    omega

/-- A comparison of operands in cells. -/
theorem steady_cmpBlock (he : e = .binop op lhs rhs paren)
    (hopt : c.optInt = true) (hroom : d + exprTempNeed c e ≤ N) : Steady temps N d (emitMaybeCmpBlock c lhs rhs) := by
  rw [emitMaybeCmpBlock]
  refine (peak_operands h he hopt hroom).bind fun k d' hk => ?_
  subst hk
  exact peak_setDepth k

/-- An operator on cells. -/
theorem steady_tree (hopt : c.optInt = true) (hroom : d + exprTempNeed c e ≤ N) :
    Steady temps N d (emitMaybeTree c e) := by
  unfold emitMaybeTree
  cases e with
  | binop op lhs rhs paren =>
    refine (peak_operands h rfl hopt hroom).bind fun k d' hk => ?_
    subst hk
    exact peak_setDepth k
  | unop op operand =>
    rw [need_unop, operandNeed] at hroom
    apply Peak.depth
    refine (peak_operandCell (h operand (by simp [subExprs])) hopt fun himm => ?_).bind fun _ _ _ => peak_setDepth d
    rwa [if_neg himm] at hroom
  | _ => exact steady_pure ()

/-- A value that is boxed from its cell. -/
theorem steady_boxed (hopt : c.optInt = true) (hroom : d + (1 + exprTempNeed c e) ≤ N) :
    Steady temps N d (emitMaybeBoxed c e) := by
  have hroom' : d + 1 + exprTempNeed c e ≤ N := by omega
  rw [emitMaybeBoxed]
  apply Peak.alloc (by omega)
  refine Steady.bind ?_ fun _ => peak_setDepth d
  refine steady_whenOk (steady_ite (fun _ => ?_) fun _ => steady_ite (fun _ => ?_) fun _ => ?_)
  · exact steady_int h fun _ => hroom'
  · exact steady_float h fun _ => hroom'
  · exact steady_tree h hopt hroom'

end one

/-! ### All ways -/

/-- Only an optimised build has cells. -/
theorem involvesMaybe_opt (h : exprInvolvesMaybe c e = true) : c.optInt = true := by
  by_contra hopt
  rw [Bool.not_eq_true] at hopt
  unfold exprInvolvesMaybe at h
  simp [hopt] at h

/-- An operator on cells is arithmetic or a comparison. -/
theorem involvesMaybe_arith
    (h : exprInvolvesMaybe c (.binop op lhs rhs paren) = true) : maybeArithOp op = true ∨ isCmpOp op = true := by
  unfold exprInvolvesMaybe at h
  split at h
  · cases h
  · simp only [exprHasOpaque, Bool.and_eq_true, Bool.or_eq_true] at h
    exact h.1.1

/-- The expression is computed on maybe-typed cells, to be boxed from there. -/
def boxes (c : EmitCG) (e : Expr) : Bool :=
  match e with
  | .binop op _ _ _ => exprInvolvesMaybe c e && !isCmpOp op
  | .unop op _ => op == .neg && exprInvolvesMaybe c e
  | _ => false

/-- An inline builtin is a variable or a field of one. -/
theorem calleeMathKind_leaf (h : (calleeMathKind c callee).isSome = true) :
    subExprs callee = [] ∨ ∃ table key, callee = .index table (.string key) ∧ subExprs table = [] := by
  cases callee with
  | var name kind idx ro => exact Or.inl rfl
  | index table key =>
    right
    have hkind : (mathIndexKind c (.index table key)).isSome = true := by
      simpa [calleeMathKind] using h
    unfold mathIndexKind at hkind
    split at hkind
    · exact ⟨_, _, by assumption, rfl⟩
    · cases hkind
  | _ => simp [calleeMathKind, mathIndexKind] at h

/-- The function of an inline builtin takes no temporary. -/
theorem steady_mathCallee (h : (calleeMathKind c callee).isSome = true) : Steady temps N d (emitExpr c callee) := by
  obtain hleaf | ⟨table, key, rfl, htable⟩ := calleeMathKind_leaf h
  · exact steady_leaf hleaf
  · have ht : ∀ {N d}, Steady temps N d (emitExpr c table) := steady_leaf htable
    have hk : Steady temps N d (emitExpr c (.string key)) := steady_leaf rfl
    have hint : Steady temps N d (emitIntExpr c (.string key)) := by
      unfold emitIntExpr
      exact steady_whenOk steady_cgError
    unfold emitExpr
    apply steady_whenOk
    refine steady_ite (fun _ => ?_) fun _ => steady_ite (fun _ => ?_) fun _ => ?_
    · unfold emitIntExpr
      exact steady_whenOk steady_cgError
    · unfold emitFloatExpr
      exact steady_whenOk steady_cgError
    · dsimp only
      rw [emitIndexExpr]
      exact steady_ite (fun _ => ht) fun _ => steady_ite (fun _ => ht) fun _ =>
        steady_ite (fun _ => ht.seq hint) fun _ => ht.seq hk

section all

variable (h : ∀ x ∈ subExprs e, Good c x)

include h

/-- A unary operator. -/
theorem steady_unop {op : UnOp} {operand : Expr} (he : e = .unop op operand)
    (hroom : Room c N d (exprTempNeed c e)) (hbox : boxes c e = true → Room c N d (1 + exprTempNeed c e)) :
    Steady temps N d (emitUnop c e) := by
  subst he
  rw [emitUnop]
  refine steady_ite (fun hneg => ?_) fun _ => ?_
  · obtain ⟨rfl, hmaybe⟩ := hneg
    have hopt := involvesMaybe_opt hmaybe
    exact steady_boxed h hopt (hbox (by simp [boxes, hmaybe]) hopt)
  · rw [need_unop] at hroom
    exact (h operand (by simp [subExprs])).operand none hroom

/-- A binary operator. -/
theorem steady_binop (he : e = .binop op lhs rhs paren)
    (hroom : Room c N d (exprTempNeed c e)) (hbox : boxes c e = true → Room c N d (1 + exprTempNeed c e)) :
    Steady temps N d (emitBinop c e) := by
  subst he
  obtain ⟨hl, hr⟩ := need_binop (c := c) op lhs rhs paren
  have hlhs := (h lhs (by simp [subExprs])).operand (some rhs) (hroom.mono hl)
  have hgood := h rhs (by simp [subExprs])
  have hrhs := hgood.operand none (hroom.mono hr)
  rw [emitBinop]
  refine steady_ite (fun _ => hlhs.seq hrhs) fun _ => steady_ite (fun hmaybe => ?_) fun _ => ?_
  · have hopt := involvesMaybe_opt hmaybe
    refine steady_ite (fun _ => steady_cmpBlock h rfl hopt (hroom hopt)) fun hcmp => ?_
    exact steady_boxed h hopt (hbox (by simp [boxes, hmaybe, hcmp]) hopt)
  · split
    · exact steady_cmpI32 h hroom rfl _
    · exact steady_ite (fun _ => hlhs.seq (hgood.concat 1 (hroom.mono hr))) fun _ => hlhs.seq hrhs

/-- One more temporary is taken only where the value is boxed from a cell. -/
theorem steady_expr (hroom : Room c N d (exprTempNeed c e))
    (hbox : boxes c e = true → Room c N d (1 + exprTempNeed c e)) : Steady temps N d (emitExpr c e) := by
  unfold emitExpr
  apply steady_whenOk
  refine steady_ite (fun _ => steady_int h hroom) fun _ => steady_ite (fun _ => steady_float h hroom) fun _ => ?_
  cases e with
  | call callee args paren => exact steady_call h hroom
  | binop op lhs rhs paren => exact steady_binop h rfl hroom hbox
  | unop op operand => exact steady_unop h rfl hroom hbox
  | function func => exact steady_functionExpr func
  | index table key => exact steady_indexExpr h hroom
  | table entries => exact steady_entries h (fun x hx => hroom.mono (need_table entries x hx)) _
  | methodCall recv method args paren =>
    exact steady_ite (fun _ => steady_fastCall h hroom) fun _ => steady_callArray h hroom
  | _ => exact steady_pure ()

/-- The parts of a chain of concatenations. -/
theorem steady_concat (k : ℕ) (hroom : Room c N d (operandNeed c e none)) :
    Steady temps N d (emitConcatParts c k e) := by
  have hself : Steady temps N d (emitExpr c e) := by
    unfold operandNeed at hroom
    split at hroom
    · next himm => exact steady_immediate himm
    · exact steady_expr h (hroom.mono (Nat.le_add_left _ _)) fun _ => hroom
  unfold emitConcatParts
  cases e with
  | binop op lhs rhs paren =>
    obtain ⟨hl, hr⟩ := need_binop (c := c) op lhs rhs paren
    have hle := need_le_operandNeed (c := c) (e := .binop op lhs rhs paren) none
    have hlhs := (h lhs (by simp [subExprs])).operand (some rhs) (hroom.mono (hl.trans hle))
    exact steady_ite (fun _ => hlhs.seq ((h rhs (by simp [subExprs])).concat _ (hroom.mono (hr.trans hle))))
      fun _ => hself
  | _ => exact hself

/-- A call of an inline builtin. -/
theorem steady_mathCall {callee arg : Expr} (he : e = .call callee [arg] paren)
    (hkind : (calleeMathKind c callee).isSome = true) (hopt : c.optInt = true) (hroom : d + exprTempNeed c e ≤ N) :
    Steady temps N d (emitMaybeMathCall c callee arg) := by
  subst he
  have hneed := (need_call (c := c) callee [arg] paren).2 arg List.mem_cons_self
  rw [emitMaybeMathCall]
  apply Peak.depth
  apply Peak.alloc (by omega)
  refine (steady_mathCallee hkind).bind fun _ => ?_
  exact (peak_operandCell (h arg (by simp [subExprs])) hopt fun _ => by omega).bind fun _ _ _ => peak_setDepth d

/-- An expression into a cell. -/
theorem steady_lower (hopt : c.optInt = true) (hroom : d + exprTempNeed c e ≤ N) :
    Steady temps N d (emitMaybeLower c e) := by
  have hroom' : Room c N d (exprTempNeed c e) := fun _ => hroom
  -- where nothing is boxed, the expression is emitted as a Lua value
  have hself : boxes c e = false → Steady temps N d (emitExpr c e) := fun hbox =>
    steady_expr h hroom' fun htrue => absurd (hbox.symm.trans htrue) Bool.false_ne_true
  unfold emitMaybeLower
  apply steady_whenOk
  refine steady_ite (fun _ => steady_int h hroom') fun _ => steady_ite (fun _ => steady_float h hroom') fun _ => ?_
  cases e with
  | var name kind idx ro => exact steady_ite (fun _ => steady_pure ()) fun _ => steady_leaf rfl
  | binop op lhs rhs paren =>
    refine steady_ite (fun _ => steady_tree h hopt hroom) fun harith => hself ?_
    by_contra hbox
    rw [Bool.not_eq_false] at hbox
    obtain ⟨hmaybe, hcmp⟩ := Bool.and_eq_true_iff.mp hbox
    rcases involvesMaybe_arith hmaybe with htrue | htrue
    · exact harith htrue
    · rw [htrue] at hcmp
      cases hcmp
  | call callee args paren =>
    obtain _ | ⟨arg, _ | ⟨b, args⟩⟩ := args
    · exact hself rfl
    · exact steady_ite (fun hmath => steady_mathCall h rfl hmath.2 hopt hroom) fun _ => hself rfl
    · exact hself rfl
  | index table key =>
    obtain ⟨htable, hkey⟩ := need_index (c := c) table key
    have ht := (h table (by simp [subExprs])).expr (hroom'.mono htable)
    have hk := (h key (by simp [subExprs])).int (hroom'.mono ((Nat.le_add_left _ _).trans hkey))
    exact steady_ite (fun _ => ht.seq hk) fun _ => steady_ite (fun _ => ht) fun _ => hself rfl
  | unop op operand =>
    refine steady_ite (fun _ => ?_) fun _ => steady_ite (fun _ => steady_tree h hopt hroom) fun hneg => hself ?_
    · rw [need_unop] at hroom'
      exact (h operand (by simp [subExprs])).operand none hroom'
    · simp [boxes, hneg]
  | _ => exact hself rfl

end all

/-- Every expression is emitted within its need. -/
theorem good (c : EmitCG) (e : Expr) : Good c e := by
  induction e using subExpr_induction with
  | h e h =>
    exact {
      int := steady_int h
      float := steady_float h
      array := steady_array h
      expr := fun hroom => steady_expr h (hroom.mono (Nat.le_add_left _ _)) fun _ => hroom
      concat := steady_concat h
      lower := steady_lower h }

end Lua2wasm.Lowering
