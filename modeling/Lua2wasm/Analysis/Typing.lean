import Lua2wasm.Analysis.FuncOrder

/-!
# How the types of a body follow the signatures

A body is typed twice, under signatures that give the parameters the same types and some functions other return types.
What is typed an integer stays one when the functions that return integers still do (`isInt_later`, `intSlots_later`),
and where just those return integers, what is typed a float stays one when the functions that return floats still do
(`float_later`, `floatSlots_later`).

Neither holds without more: that a function returns integers instead of floats can take the type from a slot, and then
an argument no longer fits. But then inference narrows the parameter. The signatures are `Quiet` for a body when it
narrows none, that is, when every argument of a direct call has just the type of its parameter, or this is `any`.
-/

namespace Lua2wasm.Analysis

variable {c c' cf cf' : CG} {e : Expr} {body : Block}
variable {paren : Bool} {args : List Expr} {callee : Expr} {op : BinOp} {lhs rhs : Expr}

/-! ## The operands that decide a type -/

/-- The operands that the type of an expression depends on. -/
def operands : Expr → List Expr
  | .binop _ lhs rhs _ => [lhs, rhs]
  | .unop _ operand => [operand]
  | .call _ args _ => args
  | _ => []

/-- Induction over these operands. -/
theorem operand_induction {P : Expr → Prop} (h : ∀ e, (∀ x ∈ operands e, P x) → P e) (e : Expr) : P e :=
  h e fun x _ => operand_induction h x
termination_by sizeOf e
decreasing_by
  rename_i hx
  cases e with
  | binop op lhs rhs paren =>
    rw [operands, List.mem_pair] at hx
    rcases hx with rfl | rfl <;> simp only [Expr.binop.sizeOf_spec] <;> omega
  | unop op operand =>
    rw [operands, List.mem_singleton] at hx
    subst hx
    simp only [Expr.unop.sizeOf_spec]
    omega
  | call callee args paren =>
    have hlt := List.sizeOf_lt_of_mem hx
    simp only [operands] at hlt
    simp only [Expr.call.sizeOf_spec]
    omega
  | _ => exact absurd hx List.not_mem_nil

theorem callsInList_of_mem {a : Expr} (ha : a ∈ args) {call : Expr × List Expr}
    (h : call ∈ callsIn a) : call ∈ callsInList args := by
  induction args with
  | nil => cases ha
  | cons b args ih =>
    rw [callsInList, List.mem_append]
    rcases List.mem_cons.mp ha with rfl | ha
    · exact Or.inl h
    · exact Or.inr (ih ha)

/-- The calls in an operand are calls in the expression. -/
theorem callsIn_operand {x : Expr} (hx : x ∈ operands e) {call : Expr × List Expr} (h : call ∈ callsIn x) :
    call ∈ callsIn e := by
  cases e with
  | binop op lhs rhs paren =>
    rw [operands, List.mem_pair] at hx
    rw [callsIn, List.mem_append]
    rcases hx with rfl | rfl
    · exact Or.inl h
    · exact Or.inr h
  | unop op operand =>
    rw [operands, List.mem_singleton] at hx
    subst hx
    rwa [callsIn]
  | call callee args paren =>
    rw [callsIn, List.mem_append, List.mem_append]
    exact Or.inl (Or.inr (callsInList_of_mem hx h))
  | _ => cases hx

/-! ## Numbers -/

/-- An expression has one of the two types. -/
def isNum (c : CG) (e : Expr) : Bool := exprIsInt c e || exprIsFloat c e

/-- An argument fits the type of its parameter. -/
def Fits (c : CG) : NumTy → Expr → Prop
  | .int, a => exprIsInt c a = true
  | .float, a => isNum c a = true
  | _, _ => True

theorem directArgsTypedOk_iff {tys : List NumTy} :
    directArgsTypedOk c tys args = true ↔ ∀ x ∈ tys.zip args, Fits c x.1 x.2 := by
  induction args generalizing tys with
  | nil => simp [directArgsTypedOk]
  | cons a args ih =>
    rw [directArgsTypedOk, Bool.and_eq_true, ih]
    rcases tys with _ | ⟨ty, tys⟩
    · simp
    · rcases ty with _ | _ | _ | _ <;> simp [Fits, isNum]

/-- A call is typed by the return type of its target, if its arguments fit. -/
theorem isInt_call :
    exprIsInt c (.call callee args paren) = true ↔ ∃ sg, targetSig c callee args = some sg ∧ sg.retTy = .int ∧
      ∀ x ∈ sg.paramTy.zip args, Fits c x.1 x.2 := by
  rw [exprIsInt]
  rcases targetSig c callee args with _ | sg
  · simp
  · simp [directArgsTypedOk_iff]

theorem isFloat_call :
    exprIsFloat c (.call callee args paren) = true ↔ ∃ sg, targetSig c callee args = some sg ∧ sg.retTy = .float ∧
      ∀ x ∈ sg.paramTy.zip args, Fits c x.1 x.2 := by
  rw [exprIsFloat]
  rcases targetSig c callee args with _ | sg
  · simp
  · simp [directArgsTypedOk_iff]

theorem isNum_call : isNum c (.call callee args paren) = true ↔ ∃ sg, targetSig c callee args = some sg ∧
      (sg.retTy = .int ∨ sg.retTy = .float) ∧ ∀ x ∈ sg.paramTy.zip args, Fits c x.1 x.2 := by
  rw [isNum, Bool.or_eq_true, isInt_call, isFloat_call]
  constructor
  · rintro (⟨sg, hsg, hret, hargs⟩ | ⟨sg, hsg, hret, hargs⟩)
    · exact ⟨sg, hsg, Or.inl hret, hargs⟩
    · exact ⟨sg, hsg, Or.inr hret, hargs⟩
  · rintro ⟨sg, hsg, hret | hret, hargs⟩
    · exact Or.inl ⟨sg, hsg, hret, hargs⟩
    · exact Or.inr ⟨sg, hsg, hret, hargs⟩

theorem isInt_binop :
    exprIsInt c (.binop op lhs rhs paren) = (intClosed op && (exprIsInt c lhs && exprIsInt c rhs)) := rfl
theorem isFloat_binop {op : BinOp} {lhs rhs : Expr} {paren : Bool} : exprIsFloat c (.binop op lhs rhs paren) =
      match op with
      | .div => isNum c lhs && isNum c rhs
      | .add | .sub | .mul => isNum c lhs && isNum c rhs && (exprIsFloat c lhs || exprIsFloat c rhs)
      | _ => false := by
  cases op <;> rfl

/-- Whether the operators that promote to floats make a number depends on nothing but whether both operands are
numbers. -/
theorem isNum_binop : isNum c (.binop op lhs rhs paren) = match op with
      | .add | .sub | .mul | .div => isNum c lhs && isNum c rhs
      | .fdiv | .mod | .band | .bor | .bxor => exprIsInt c lhs && exprIsInt c rhs
      | _ => false := by
  have hpromote : ∀ il fl ir fr : Bool, ((il && ir) || ((il || fl) && (ir || fr) && (fl || fr))) =
      ((il || fl) && (ir || fr)) := by decide
  rw [isNum, isInt_binop, isFloat_binop]
  cases op <;> simp only [intClosed, Bool.false_and, Bool.true_and, Bool.false_or, Bool.or_false]
  all_goals exact hpromote _ _ _ _

theorem isNum_unop {op : UnOp} {operand : Expr} :
    isNum c (.unop op operand) =
      match op with
      | .neg => isNum c operand
      | .bnot => exprIsInt c operand
      | _ => false := by
  unfold isNum
  rw [exprIsInt, exprIsFloat]
  cases op <;> simp

/-! ## Later signatures -/

/-- The context `c'` has the signatures of a later time: the parameters of the functions that the body calls have the
same types, and those of these functions that returned integers do so still. -/
structure Later (c c' : CG) : Prop where
  funcs : c'.funcs = c.funcs
  binds : c'.binds = c.binds
  boxes : c'.boxes = c.boxes
  curFuncIdx : c'.curFuncIdx = c.curFuncIdx
  sigs : ∀ callee args sg, targetSig c callee args = some sg → ∃ sg', targetSig c' callee args = some sg' ∧
    sg'.paramTy = sg.paramTy ∧ (sg.retTy = .int → sg'.retTy = .int)

/-- The flags of one table are set in another. -/
def Within (a b : List Bool) : Prop := ∀ i, a.getD i false = true → b.getD i false = true

/-- At a direct call, the types of the arguments are those of the parameters. -/
def Conforms (c : CG) (call : Expr × List Expr) : Prop :=
  ∀ sg, targetSig c call.1 call.2 = some sg → ∀ x ∈ sg.paramTy.zip call.2, x.1 = .any ∨ x.1 = exprNumTy c x.2

/-- Inference narrows no parameter at the calls of a body. -/
def Quiet (c : CG) (body : Block) : Prop := ∀ call ∈ callsOf body, Conforms c call

theorem Later.slot_ibox (h : Later c c') (slot : ℕ) : slotIsIbox c' slot = slotIsIbox c slot := by
  unfold slotIsIbox
  rw [h.boxes, h.curFuncIdx]

theorem Later.upval_ibox (h : Later c c') (u : ℕ) : upvalIsIbox c' u = upvalIsIbox c u := by
  unfold upvalIsIbox
  rw [h.boxes, h.curFuncIdx, h.funcs]

/-- A variable that is typed an integer. -/
theorem Later.isInt_var (h : Later c c') (hslots : Within c.curIsInt c'.curIsInt) {name : String} {kind : VarKind}
    {idx : ℕ} {ro : Bool} (hint : exprIsInt c (.var name kind idx ro) = true) :
    exprIsInt c' (.var name kind idx ro) = true := by
  rcases kind with _ | _ | _ | _
  · have hlocal : (slotIsInt c idx || slotIsIbox c idx) = true := hint
    show (slotIsInt c' idx || slotIsIbox c' idx) = true
    rw [h.slot_ibox, Bool.or_eq_true] at *
    exact hlocal.imp_left (hslots idx)
  · exact (h.upval_ibox idx).trans hint
  · cases hint
  · cases hint

/-- An argument that conforms fits. -/
theorem fits_of_conforms {ty : NumTy} {a : Expr} (h : ty = .any ∨ ty = exprNumTy c a) : Fits c ty a := by
  rcases h with rfl | rfl
  · trivial
  · unfold exprNumTy
    split
    · next hint => exact hint
    · split
      · next hfloat => simp [Fits, isNum, hfloat]
      · trivial

/-- What is typed an integer in the course of the analysis of the integer slots is so at a later time, and what is
typed a number is so if it is a number in the end, in the context `cf`. In the first there are no float slots yet. -/
theorem isInt_course (h : Later c c') (hslots : Within c.curIsInt c'.curIsInt) (hf : c.curIsFloat = [])
    (hcf : ∀ callee args, targetSig cf callee args = targetSig c' callee args) :
    (∀ call ∈ callsIn e, Conforms cf call) →
      (exprIsInt c e = true → exprIsInt c' e = true) ∧
        (isNum c e = true → isNum cf e = true → isNum c' e = true) := by
  induction e using operand_induction with
  | h e ih =>
    intro hquiet
    have hop : ∀ x ∈ operands e, (exprIsInt c x = true → exprIsInt c' x = true) ∧
        (isNum c x = true → isNum cf x = true → isNum c' x = true) :=
      fun x hx => ih x hx fun call hcall => hquiet call (callsIn_operand hx hcall)
    have hnum : exprIsInt c' e = true → isNum c' e = true := fun hint => by simp [isNum, hint]
    cases e with
    | int i => simp [exprIsInt, isNum]
    | float x => simp [exprIsInt, exprIsFloat, isNum]
    | var name kind idx ro =>
      have hint : exprIsInt c (.var name kind idx ro) = true → _ := h.isInt_var hslots
      refine ⟨hint, fun hn _ => ?_⟩
      rw [isNum, Bool.or_eq_true] at hn
      rcases hn with hn | hn
      · exact hnum (hint hn)
      · simp [exprIsFloat, slotIsFloat, hf] at hn
    | binop op lhs rhs paren =>
      obtain ⟨hl, hl'⟩ := hop lhs (by simp [operands])
      obtain ⟨hr, hr'⟩ := hop rhs (by simp [operands])
      constructor
      · intro hint
        rw [exprIsInt, Bool.and_eq_true, Bool.and_eq_true] at hint ⊢
        exact ⟨hint.1, hl hint.2.1, hr hint.2.2⟩
      · intro hn hnf
        rw [isNum_binop] at hn hnf ⊢
        cases op <;> simp only [Bool.and_eq_true] at hn hnf ⊢
        case add => exact ⟨hl' hn.1 hnf.1, hr' hn.2 hnf.2⟩
        case sub => exact ⟨hl' hn.1 hnf.1, hr' hn.2 hnf.2⟩
        case mul => exact ⟨hl' hn.1 hnf.1, hr' hn.2 hnf.2⟩
        case div => exact ⟨hl' hn.1 hnf.1, hr' hn.2 hnf.2⟩
        case fdiv => exact ⟨hl hn.1, hr hn.2⟩
        case mod => exact ⟨hl hn.1, hr hn.2⟩
        case band => exact ⟨hl hn.1, hr hn.2⟩
        case bor => exact ⟨hl hn.1, hr hn.2⟩
        case bxor => exact ⟨hl hn.1, hr hn.2⟩
        all_goals cases hn
    | unop op operand =>
      obtain ⟨ho, ho'⟩ := hop operand (by simp [operands])
      constructor
      · intro hint
        rw [exprIsInt, Bool.and_eq_true] at hint ⊢
        exact ⟨hint.1, ho hint.2⟩
      · intro hn hnf
        rw [isNum_unop] at hn hnf ⊢
        cases op
        case neg => exact ho' hn hnf
        case bnot => exact ho hn
        all_goals cases hn
    | call callee args paren =>
      have hconforms := hquiet (callee, args) (by rw [callsIn]; simp)
      -- the arguments still fit: an integer stays one, and the type of a float parameter is that of the argument
      have hargs : ∀ sg sg', targetSig c callee args = some sg → targetSig c' callee args = some sg' →
          sg'.paramTy = sg.paramTy → (∀ x ∈ sg.paramTy.zip args, Fits c x.1 x.2) →
          ∀ x ∈ sg'.paramTy.zip args, Fits c' x.1 x.2 := by
        intro sg sg' hsg hsg' hparam hfits x hx
        have hconf := hconforms sg' ((hcf callee args).trans hsg') x hx
        rw [hparam] at hx
        obtain ⟨ty, a⟩ := x
        have hfit := hfits _ hx
        obtain ⟨hint, hn⟩ := hop a (by simpa [operands] using (List.of_mem_zip hx).2)
        rcases ty with _ | _ | _ | _
        · trivial
        · exact hint hfit
        · refine hn hfit ?_
          exact @fits_of_conforms _ .float _ hconf
        · trivial
      constructor
      · intro hint
        obtain ⟨sg, hsg, hret, hfits⟩ := isInt_call.mp hint
        obtain ⟨sg', hsg', hparam, hkeep⟩ := h.sigs callee args sg hsg
        exact isInt_call.mpr ⟨sg', hsg', hkeep hret, hargs sg sg' hsg hsg' hparam hfits⟩
      · intro hn hnf
        obtain ⟨sg, hsg, -, hfits⟩ := isNum_call.mp hn
        obtain ⟨sg', hsg', hparam, -⟩ := h.sigs callee args sg hsg
        obtain ⟨sgf, hsgf, hretf, -⟩ := isNum_call.mp hnf
        rw [hcf, hsg'] at hsgf
        obtain rfl := Option.some.inj hsgf
        exact isNum_call.mpr ⟨sg', hsg', hretf, hargs sg sg' hsg hsg' hparam hfits⟩
    | _ => simp [exprIsInt, exprIsFloat, isNum]

/-- What is typed an integer in the end is so at a later time. -/
theorem isInt_later (h : Later c c') (hslots : Within c.curIsInt c'.curIsInt) :
    (∀ call ∈ callsIn e, Conforms c' call) → exprIsInt c e = true → exprIsInt c' e = true := by
  induction e using operand_induction with
  | h e ih =>
    intro hquiet hint
    have hop : ∀ x ∈ operands e, exprIsInt c x = true → exprIsInt c' x = true :=
      fun x hx => ih x hx fun call hcall => hquiet call (callsIn_operand hx hcall)
    cases e with
    | int i => rw [exprIsInt]
    | var name kind idx ro => exact h.isInt_var hslots hint
    | binop op lhs rhs paren =>
      rw [exprIsInt, Bool.and_eq_true, Bool.and_eq_true] at hint ⊢
      exact ⟨hint.1, hop lhs (by simp [operands]) hint.2.1, hop rhs (by simp [operands]) hint.2.2⟩
    | unop op operand =>
      rw [exprIsInt, Bool.and_eq_true] at hint ⊢
      exact ⟨hint.1, hop operand (by simp [operands]) hint.2⟩
    | call callee args paren =>
      have hconforms := hquiet (callee, args) (by rw [callsIn]; simp)
      obtain ⟨sg, hsg, hret, -⟩ := isInt_call.mp hint
      obtain ⟨sg', hsg', hparam, hkeep⟩ := h.sigs callee args sg hsg
      exact isInt_call.mpr ⟨sg', hsg', hkeep hret, fun x hx => fits_of_conforms (hconforms sg' hsg' x hx)⟩
    | _ => simp [exprIsInt] at hint

/-- Where floats are still returned as well, all types stay. -/
theorem float_later (h : Later c c')
    (hfloat : ∀ callee args sg sg', targetSig c callee args = some sg → targetSig c' callee args = some sg' →
      sg.retTy = .float → sg'.retTy = .float)
    (hslots : Within c.curIsInt c'.curIsInt) (hfslots : Within c.curIsFloat c'.curIsFloat) :
    (exprIsInt c e = true → exprIsInt c' e = true) ∧ (exprIsFloat c e = true → exprIsFloat c' e = true) := by
  induction e using operand_induction with
  | h e ih =>
    have hnum : ∀ x ∈ operands e, isNum c x = true → isNum c' x = true := by
      intro x hx hn
      rw [isNum, Bool.or_eq_true] at hn ⊢
      exact hn.imp (ih x hx).1 (ih x hx).2
    cases e with
    | int i => simp [exprIsInt, exprIsFloat]
    | float x => simp [exprIsInt, exprIsFloat]
    | var name kind idx ro =>
      refine ⟨h.isInt_var hslots, fun hf => ?_⟩
      rw [exprIsFloat, Bool.and_eq_true] at hf ⊢
      exact ⟨hf.1, hfslots idx hf.2⟩
    | binop op lhs rhs paren =>
      obtain ⟨hl, hl'⟩ := ih lhs (by simp [operands])
      obtain ⟨hr, hr'⟩ := ih rhs (by simp [operands])
      have hnl := hnum lhs (by simp [operands])
      have hnr := hnum rhs (by simp [operands])
      constructor
      · intro hint
        rw [exprIsInt, Bool.and_eq_true, Bool.and_eq_true] at hint ⊢
        exact ⟨hint.1, hl hint.2.1, hr hint.2.2⟩
      · intro hf
        rw [isFloat_binop] at hf ⊢
        -- one float operand is enough for the sum, the difference and the product
        have hor : (exprIsFloat c lhs || exprIsFloat c rhs) = true →
            (exprIsFloat c' lhs || exprIsFloat c' rhs) = true := by
          rw [Bool.or_eq_true, Bool.or_eq_true]
          exact Or.imp hl' hr'
        cases op <;> simp only [Bool.and_eq_true] at hf ⊢
        case add => exact ⟨⟨hnl hf.1.1, hnr hf.1.2⟩, hor hf.2⟩
        case sub => exact ⟨⟨hnl hf.1.1, hnr hf.1.2⟩, hor hf.2⟩
        case mul => exact ⟨⟨hnl hf.1.1, hnr hf.1.2⟩, hor hf.2⟩
        case div => exact ⟨hnl hf.1, hnr hf.2⟩
        all_goals cases hf
    | unop op operand =>
      obtain ⟨ho, ho'⟩ := ih operand (by simp [operands])
      constructor
      · intro hint
        rw [exprIsInt, Bool.and_eq_true] at hint ⊢
        exact ⟨hint.1, ho hint.2⟩
      · intro hf
        rw [exprIsFloat, Bool.and_eq_true] at hf ⊢
        exact ⟨hf.1, ho' hf.2⟩
    | call callee args paren =>
      -- the arguments fit what the later signature asks for
      have hargs : ∀ sg : FuncSig, (∀ x ∈ sg.paramTy.zip args, Fits c x.1 x.2) →
          ∀ x ∈ sg.paramTy.zip args, Fits c' x.1 x.2 := by
        intro sg hfits x hx
        have hmem : x.2 ∈ operands (.call callee args paren) := (List.of_mem_zip hx).2
        have hfit := hfits x hx
        obtain ⟨ty, a⟩ := x
        rcases ty with _ | _ | _ | _
        · trivial
        · exact (ih a hmem).1 hfit
        · exact hnum a hmem hfit
        · trivial
      constructor
      · intro hint
        obtain ⟨sg, hsg, hret, hfits⟩ := isInt_call.mp hint
        obtain ⟨sg', hsg', hparam, hkeep⟩ := h.sigs callee args sg hsg
        exact isInt_call.mpr ⟨sg', hsg', hkeep hret, hparam ▸ hargs sg hfits⟩
      · intro hf
        obtain ⟨sg, hsg, hret, hfits⟩ := isFloat_call.mp hf
        obtain ⟨sg', hsg', hparam, -⟩ := h.sigs callee args sg hsg
        exact isFloat_call.mpr ⟨sg', hsg', hfloat callee args sg sg' hsg hsg' hret, hparam ▸ hargs sg hfits⟩
    | _ => simp [exprIsInt, exprIsFloat]

end Lua2wasm.Analysis
