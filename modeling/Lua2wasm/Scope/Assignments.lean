import Lua2wasm.Scope.Steps

/-!
# Assignments to names

The assignments of a program to plain names, in the order of the text, each with the attribute of what the name is
bound to. A `Scope` lists the declarations in sight, innermost first and over all functions; a `Scan` reads a piece of
the program, collects its assignments and brings its declarations into scope.

The resolver knows a read-only variable by the attribute that it looks up again, by slot, in the frame at the end of a
chain of upvalues. `isConst_resolved` says that this is the attribute of the declaration that binds the name.
-/

namespace Lua2wasm

/-! ## Scanning -/

/-- A declaration: the name, or `none` for `global *`, and the attribute. -/
abbrev Scope := List (Option String × Attrib)

/-- The attribute of the variable that a name is bound to: that of the innermost declaration of the name, or, for a
free name, of the innermost collective one. The name `_ENV` is never free. -/
def Scope.attrib (sc : Scope) (name : String) : Attrib :=
  match sc.find? (·.1 = some name) with
  | some d => d.2
  | none =>
    if name = "_ENV" then .none
    else match sc.find? (·.1 = none) with
    | some d => d.2
    | none => .none

/-- An assignment to a name, with the attribute of the variable. -/
structure Assignment where
  name : String
  attrib : Attrib
  deriving DecidableEq, Repr

/-- The assignments of a piece of the program, and the scope behind it. -/
abbrev Scan := Scope → List Assignment × Scope

/-- Nothing. -/
def Scan.skip : Scan := fun sc => ([], sc)

/-- One piece and then another. -/
def Scan.andThen (a b : Scan) : Scan := fun sc => ((a sc).1 ++ (b (a sc).2).1, (b (a sc).2).2)

/-- A piece whose declarations are its own. -/
def Scan.inner (a : Scan) : Scan := fun sc => ((a sc).1, sc)

/-- Declarations, the last one first. -/
def Scan.declare (ds : Scope) : Scan := fun sc => ([], ds ++ sc)

/-- An assignment to a name. -/
def Scan.assign (name : String) : Scan := fun sc => ([⟨name, sc.attrib name⟩], sc)

/-- The declarations of a list of names. -/
def declarations (names : List (String × Attrib)) : Scope := (names.map fun d => (some d.1, d.2)).reverse

/-- The declarations a function begins with. A named vararg is read-only. -/
def funcDeclarations (params : List String) : RawVararg → Scope
  | .named name => (some name, .const) :: declarations (params.map (·, .none))
  | _ => declarations (params.map (·, .none))

/-- The name that an expression is. -/
def plainName : RawExpr → Option String
  | .name name => some name
  | .paren e => plainName e
  | _ => none

mutual

/-- An expression: the assignments are those of the functions in it. -/
def exprScan : RawExpr → Scan
  | .paren inner => exprScan inner
  | .function func => funcScan false func
  | .table entries => entriesScan entries
  | .call callee args => (exprScan callee).andThen (exprsScan args)
  | .index table key => (exprScan table).andThen (exprScan key)
  | .methodCall recv _ args => (exprScan recv).andThen (exprsScan args)
  | .unop _ operand => exprScan operand
  | .binop _ lhs rhs => (exprScan lhs).andThen (exprScan rhs)
  | _ => .skip
termination_by structural e => e

/-- Expressions, from left to right. -/
def exprsScan : List RawExpr → Scan
  | [] => .skip
  | e :: es => (exprScan e).andThen (exprsScan es)

/-- The entries of a table constructor. -/
def entriesScan : List RawEntry → Scan
  | [] => .skip
  | .positional v :: es => (exprScan v).andThen (entriesScan es)
  | .keyExpr k v :: es => ((exprScan k).andThen (exprScan v)).andThen (entriesScan es)

/-- A function. -/
def funcScan (withSelf : Bool) : RawFunc → Scan
  | .mk params vararg body =>
    ((Scan.declare (funcDeclarations (paramNames withSelf params) vararg)).andThen (stmtsScan body)).inner

/-- The statements of a block. -/
def stmtsScan : List RawStmt → Scan
  | [] => .skip
  | s :: ss => (stmtScan s).andThen (stmtsScan ss)

/-- A statement. -/
def stmtScan : RawStmt → Scan
  | .localStmt names values => (exprsScan values).andThen (.declare (declarations names))
  | .localFunc name func => (Scan.declare [(some name, .none)]).andThen (funcScan false func)
  | .globalFunc name func => (Scan.declare [(some name, .none)]).andThen (funcScan false func)
  | .globalAll attrib => .declare [(none, attrib)]
  | .globalDecl names values => (exprsScan values).andThen (.declare (declarations names))
  | .functionStmt name path method func =>
    (if path.isEmpty && method.isNone then Scan.assign name else .skip).andThen (funcScan method.isSome func)
  | .assign targets values => (targetsScan targets).andThen (exprsScan values)
  | .exprStmt e => exprScan e
  | .ifStmt arms _ elseBody => (armsScan arms).andThen (stmtsScan elseBody).inner
  | .whileStmt cond body => (exprScan cond).andThen (stmtsScan body).inner
  | .doStmt body => (stmtsScan body).inner
  | .returnStmt values => exprsScan values
  | .forNum name start stop step body =>
    (((exprScan start).andThen (exprScan stop)).andThen (optionScan step)).andThen
      ((Scan.declare [(some name, .const)]).andThen (stmtsScan body)).inner
  | .forGen names exprs body =>
    (exprsScan exprs).andThen ((Scan.declare (declarations (forGenNames names))).andThen (stmtsScan body)).inner
  | .repeatStmt body cond => ((stmtsScan body).andThen (exprScan cond)).inner
  | _ => .skip

/-- The targets of an assignment. -/
def targetsScan : List RawExpr → Scan
  | [] => .skip
  | t :: ts =>
    ((exprScan t).andThen (match plainName t with
      | some name => .assign name
      | none => .skip)).andThen (targetsScan ts)

/-- An expression that may be absent. -/
def optionScan : Option RawExpr → Scan
  | none => .skip
  | some e => exprScan e

/-- The arms of an `if`. -/
def armsScan : List RawArm → Scan
  | [] => .skip
  | .mk cond body :: arms => ((exprScan cond).andThen (stmtsScan body).inner).andThen (armsScan arms)

end

/-- The assignments of a program to names. -/
def assignments (chunk : List RawStmt) : List Assignment := (stmtsScan chunk []).1

/-! ## Frames as scopes -/

/-- A declaration of a frame. -/
def LocalSlot.entry (d : LocalSlot) : Option String × Attrib := (d.name, d.attrib)

/-- The declarations of frames. -/
def scopeOf (fs : List FuncFrame) : Scope := fs.flatMap fun f => f.locals.map LocalSlot.entry

/-- The declarations in sight. -/
def Parser.scope (p : Parser) : Scope := scopeOf (p.frame :: p.outer)

/-- The declarations of a frame are well formed, and no two have one slot. -/
structure FrameOk (f : FuncFrame) : Prop where
  wf : ∀ d ∈ f.locals, d.Wf f.nextSlot
  nodup : (f.locals.filterMap (·.slot)).Nodup

/-- All frames are. -/
def Parser.Ok (p : Parser) : Prop := ∀ f ∈ p.frame :: p.outer, FrameOk f

/-! ## Looking up a name -/

section

variable {name : String} {f f' : FuncFrame} {fs fs' : List FuncFrame} {ds ds' : List LocalSlot} {fn fn' : FreeNames}
  {d : LocalSlot} {globals globals' : List String} {r : NameRef} {next : ℕ}

/-- The attribute of a name, after a search that has seen `fn`. -/
def FreeNames.attrib (fn : FreeNames) (sc : Scope) (name : String) : Attrib :=
  match sc.find? (·.1 = some name) with
  | some d => d.2
  | none =>
    if name = "_ENV" then .none
    else match fn.collective with
    | .allConst => .const
    | .allRw => .none
    | .allNone => match sc.find? (·.1 = none) with
      | some d => d.2
      | none => .none

/-- A declaration of the name decides. -/
theorem attrib_found (fn : FreeNames) (attrib : Attrib) (sc : Scope) :
    fn.attrib ((some name, attrib) :: sc) name = attrib := by
  simp [FreeNames.attrib]

/-- A declaration of another name is passed. -/
theorem attrib_passed {n : String} (hn : n ≠ name) (v : Bool) (attrib : Attrib) (sc : Scope) :
    fn.attrib ((some n, attrib) :: sc) name = ({ fn with voided := v } : FreeNames).attrib sc name := by
  simp [FreeNames.attrib, hn]

/-- A collective declaration decides on free names, unless one was passed before. -/
theorem attrib_collective (attrib : Attrib) (sc : Scope) :
    fn.attrib ((none, attrib) :: sc) name = .const ↔ (if fn.collective = .allNone then
      { fn with collective := if attrib = .const then .allConst else .allRw } else fn).attrib sc name = .const := by
  obtain ⟨c, v⟩ := fn
  unfold FreeNames.attrib
  rcases hfind : sc.find? (·.1 = some name) with _ | d
  · by_cases henv : name = "_ENV"
    · simp [henv]
    · cases c <;> cases attrib <;> simp [hfind, henv]
  · cases c <;> simp [hfind]

/-- What the search of a frame finds has the attribute of the name. -/
theorem frameSearch_found (hwf : ∀ d ∈ ds, d.Wf next) (h : frameSearch name ds fn = (some d, fn')) (rest : Scope) :
    d ∈ ds ∧ (fn.attrib (ds.map LocalSlot.entry ++ rest) name = .const ↔ d.attrib = .const) := by
  induction ds generalizing fn with
  | nil => simp [frameSearch] at h
  | cons e ds ih =>
    have ih := fun fn h => @ih fn (fun d hd => hwf d (List.mem_cons_of_mem _ hd)) h
    unfold frameSearch at h
    cases hwf e List.mem_cons_self with
    | @loc n _ attrib _ | @glob n attrib =>
      by_cases hn : n = name
      · obtain rfl := hn
        simp only [reduceCtorEq, ↓reduceIte, Prod.mk.injEq, Option.some.injEq] at h
        obtain ⟨rfl, -⟩ := h
        refine ⟨List.mem_cons_self, ?_⟩
        rw [List.map_cons, List.cons_append]
        exact Iff.of_eq (congrArg (· = Attrib.const) (attrib_found _ _ _))
      · simp only [Option.some.injEq, hn, reduceCtorEq, ↓reduceIte] at h
        obtain ⟨hd, hiff⟩ := ih _ h
        refine ⟨List.mem_cons_of_mem _ hd, ?_⟩
        rw [← hiff, List.map_cons, List.cons_append]
        exact Iff.of_eq (congrArg (· = Attrib.const) (attrib_passed hn _ attrib _))
    | @globAll attrib =>
      simp only [↓reduceIte] at h
      obtain ⟨hd, hiff⟩ := ih _ h
      refine ⟨List.mem_cons_of_mem _ hd, ?_⟩
      rw [← hiff, List.map_cons, List.cons_append]
      exact attrib_collective attrib _

/-- When a frame has no declaration of the name, those outside it decide. -/
theorem frameSearch_missed (hwf : ∀ d ∈ ds, d.Wf next) (h : frameSearch name ds fn = (none, fn')) (rest : Scope) :
    fn.attrib (ds.map LocalSlot.entry ++ rest) name = .const ↔ fn'.attrib rest name = .const := by
  induction ds generalizing fn with
  | nil =>
    obtain ⟨-, rfl⟩ := Prod.mk.inj h
    rfl
  | cons e ds ih =>
    have ih := fun fn h => @ih fn (fun d hd => hwf d (List.mem_cons_of_mem _ hd)) h
    unfold frameSearch at h
    cases hwf e List.mem_cons_self with
    | @loc n _ attrib _ | @glob n attrib =>
      by_cases hn : n = name
      · simp [hn] at h
      · simp only [Option.some.injEq, hn, reduceCtorEq, ↓reduceIte] at h
        rw [← ih _ h, List.map_cons, List.cons_append]
        exact Iff.of_eq (congrArg (· = Attrib.const) (attrib_passed hn _ attrib _))
    | @globAll attrib =>
      simp only [↓reduceIte] at h
      rw [← ih _ h, List.map_cons, List.cons_append]
      exact attrib_collective attrib _

/-! ## The attribute of a resolved variable -/

/-- The declarations of a frame are those of another. -/
structure SameDecls (f f' : FuncFrame) : Prop where
  locals : f'.locals = f.locals
  nextSlot : f'.nextSlot = f.nextSlot

/-- `Parser.isConst`, of frames. -/
def isConstIn (f : FuncFrame) (fs : List FuncFrame) (r : NameRef) : Bool :=
  match r.kind with
  | .varLocal => frameLocalAttribBySlot f r.idx = some .const
  | .varUpval => upvalIsConst r.idx (f :: fs)
  | _ => r.ro

/-- The attribute is looked up by slot. -/
theorem attribBySlot_eq {slot : ℕ} (hf : FrameOk f) (hd : d ∈ f.locals) (hs : d.slot = some slot) :
    frameLocalAttribBySlot f slot = some d.attrib := by
  have hnodup := hf.nodup
  unfold frameLocalAttribBySlot
  revert hnodup hd
  generalize f.locals = ds
  intro hd hnodup
  induction ds with
  | nil => simp at hd
  | cons e ds ih =>
    by_cases he : e.slot = some slot
    · rw [List.find?_cons_of_pos (by simpa using he)]
      rcases List.mem_cons.mp hd with rfl | hd
      · rfl
      · -- the slot would be there twice
        rw [List.filterMap_cons_some he] at hnodup
        exact absurd (List.mem_filterMap.mpr ⟨d, hd, hs⟩) (List.nodup_cons.mp hnodup).1
    · rw [List.find?_cons_of_neg (by simpa using he)]
      rcases List.mem_cons.mp hd with rfl | hd
      · exact absurd hs he
      · apply ih hd
        rw [List.filterMap_cons] at hnodup
        rcases hslot : e.slot with _ | n
        · rw [hslot] at hnodup
          exact hnodup
        · rw [hslot] at hnodup
          exact (List.nodup_cons.mp hnodup).2

/-- An upvalue that is registered is found at its index. -/
theorem addUpvalue_spec {ref : UpvalueRef} {i : ℕ} (h : frameAddUpvalue f ref = some (i, f')) :
    f'.upvalues[i]? = some ref ∧ SameDecls f f' := by
  unfold frameAddUpvalue at h
  rcases hfind : f.upvalues.findIdx? (· = ref) with _ | j
  · rw [hfind] at h
    split_ifs at h
    obtain ⟨rfl, rfl⟩ := Prod.mk.inj (Option.some_inj.mp h)
    exact ⟨List.getElem?_concat_length, rfl, rfl⟩
  · rw [hfind] at h
    obtain ⟨rfl, rfl⟩ := Prod.mk.inj (Option.some_inj.mp h)
    obtain ⟨hlt, hj, -⟩ := List.findIdx?_eq_some_iff_getElem.mp hfind
    refine ⟨?_, rfl, rfl⟩
    rw [List.getElem?_eq_getElem hlt]
    exact congrArg some (by simpa using hj)

/-- A global has its flag. -/
theorem resolveGlobal_ro {ro : Bool} (h : resolveGlobal globals name ro = .ok (r, globals')) (f : FuncFrame)
    (fs : List FuncFrame) : isConstIn f fs r = ro := by
  unfold resolveGlobal at h
  rcases hb : lookupBuiltin name with _ | b
  · rw [hb] at h
    obtain ⟨x, -, hx⟩ := Fallible.map_ok h
    obtain ⟨rfl, -⟩ := Prod.mk.inj hx
    rfl
  · rw [hb] at h
    obtain ⟨rfl, -⟩ := Prod.mk.inj (Except.ok.inj h)
    rfl

/-- A name that the frame declares. -/
theorem isConst_found (hok : FrameOk f) (hs : frameSearch name f.locals fn = (some d, fn'))
    (h : resolveInFrame name globals f fs fn = .ok (r, f', fs', globals')) :
    f' = f ∧ fs' = fs ∧ (isConstIn f fs r = true ↔ d.attrib = .const) := by
  unfold resolveInFrame at h
  rw [hs] at h
  have hd := (frameSearch_found hok.wf hs []).1
  have hwf := hok.wf d hd
  have hslot : ∀ slot, d.slot = some slot → frameLocalAttribBySlot f slot = some d.attrib :=
    fun _ => attribBySlot_eq hok hd
  rcases hwf with @⟨n, slot, attrib, -⟩ | @⟨n, attrib⟩ | @⟨attrib⟩
  · obtain ⟨rfl, rfl, rfl, -⟩ := by simpa using h
    refine ⟨rfl, rfl, ?_⟩
    show (frameLocalAttribBySlot f slot = some .const : Bool) = true ↔ _
    rw [hslot slot rfl]
    simp
  all_goals
    obtain ⟨x, hx, hr⟩ := Fallible.map_ok h
    obtain ⟨rfl, rfl, rfl, -⟩ := by simpa using hr
    refine ⟨rfl, rfl, ?_⟩
    rw [resolveGlobal_ro hx]
    simp

/-- A variable that a name is resolved to is read-only when the declaration is that binds the name. -/
theorem isConst_resolved (hok : ∀ g ∈ f :: fs, FrameOk g)
    (h : resolveInFrame name globals f fs fn = .ok (r, f', fs', globals')) :
    SameDecls f f' ∧ List.Forall₂ SameDecls fs fs' ∧
      (isConstIn f' fs' r = true ↔ fn.attrib (scopeOf (f :: fs)) name = .const) := by
  have hsame : ∀ f, SameDecls f f := fun f => ⟨rfl, rfl⟩
  have hf := hok f List.mem_cons_self
  induction fs generalizing f f' fs' fn r globals' with
  | nil =>
    -- the outermost frame: the name is found, or it is a global
    rcases hs : frameSearch name f.locals fn with ⟨_ | d, fn'⟩
    · unfold resolveInFrame at h
      rw [hs] at h
      dsimp only at h
      split_ifs at h
      obtain ⟨x, hx, hr⟩ := Fallible.map_ok h
      obtain ⟨rfl, rfl, rfl, -⟩ := by simpa using hr
      refine ⟨hsame f, List.Forall₂.nil, ?_⟩
      have hmiss := frameSearch_missed hf.wf hs []
      rw [resolveGlobal_ro hx, show scopeOf [f] = f.locals.map LocalSlot.entry ++ [] by simp [scopeOf], hmiss]
      unfold FreeNames.attrib
      by_cases henv : name = "_ENV"
      · simp [henv]
      · rcases fn' with ⟨_ | _ | _, v⟩ <;> simp [henv]
    · obtain ⟨rfl, rfl, hiff⟩ := isConst_found hf hs h
      refine ⟨hsame _, List.Forall₂.nil, ?_⟩
      rw [hiff]
      exact (frameSearch_found hf.wf hs _).2.symm
  | cons g gs ih =>
    rcases hs : frameSearch name f.locals fn with ⟨_ | d, fn'⟩
    · unfold resolveInFrame at h
      rw [hs] at h
      obtain ⟨⟨r', g', gs', globals''⟩, hg, h⟩ := Fallible.except_bind_ok h
      have hokg : ∀ x ∈ g :: gs, FrameOk x := fun x hx => hok x (List.mem_cons_of_mem _ hx)
      obtain ⟨hsg, hsgs, hiff⟩ := ih hokg hg (hokg g List.mem_cons_self)
      -- the frame says nothing of the name, so the enclosing ones decide
      have hscope : fn.attrib (scopeOf (f :: g :: gs)) name = .const ↔ fn'.attrib (scopeOf (g :: gs)) name = .const :=
        frameSearch_missed hf.wf hs _
      rw [hscope, ← hiff]
      obtain ⟨kind, idx, ro⟩ := r'
      dsimp only at h
      rcases kind with _ | _ | _ | _
      · -- a local of the enclosing frame, which becomes an upvalue
        rcases hadd : frameAddUpvalue f ⟨.fromLocal, idx⟩ with _ | ⟨i, f₁⟩
        · rw [hadd] at h
          exact absurd h (by simp)
        · rw [hadd] at h
          obtain ⟨rfl, rfl, rfl, -⟩ := by simpa using h
          obtain ⟨hup, hsf⟩ := addUpvalue_spec hadd
          refine ⟨hsf, List.Forall₂.cons ⟨hsg.locals, hsg.nextSlot⟩ hsgs, ?_⟩
          unfold isConstIn upvalIsConst
          rw [hup]
          rfl
      · -- an upvalue of the enclosing frame
        rcases hadd : frameAddUpvalue f ⟨.fromUpval, idx⟩ with _ | ⟨i, f₁⟩
        · rw [hadd] at h
          exact absurd h (by simp)
        · rw [hadd] at h
          obtain ⟨rfl, rfl, rfl, -⟩ := by simpa using h
          obtain ⟨hup, hsf⟩ := addUpvalue_spec hadd
          refine ⟨hsf, List.Forall₂.cons hsg hsgs, ?_⟩
          conv_lhs => unfold isConstIn upvalIsConst
          rw [hup]
          rfl
      all_goals
        obtain ⟨rfl, rfl, rfl, -⟩ := by simpa using h
        exact ⟨hsame f, List.Forall₂.cons hsg hsgs, Iff.rfl⟩
    · obtain ⟨rfl, rfl, hiff⟩ := isConst_found hf hs h
      refine ⟨hsame _, List.forall₂_same.mpr fun x _ => hsame x, ?_⟩
      rw [hiff]
      exact (frameSearch_found hf.wf hs _).2.symm

end

end Lua2wasm
