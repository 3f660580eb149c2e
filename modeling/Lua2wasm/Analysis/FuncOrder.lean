import Lua2wasm.Analysis.Signatures
import Lua2wasm.Scope.Correct

/-!
# The order of the functions

A function gets its index when its parsing begins, so the functions that a body binds to its slots have greater indices
than the function whose body it is (`resolve_funcOrder`). A direct call therefore goes to the function itself or
forwards in the table.

`Begins n Q m` is the triple with which the walk of the resolver is followed: `m` begins functions from index `n` on
only, and `Q` holds of its result.
-/

namespace Lua2wasm.Analysis

open Fallible

variable {α β : Type} {n : ℕ} {Q : α → Prop} {R : β → Prop} {m : ResolveM α} {f : α → ResolveM β}

/-- An expression is no function that was begun before `n`. -/
def ExprFrom (n : ℕ) (e : Expr) : Prop := ∀ k, e = .function k → n ≤ k

/-- The functions that the statements bind to slots have indices from `n` on. -/
def StmtsFrom (n : ℕ) (sts : List Stmt) : Prop := ∀ s ∈ walkStmts sts, ∀ b ∈ boundFuncs s, n ≤ b.2

/-- Every body binds only functions behind its own. -/
def FuncOrder (funcs : List LuaFunc) : Prop := ∀ k lf, funcs[k]? = some lf → StmtsFrom (k + 1) lf.body

/-- A computation of the resolver begins functions from index `n` on, and its result meets `Q`. -/
def Begins (n : ℕ) (Q : α → Prop) (m : ResolveM α) : Prop :=
  ∀ p a p', n ≤ p.funcs.length → FuncOrder p.funcs → m p = .ok (a, p') →
    n ≤ p'.funcs.length ∧ FuncOrder p'.funcs ∧ Q a

/-- A computation of which only the order matters. -/
abbrev BeginsFrom (n : ℕ) (m : ResolveM α) : Prop := Begins n (fun _ => True) m

/-! ## Rules -/

/-- A value by itself. -/
theorem begins_pure {a : α} (h : Q a) : Begins n Q (pure a) := by
  intro p b p' hn horder hrun
  obtain ⟨rfl, rfl⟩ := pure_ok hrun
  exact ⟨hn, horder, h⟩

/-- One computation behind another. -/
theorem Begins.bind (h : Begins n Q m) (hf : ∀ a, Q a → Begins n R (f a)) : Begins n R (m >>= f) := by
  intro p b p' hn horder hrun
  obtain ⟨a, p₁, hm, hfa⟩ := bind_ok hrun
  obtain ⟨hn₁, horder₁, ha⟩ := h p a p₁ hn horder hm
  exact hf a ha p₁ b p' hn₁ horder₁ hfa

/-- A computation that ends with a value made from its result. -/
theorem Begins.map {g : α → β} (h : Begins n Q m) (hg : ∀ a, Q a → R (g a)) : Begins n R (m >>= fun a => pure (g a)) :=
  h.bind fun a ha => begins_pure (hg a ha)

/-- A computation that leaves the table of functions. -/
theorem begins_of_funcs (h : ∀ p a p', m p = .ok (a, p') → p'.funcs = p.funcs) : BeginsFrom n m := by
  intro p a p' hn horder hrun
  rw [h p a p' hrun]
  exact ⟨hn, horder, trivial⟩

/-- A step that changes other parts of the state. -/
theorem begins_update {x : Parser → α} {g : Parser → Parser} (h : ∀ p, (g p).funcs = p.funcs) :
    BeginsFrom n fun p => .ok (x p, g p) :=
  begins_of_funcs fun p _ _ hrun => by
    cases hrun
    exact h p

/-- An error ends the walk. -/
theorem begins_throw {e : String} : Begins n Q (throw e) :=
  fun _ _ _ _ _ hrun => (throw_ok hrun).elim

/-! ## Names and declarations -/

/-- A name resolves without a new function. -/
theorem begins_resolveName (name : String) : BeginsFrom n (resolveName name) := by
  apply begins_of_funcs
  intro p r p' hrun
  obtain ⟨⟨r, frame, outer, globals⟩, -, h⟩ := except_bind_ok hrun
  cases h
  rfl

/-- A variable is no function. -/
theorem begins_resolveVar (name : String) : Begins n (ExprFrom n) (resolveVar name) :=
  (begins_resolveName name).map fun _ _ => nofun

/-- Nor is the vararg expression. -/
theorem begins_resolveVararg : Begins n (ExprFrom n) resolveVararg := by
  intro p e p' hn horder hrun
  unfold resolveVararg at hrun
  split at hrun
  · cases hrun
    exact ⟨hn, horder, fun k h => by cases h⟩
  · cases hrun

/-- A local is declared. -/
theorem begins_declareLocal (msg name : String) (attrib : Attrib) :
    BeginsFrom n (declareLocal msg name attrib) := by
  apply begins_of_funcs
  intro p slot p' hrun
  unfold declareLocal at hrun
  split at hrun
  · cases hrun
    rfl
  · cases hrun

/-- The locals of a statement are declared. -/
theorem begins_declareLocals (names : List (String × Attrib)) : BeginsFrom n (declareLocals names) := by
  induction names with
  | nil => exact begins_pure trivial
  | cons d names ih => exact (begins_declareLocal _ _ _).bind fun _ _ => ih.map fun _ _ => trivial

/-- The parameters are declared. -/
theorem begins_declareParams (names : List String) : BeginsFrom n (declareParams names) := by
  induction names with
  | nil => exact begins_pure trivial
  | cons d names ih => exact (begins_declareLocal _ _ _).bind fun _ _ => ih

/-- The vararg parameter is declared. -/
theorem begins_declareVararg (vararg : RawVararg) : BeginsFrom n (declareVararg vararg) := by
  rcases vararg with _ | _ | name
  · exact begins_pure trivial
  · exact begins_update fun _ => rfl
  · exact (begins_declareLocal _ _ _).bind fun _ _ => begins_update fun _ => rfl

/-- A global is declared. -/
theorem begins_declareGlobal (name : Option String) (attrib : Attrib) :
    BeginsFrom n (declareGlobal name attrib) := by
  apply begins_of_funcs
  intro p u p' hrun
  unfold declareGlobal at hrun
  split at hrun
  · cases hrun
    rfl
  · cases hrun

/-- The globals of a statement are declared. -/
theorem begins_declareGlobals (names : List (String × Attrib)) : BeginsFrom n (declareGlobals names) := by
  induction names with
  | nil => exact begins_pure trivial
  | cons d names ih => exact (begins_declareGlobal _ _).bind fun _ _ => ih

/-- A global gets its index. -/
theorem begins_declareGlobalIndex (name : String) : BeginsFrom n (declareGlobalIndex name) := by
  apply begins_of_funcs
  intro p g p' hrun
  obtain ⟨⟨g, globals⟩, -, h⟩ := except_bind_ok hrun
  cases h
  rfl

/-- All globals of a statement do. -/
theorem begins_globalIndices (names : List (String × Attrib)) : BeginsFrom n (globalIndices names) := by
  induction names with
  | nil => exact begins_pure trivial
  | cons d names ih => exact (begins_declareGlobalIndex _).bind fun _ _ => ih.map fun _ _ => trivial

/-- A label is declared. -/
theorem begins_declareLabel (name : String) (endsBlock : Bool) :
    BeginsFrom n (declareLabel name endsBlock) := by
  apply begins_of_funcs
  intro p u p' hrun
  obtain ⟨gotos, -, h⟩ := except_bind_ok hrun
  cases h
  rfl

/-- A goto waits for its label. -/
theorem begins_declareGoto (name : String) : BeginsFrom n (declareGoto name) := by
  apply begins_of_funcs
  intro p u p' hrun
  unfold declareGoto at hrun
  split at hrun <;> cases hrun <;> rfl

/-- The check for constants. -/
theorem begins_checkAssignable (e : Expr) : BeginsFrom n (checkAssignable e) := by
  apply begins_of_funcs
  intro p u p' hrun
  unfold checkAssignable at hrun
  split at hrun
  · split at hrun
    · cases hrun
    · cases hrun
      rfl
  · cases hrun
    rfl

/-- The same for the name of a function. -/
theorem begins_checkFunctionName (plain : Bool) (e : Expr) : BeginsFrom n (checkFunctionName plain e) := by
  unfold checkFunctionName
  split
  · exact begins_checkAssignable e
  · exact begins_pure trivial

/-- An expression becomes a target. -/
theorem begins_exprToTarget (e : Expr) : BeginsFrom n (exprToTarget e) := by
  unfold exprToTarget
  split
  · exact begins_pure trivial
  · exact begins_pure trivial
  · exact begins_throw

/-- A block binds what its statements do. -/
theorem begins_block {stmts : ResolveM (List Stmt)} (h : Begins n (StmtsFrom n) stmts) :
    Begins n (StmtsFrom n) (resolveBlock stmts) := by
  have hbegin : BeginsFrom n beginBlock := begins_update fun _ => rfl
  have hend : ∀ s, BeginsFrom n (endBlock s) := fun s => begins_update fun _ => rfl
  exact hbegin.bind fun s _ => h.bind fun items hitems => (hend s).map fun _ _ => hitems

/-- A block with declarations of its own in front. -/
theorem begins_scope {m : ResolveM α} {f : ℕ → α → ResolveM β} (h : Begins n Q m)
    (hf : ∀ mark a, Q a → Begins n R (f mark a)) : Begins n R (frameMark >>= fun mark => m >>= f mark) := by
  have hmark : BeginsFrom n frameMark := begins_update fun _ => rfl
  exact hmark.bind fun mark _ => h.bind (hf mark)

/-- The declarations of a block go out of sight. -/
theorem begins_rewind {b : β} (mark : ℕ) (h : R b) : Begins n R (scopeRewind mark >>= fun _ => pure b) := by
  have hrewind : BeginsFrom n (scopeRewind mark) := begins_update fun _ => rfl
  exact hrewind.map fun _ _ => h

/-! ## Statements -/

/-- The statements inside two lists. -/
theorem walkStmts_append (a b : List Stmt) : walkStmts (a ++ b) = walkStmts a ++ walkStmts b := by
  induction a with
  | nil => simp [walkStmts]
  | cons s a ih => simp [walkStmts, ih]

/-- No statement binds anything. -/
theorem stmtsFrom_nil : StmtsFrom n [] := fun s hs => by simp [walkStmts] at hs

/-- Two lists that bind only functions from `n` on. -/
theorem StmtsFrom.append {a b : List Stmt} (ha : StmtsFrom n a) (hb : StmtsFrom n b) : StmtsFrom n (a ++ b) := by
  intro s hs
  rw [walkStmts_append, List.mem_append] at hs
  exact hs.elim (ha s) (hb s)

/-- A statement that binds no function itself. -/
theorem stmtsFrom_single {s : Stmt} (hown : boundFuncs s = []) (h : ∀ s' ∈ nestedStmts s, ∀ b ∈ boundFuncs s', n ≤ b.2) :
    StmtsFrom n [s] := by
  intro s' hs'
  simp only [walkStmts, List.append_nil, List.mem_cons] at hs'
  rcases hs' with rfl | hs'
  · simp [hown]
  · exact h s' hs'

/-- A statement without blocks that binds no function. -/
theorem stmtsFrom_plain {s : Stmt} (hown : boundFuncs s = []) (h : nestedStmts s = []) : StmtsFrom n [s] :=
  stmtsFrom_single hown (by simp [h])

/-- A declaration binds the functions among its values. -/
theorem stmtsFrom_localStmt {slots : List ℕ} {attribs : List Attrib} {values : List Expr}
    (h : ∀ v ∈ values, ExprFrom n v) : StmtsFrom n [.localStmt slots attribs values] := by
  intro s hs b hb
  simp only [walkStmts, nestedStmts, List.append_nil, List.mem_singleton] at hs
  subst hs
  simp only [boundFuncs] at hb
  split at hb
  · obtain ⟨⟨slot, v⟩, hmem, hv⟩ := List.mem_filterMap.mp hb
    have hvalue := h v (List.of_mem_zip hmem).2
    cases v with
    | function func =>
      cases hv
      exact hvalue func rfl
    | _ => cases hv
  · cases hb

/-- The declaration of the vararg table binds none. -/
theorem stmtsFrom_prepend {slot : Option ℕ} {body : Block} (h : StmtsFrom n body) :
    StmtsFrom n (prependVarargDecl slot body) := by
  rcases slot with _ | slot
  · exact h
  · refine StmtsFrom.append (a := [_]) (stmtsFrom_localStmt ?_) h
    simp [ExprFrom]

/-! ## Functions -/

/-- A function gets the next index, and what its body begins comes after it. -/
theorem begins_func {k : ℕ} {m : ResolveM Block} (h : ∀ n, Begins n (StmtsFrom n) m) :
    Begins n (n ≤ ·) (beginFunc >>= fun s => m >>= fun body => endFunc s k body) := by
  intro p j p' hn horder hrun
  obtain ⟨s, p₁, hbegin, hrun⟩ := bind_ok hrun
  obtain ⟨body, p₂, hbody, hend⟩ := bind_ok hrun
  obtain ⟨hs, hp₁⟩ : s.funcIdx = p.funcs.length ∧ p₁.funcs = p.funcs ++ [{ parentIdx := p.curFn }] := by
    unfold beginFunc at hbegin
    split at hbegin
    · cases hbegin
    · split at hbegin
      · cases hbegin
      · cases hbegin
        exact ⟨rfl, rfl⟩
  have horder₁ : FuncOrder p₁.funcs := by
    intro i lf hi
    rw [hp₁, List.getElem?_append] at hi
    split at hi
    · exact horder i lf hi
    · rw [List.getElem?_singleton] at hi
      split at hi
      · cases hi
        exact stmtsFrom_nil
      · cases hi
  obtain ⟨hlen, horder₂, hfrom⟩ := h (p.funcs.length + 1) p₁ body p₂ (by simp [hp₁]) horder₁ hbody
  unfold endFunc at hend
  split at hend
  · cases hend
  · cases hend
    refine ⟨by simpa using by omega, ?_, by omega⟩
    intro i lf hi
    rw [List.getElem?_set] at hi
    split at hi
    · next hfunc =>
      split at hi
      · cases hi
        rw [← hfunc, hs]
        exact stmtsFrom_prepend hfrom
      · cases hi
    · exact horder₂ i lf hi

/-! ## The walk -/

/-- Parentheses do not matter. -/
theorem exprFrom_setParen {e : Expr} (h : ExprFrom n e) : ExprFrom n e.setParen := by
  intro k hk
  cases e <;> first | exact h k hk | cases hk

mutual

/-- An expression. -/
theorem resolveExpr_begins : ∀ (e : RawExpr) (n : ℕ), Begins n (ExprFrom n) (resolveExpr e)
  | .nil, _ => begins_pure nofun
  | .true, _ => begins_pure nofun
  | .false, _ => begins_pure nofun
  | .int _, _ => begins_pure nofun
  | .float _, _ => begins_pure nofun
  | .string _, _ => begins_pure nofun
  | .name name, _ => begins_resolveVar name
  | .paren inner, n => (resolveExpr_begins inner n).map fun _ h => exprFrom_setParen h
  | .vararg, _ => begins_resolveVararg
  | .function func, n => (resolveFunc_begins false func n).map fun k hk j hj => by
      cases hj
      exact hk
  | .table entries, n => (resolveEntries_begins entries n).map fun _ _ => nofun
  | .call callee args, n => (resolveExpr_begins callee n).bind fun _ _ => (resolveExprs_begins args n).map
      fun _ _ => nofun
  | .index table key, n => (resolveExpr_begins table n).bind fun _ _ => (resolveExpr_begins key n).map
      fun _ _ => nofun
  | .methodCall recv _ args, n => (resolveExpr_begins recv n).bind fun _ _ => (resolveExprs_begins args n).map
      fun _ _ => nofun
  | .unop _ operand, n => (resolveExpr_begins operand n).map fun _ _ => nofun
  | .binop _ lhs rhs, n => (resolveExpr_begins lhs n).bind fun _ _ => (resolveExpr_begins rhs n).map
      fun _ _ => nofun

/-- A list of expressions. -/
theorem resolveExprs_begins : ∀ (es : List RawExpr) (n : ℕ),
    Begins n (fun es => ∀ e ∈ es, ExprFrom n e) (resolveExprs es)
  | [], _ => begins_pure nofun
  | e :: es, n => (resolveExpr_begins e n).bind fun _ he => (resolveExprs_begins es n).map fun _ hes =>
      List.forall_mem_cons.mpr ⟨he, hes⟩

/-- The entries of a table. -/
theorem resolveEntries_begins : ∀ (es : List RawEntry) (n : ℕ), BeginsFrom n (resolveEntries es)
  | [], _ => begins_pure trivial
  | .positional v :: es, n => (resolveExpr_begins v n).bind fun _ _ => (resolveEntries_begins es n).map
      fun _ _ => trivial
  | .keyExpr k v :: es, n => (resolveExpr_begins k n).bind fun _ _ => (resolveExpr_begins v n).bind fun _ _ =>
      (resolveEntries_begins es n).map fun _ _ => trivial

/-- A function expression has a new index. -/
theorem resolveFunc_begins (withSelf : Bool) : ∀ (f : RawFunc) (n : ℕ), Begins n (n ≤ ·) (resolveFunc withSelf f)
  | .mk params vararg body, n => by
    have hbegin : ∀ n, BeginsFrom n beginBody := fun n => begins_update fun _ => rfl
    have hend : ∀ n s, BeginsFrom n (endBody s) :=
      fun n s => begins_update fun _ => rfl
    have hbody : ∀ n, Begins n (StmtsFrom n)
        (declareParams (paramNames withSelf params) >>= fun _ => declareVararg vararg >>= fun _ =>
          beginBody >>= fun b => resolveBlock (resolveStmts false body) >>= fun body =>
            endBody b >>= fun _ => pure body) := fun n =>
      (begins_declareParams _).bind fun _ _ => (begins_declareVararg _).bind fun _ _ =>
        (hbegin n).bind fun b _ => (begins_block (resolveStmts_begins false body n)).bind fun _ hitems =>
          (hend n b).map fun _ _ => hitems
    have hfunc := begins_func (n := n) (k := (paramNames withSelf params).length) hbody
    simp only [bind_assoc, pure_bind] at hfunc
    exact hfunc

/-- A list of statements. -/
theorem resolveStmts_begins (isRepeat : Bool) : ∀ (sts : List RawStmt) (n : ℕ),
    Begins n (StmtsFrom n) (resolveStmts isRepeat sts)
  | [], _ => begins_pure stmtsFrom_nil
  | s :: rest, n => (resolveStmt_begins _ s n).bind fun _ hs => (resolveStmts_begins isRepeat rest n).map fun _ hrest =>
      hs.append hrest

/-- A statement, with one case for each kind. -/
theorem resolveStmt_begins (endsBlock : Bool) : ∀ (s : RawStmt) (n : ℕ),
    Begins n (fun st => StmtsFrom n st.toList) (resolveStmt endsBlock s)
  | .localStmt names values, n => (resolveExprs_begins values n).bind fun _ hvalues =>
      (begins_declareLocals names).map fun _ _ => stmtsFrom_localStmt hvalues
  | .localFunc name func, n => (begins_declareLocal _ _ _).bind fun slot _ => (resolveFunc_begins false func n).map
      fun k hk s hs b hb => by
        simp only [Option.toList_some, walkStmts, nestedStmts, List.append_nil, List.mem_singleton] at hs
        subst hs
        rw [boundFuncs, List.mem_singleton] at hb
        rw [hb]
        exact hk
  | .globalFunc name func, n => (begins_declareGlobalIndex name).bind fun _ _ =>
      (begins_declareGlobal _ _).bind fun _ _ => (resolveFunc_begins false func n).map fun _ _ =>
        stmtsFrom_plain rfl rfl
  | .globalAll attrib, n => (begins_declareGlobal _ _).map fun _ _ => stmtsFrom_nil
  | .globalDecl names values, n => (begins_globalIndices names).bind fun _ _ =>
      (resolveExprs_begins values n).bind fun _ _ => (begins_declareGlobals names).map fun _ _ =>
        stmtsFrom_plain rfl rfl
  | .functionStmt name path method func, n => (begins_resolveVar name).bind fun _ _ =>
      (begins_checkFunctionName _ _).bind fun _ _ => (begins_exprToTarget _).bind fun _ _ =>
        (resolveFunc_begins _ func n).map fun _ _ => stmtsFrom_plain rfl rfl
  | .assign targets values, n => (resolveTargets_begins targets n).bind fun _ _ =>
      (resolveExprs_begins values n).map fun _ _ => stmtsFrom_plain rfl rfl
  | .exprStmt e, n => (resolveExpr_begins e n).map fun _ _ => stmtsFrom_plain rfl rfl
  | .ifStmt arms hasElse elseBody, n => (resolveArms_begins arms n).bind fun _ harms =>
      -- a branch is walked in a scope of its own
      begins_scope (begins_block (resolveStmts_begins false elseBody n)) fun mark _ helse =>
        begins_rewind mark (stmtsFrom_single rfl fun s hs => by
          rw [nestedStmts, List.mem_append] at hs
          rcases hs with hs | hs
          · exact harms s hs
          · split at hs
            · exact helse s hs
            · cases hs)
  | .whileStmt cond body, n => (resolveExpr_begins cond n).bind fun _ _ =>
      begins_scope (begins_block (resolveStmts_begins false body n)) fun mark _ hbody =>
        begins_rewind mark (stmtsFrom_single rfl hbody)
  | .doStmt body, n =>
      begins_scope (begins_block (resolveStmts_begins false body n)) fun mark _ hbody =>
        begins_rewind mark (stmtsFrom_single rfl hbody)
  | .returnStmt values, n => (resolveExprs_begins values n).map fun _ _ => stmtsFrom_plain rfl rfl
  | .forNum name start stop step body, n => (resolveExpr_begins start n).bind fun _ _ =>
      (resolveExpr_begins stop n).bind fun _ _ => (resolveOption_begins step n).bind fun _ _ =>
        begins_scope (begins_declareLocal _ _ _) fun mark _ _ =>
          (begins_block (resolveStmts_begins false body n)).bind fun _ hbody =>
            begins_rewind mark (stmtsFrom_single rfl hbody)
  | .forGen names exprs body, n => (resolveExprs_begins exprs n).bind fun _ _ =>
      begins_scope (begins_declareLocals _) fun mark _ _ =>
        (begins_block (resolveStmts_begins false body n)).bind fun _ hbody =>
          begins_rewind mark (stmtsFrom_single rfl hbody)
  | .repeatStmt body cond, n =>
      begins_scope (begins_block (resolveStmts_begins true body n)) fun mark _ hbody =>
        (resolveExpr_begins cond n).bind fun _ _ => begins_rewind mark (stmtsFrom_single rfl hbody)
  | .breakStmt, _ => begins_pure (stmtsFrom_plain rfl rfl)
  | .gotoStmt name, _ => (begins_declareGoto name).map fun _ _ => stmtsFrom_plain rfl rfl
  | .label name, _ => (begins_declareLabel name _).map fun _ _ => stmtsFrom_plain rfl rfl

/-- The targets of an assignment. -/
theorem resolveTargets_begins : ∀ (ts : List RawExpr) (n : ℕ), BeginsFrom n (resolveTargets ts)
  | [], _ => begins_pure trivial
  | t :: ts, n => (resolveExpr_begins t n).bind fun _ _ => (begins_exprToTarget _).bind fun _ _ =>
      (begins_checkAssignable _).bind fun _ _ => (resolveTargets_begins ts n).map fun _ _ => trivial

/-- An expression that may be missing. -/
theorem resolveOption_begins : ∀ (e : Option RawExpr) (n : ℕ), BeginsFrom n (resolveOption e)
  | none, _ => begins_pure trivial
  | some e, n => (resolveExpr_begins e n).map fun _ _ => trivial

/-- The arms of an `if`. -/
theorem resolveArms_begins : ∀ (arms : List RawArm) (n : ℕ),
    Begins n (fun arms => ∀ s ∈ walkArms arms, ∀ b ∈ boundFuncs s, n ≤ b.2) (resolveArms arms)
  | [], _ => begins_pure fun s hs => by simp [walkArms] at hs
  | .mk cond body :: arms, n => (resolveExpr_begins cond n).bind fun _ _ =>
      begins_scope (begins_block (resolveStmts_begins false body n)) fun mark _ hbody => by
        have hrewind : BeginsFrom n (scopeRewind mark) :=
          begins_update fun _ => rfl
        exact hrewind.bind fun _ _ => (resolveArms_begins arms n).map fun _ harms s hs => by
          rw [walkArms, List.mem_append] at hs
          exact hs.elim (hbody s) (harms s)

end

/-- In an accepted program every body binds only functions behind its own. -/
theorem resolve_funcOrder {chunk : List RawStmt} {pr : ParseResult} {ib : Bool} (h : resolve chunk = .ok (pr, ib)) :
    FuncOrder pr.funcs := by
  obtain ⟨⟨body, p⟩, hbody, h⟩ := except_bind_ok h
  cases h
  have horder : FuncOrder Parser.init.funcs := fun k lf hk => by simp [Parser.init] at hk
  exact (begins_block (resolveStmts_begins false chunk 0) _ _ _ (Nat.zero_le _) horder hbody).2.1

end Lua2wasm.Analysis
