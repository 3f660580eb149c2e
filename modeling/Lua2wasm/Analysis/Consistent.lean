import Lua2wasm.Analysis.Settles

/-!
# What inference results in

The last round of inference finds every argument of a direct call to have the type of its parameter and every return
type to be that of what the function returns (`round_stable`). `finalize` then forgets what is known of functions that
no direct call goes to. The types in a body depend on the signatures of the functions that it calls directly, and on no
others (the `_congr` lemmas), so that what the last round has found holds of the signatures that the code generator sees
(`Consistent`).
-/

namespace Lua2wasm.Analysis

open Rounds

variable {pr : ParseResult} {boxes : Boxes} {s : Signatures} {c : CG} {b : Body} {body : Block} {e : Expr} {ty : SlotTy}
  {sigs : List FuncSig} {paramSeed : List NumTy} {k : ℕ}

/-! ## Calls within calls -/

mutual

/-- The calls in an argument of a call in an expression are calls in the expression. -/
theorem callsIn_arg : ∀ (e : Expr) {call : Expr × List Expr}, call ∈ callsIn e → ∀ a ∈ call.2, ∀ x ∈ callsIn a, x ∈ callsIn e
  | .call callee args _, call, hcall, a, ha, x, hx => by
    rw [callsIn, List.mem_append, List.mem_append, List.mem_singleton] at hcall ⊢
    rcases hcall with (hcall | hcall) | rfl
    · exact Or.inl (Or.inl (callsIn_arg callee hcall a ha x hx))
    · exact Or.inl (Or.inr (callsInList_arg args hcall a ha x hx))
    · exact Or.inl (Or.inr (callsInList_of_mem ha hx))
  | .methodCall recv _ args _, call, hcall, a, ha, x, hx => by
    rw [callsIn, List.mem_append] at hcall ⊢
    exact hcall.imp (fun h => callsIn_arg recv h a ha x hx) fun h => callsInList_arg args h a ha x hx
  | .binop _ lhs rhs _, call, hcall, a, ha, x, hx => by
    rw [callsIn, List.mem_append] at hcall ⊢
    exact hcall.imp (fun h => callsIn_arg lhs h a ha x hx) fun h => callsIn_arg rhs h a ha x hx
  | .unop _ operand, call, hcall, a, ha, x, hx => by
    rw [callsIn] at hcall ⊢
    exact callsIn_arg operand hcall a ha x hx
  | .index table key, call, hcall, a, ha, x, hx => by
    rw [callsIn, List.mem_append] at hcall ⊢
    exact hcall.imp (fun h => callsIn_arg table h a ha x hx) fun h => callsIn_arg key h a ha x hx
  | .table entries, call, hcall, a, ha, x, hx => by
    rw [callsIn] at hcall ⊢
    exact callsInEntries_arg entries hcall a ha x hx
  | .nil, _, hcall, _, _, _, _ | .true, _, hcall, _, _, _, _ | .false, _, hcall, _, _, _, _
  | .int _, _, hcall, _, _, _, _ | .float _, _, hcall, _, _, _, _ | .string _, _, hcall, _, _, _, _
  | .vararg _ _ _, _, hcall, _, _, _, _ | .function _, _, hcall, _, _, _, _
  | .var _ _ _ _, _, hcall, _, _, _, _ => by cases hcall

theorem callsInList_arg : ∀ (es : List Expr) {call : Expr × List Expr}, call ∈ callsInList es →
    ∀ a ∈ call.2, ∀ x ∈ callsIn a, x ∈ callsInList es
  | [], _, hcall, _, _, _, _ => by cases hcall
  | e :: es, call, hcall, a, ha, x, hx => by
    rw [callsInList, List.mem_append] at hcall ⊢
    exact hcall.imp (fun h => callsIn_arg e h a ha x hx) fun h => callsInList_arg es h a ha x hx

theorem callsInEntries_arg : ∀ (es : List TableEntry) {call : Expr × List Expr}, call ∈ callsInEntries es →
    ∀ a ∈ call.2, ∀ x ∈ callsIn a, x ∈ callsInEntries es
  | [], _, hcall, _, _, _, _ => by cases hcall
  | .positional v :: es, call, hcall, a, ha, x, hx => by
    rw [callsInEntries, List.mem_append] at hcall ⊢
    exact hcall.imp (fun h => callsIn_arg v h a ha x hx) fun h => callsInEntries_arg es h a ha x hx
  | .keyExpr k v :: es, call, hcall, a, ha, x, hx => by
    rw [callsInEntries, List.mem_append, List.mem_append] at hcall ⊢
    rcases hcall with (hcall | hcall) | hcall
    · exact Or.inl (Or.inl (callsIn_arg k hcall a ha x hx))
    · exact Or.inl (Or.inr (callsIn_arg v hcall a ha x hx))
    · exact Or.inr (callsInEntries_arg es hcall a ha x hx)

end

/-! ## What types depend on -/

/-- Other signatures are the same for the targets of the calls. -/
def SameTargets (c : CG) (sigs : List FuncSig) (calls : List (Expr × List Expr)) : Prop :=
  ∀ call ∈ calls, targetSig { c with sigs } call.1 call.2 = targetSig c call.1 call.2

/-- The types of an expression follow the signatures of its direct calls. -/
theorem exprTy_congr (h : SameTargets c sigs (callsIn e)) :
    exprIsInt { c with sigs } e = exprIsInt c e ∧ exprIsFloat { c with sigs } e = exprIsFloat c e := by
  induction e using operand_induction with
  | h e ih =>
    have hop : ∀ x ∈ operands e, exprIsInt { c with sigs } x = exprIsInt c x ∧
        exprIsFloat { c with sigs } x = exprIsFloat c x :=
      fun x hx => ih x hx fun call hcall => h call (callsIn_operand hx hcall)
    have hnum : ∀ x ∈ operands e, isNum { c with sigs } x = isNum c x := fun x hx => by
      rw [isNum, isNum, (hop x hx).1, (hop x hx).2]
    cases e with
    | binop op lhs rhs paren =>
      rw [isInt_binop, isInt_binop, isFloat_binop, isFloat_binop]
      obtain ⟨hl, hl'⟩ := hop lhs (by simp [operands])
      obtain ⟨hr, hr'⟩ := hop rhs (by simp [operands])
      rw [hl, hl', hr, hr', hnum lhs (by simp [operands]), hnum rhs (by simp [operands])]
      exact ⟨rfl, rfl⟩
    | unop op operand =>
      obtain ⟨ho, ho'⟩ := hop operand (by simp [operands])
      rw [exprIsInt, exprIsFloat, ho, ho', exprIsInt, exprIsFloat]
      exact ⟨rfl, rfl⟩
    | call callee args paren =>
      have htarget : targetSig { c with sigs } callee args = targetSig c callee args := h (callee, args) (by simp [callsIn])
      have hfits : ∀ ty, ∀ a ∈ args, Fits { c with sigs } ty a ↔ Fits c ty a := by
        intro ty a ha
        rcases ty with _ | _ | _ | _
        · exact Iff.rfl
        · rw [Fits, Fits, (hop a ha).1]
        · rw [Fits, Fits, hnum a ha]
        · exact Iff.rfl
      have hargs : ∀ sg : FuncSig, (∀ x ∈ sg.paramTy.zip args, Fits { c with sigs } x.1 x.2) ↔
          ∀ x ∈ sg.paramTy.zip args, Fits c x.1 x.2 := fun sg =>
        forall₂_congr fun x hx => hfits x.1 x.2 (List.of_mem_zip hx).2
      constructor
      · rw [Bool.eq_iff_iff, isInt_call, isInt_call, htarget]
        simp only [hargs]
      · rw [Bool.eq_iff_iff, isFloat_call, isFloat_call, htarget]
        simp only [hargs]
    | _ => exact ⟨rfl, rfl⟩

theorem exprNumTy_congr (h : SameTargets c sigs (callsIn e)) : exprNumTy { c with sigs } e = exprNumTy c e := by
  unfold exprNumTy
  rw [(exprTy_congr h).1, (exprTy_congr h).2]

/-- A store keeps its slot's type under the one signatures as under the others. -/
theorem keepsTy_congr {st : ℕ × Store} (hst : st ∈ storesOf body) (h : SameTargets c sigs (callsOf body)) (out : List Bool) :
    keepsTy ({ c with sigs }.withSlots out ty) ty st.2 = keepsTy (c.withSlots out ty) ty st.2 := by
  have hexpr : ∀ e ∈ storeExprs st.2,
      exprHasTy ({ c with sigs }.withSlots out ty) e ty = exprHasTy (c.withSlots out ty) e ty := by
    intro e he
    have hsame : SameTargets (c.withSlots out ty) sigs (callsIn e) := fun call hcall => by
      cases ty <;> exact h call (callsOf_of_store hst he hcall)
    have htys := exprTy_congr hsame
    cases ty with
    | int => exact htys.1
    | float => exact htys.2
  rw [Bool.eq_iff_iff]
  exact ⟨keepsTy_mono fun e he => (hexpr e he).symm ▸ id, keepsTy_mono fun e he => (hexpr e he) ▸ id⟩

/-- So the loops that type the slots of a body come to the same. -/
theorem killLoop_congr (h : SameTargets c sigs (callsOf body)) (init : List Bool) :
    killLoop { c with sigs } ty body init = killLoop c ty body init := by
  have hstores : ∀ stores : List (ℕ × Store), (∀ st ∈ stores, st ∈ storesOf body) → ∀ p,
      stores.foldl (killStore { c with sigs } ty) p = stores.foldl (killStore c ty) p := by
    intro stores
    induction stores with
    | nil => exact fun _ _ => rfl
    | cons st stores ih =>
      intro hmem p
      have hfirst : killStore { c with sigs } ty p st = killStore c ty p st := by
        unfold killStore
        rw [keepsTy_congr (hmem st List.mem_cons_self) h]
      rw [List.foldl_cons, List.foldl_cons, hfirst]
      exact ih (fun st hst => hmem st (List.mem_cons_of_mem _ hst)) _
  have hpass : killPass { c with sigs } ty body = killPass c ty body :=
    funext fun out => hstores _ (fun _ => id) (out, false)
  unfold killLoop
  rw [hpass]

/-- The typed slots of a body are the same. -/
theorem typedSlots_congr (h : SameTargets c sigs (callsOf b.block)) :
    typedSlots { c with sigs } b paramSeed = { typedSlots c b paramSeed with sigs } := by
  have hints : typedInts { c with sigs } b paramSeed = { typedInts c b paramSeed with sigs } := by
    unfold typedInts computeIntSlots
    rw [killLoop_congr h]
  have hfloats : SameTargets (typedInts c b paramSeed) sigs (callsOf b.block) := h
  unfold typedSlots computeFloatSlots
  rw [hints, killLoop_congr hfloats]

/-- The arguments of a call of the body are typed the same. -/
theorem argTy_congr (h : SameTargets c sigs (callsOf body)) {call : Expr × List Expr} (hcall : call ∈ callsOf body)
    {a : Expr} (ha : a ∈ call.2) : exprNumTy { c with sigs } a = exprNumTy c a := by
  obtain ⟨st, hst, hcall⟩ := List.mem_flatMap.mp hcall
  obtain ⟨e, he, hcall⟩ := List.mem_flatMap.mp hcall
  exact exprNumTy_congr fun x hx => h x (callsOf_of_own hst he (callsIn_arg e hcall a ha x hx))

/-- A body that is quiet under the one signatures is quiet under the others. -/
theorem Quiet.congr (h : SameTargets c sigs (callsOf body)) (hquiet : Quiet c body) : Quiet { c with sigs } body := by
  intro call hcall sg hsg x hx
  rw [h call hcall] at hsg
  rw [argTy_congr h hcall (List.of_mem_zip hx).2]
  exact hquiet call hcall sg hsg x hx

theorem computeRetTy_congr (h : SameTargets c sigs (callsOf body)) :
    computeRetTy { c with sigs } body = computeRetTy c body := by
  have hreturn : ∀ st ∈ walkStmts body, returnTy { c with sigs } st = returnTy c st := by
    intro st hst
    unfold returnTy
    split
    · next e =>
      have he : SameTargets c sigs (callsIn e) := fun call hcall =>
        h call (callsOf_of_own hst (by simp [ownExprs]) hcall)
      rw [exprNumTy_congr he]
    · rfl
    · rfl
  unfold computeRetTy
  rw [List.filterMap_congr hreturn]

/-! ## The last round -/

/-- A body agrees with the signatures: the arguments of its direct calls have the types of the parameters, and it
returns what its signature says. -/
def Agrees (pr : ParseResult) (boxes : Boxes) (sigs : List FuncSig) (b : Body) : Prop :=
  Quiet (bodyContext pr boxes sigs b (seedOf sigs b)) b.block ∧ ∀ f sg, b.func = some f → sigs[f]? = some sg →
    sg.retTy = computeRetTy (bodyContext pr boxes sigs b (seedOf sigs b)) b.block

/-- Where a return type is not noted as new, it is what the function returns. -/
theorem inferReturn_quiet {f : ℕ} {p : InferPass} (hquiet : (inferReturn c f body p).2 = false) :
    p.2 = false ∧ (inferReturn c f body p).1 = p.1 ∧
      ∀ sg, p.1.sigs[f]? = some sg → sg.retTy = computeRetTy { c with sigs := p.1.sigs } body := by
  unfold inferReturn at hquiet ⊢
  rcases hsg : p.1.sigs[f]? with _ | sg
  · rw [hsg] at hquiet
    exact ⟨hquiet, rfl, fun sg h => by cases h⟩
  · rw [hsg] at hquiet
    dsimp only at hquiet ⊢
    by_cases hret : computeRetTy { c with sigs := p.1.sigs } body = sg.retTy
    · rw [if_pos hret] at hquiet ⊢
      exact ⟨hquiet, rfl, fun sg' h => Option.some.inj h ▸ hret.symm⟩
    · rw [if_neg hret] at hquiet
      cases hquiet

/-- A step that changes nothing finds its body to agree. -/
theorem inferStepBody_quiet {p : InferPass} (hquiet : (inferStepBody pr boxes p b).2 = false) :
    p.2 = false ∧ (inferStepBody pr boxes p b).1.sigs = p.1.sigs ∧ Agrees pr boxes p.1.sigs b := by
  have hsites := inferSites_narrows (bodyContext pr boxes p.1.sigs b (seedOf p.1.sigs b)) b.block p
  unfold Agrees
  unfold inferStepBody at hquiet ⊢
  dsimp only at hquiet hsites ⊢
  have hctx : { bodyContext pr boxes p.1.sigs b (seedOf p.1.sigs b) with sigs := p.1.sigs } =
      bodyContext pr boxes p.1.sigs b (seedOf p.1.sigs b) := rfl
  generalize bodyContext pr boxes p.1.sigs b (seedOf p.1.sigs b) = c at *
  generalize (callsOf b.block).foldl (inferSite c) p = p₁ at *
  rcases hfunc : b.func with _ | f
  · rw [hfunc] at hquiet
    dsimp only at hquiet ⊢
    rcases hsites with ⟨hsigs, hsame, hconf⟩ | ⟨hnoted, -⟩
    · exact ⟨hsame ▸ hquiet, hsigs, hctx ▸ hconf, fun f sg hf => by cases hf⟩
    · rw [hnoted] at hquiet
      cases hquiet
  · rw [hfunc] at hquiet
    dsimp only at hquiet ⊢
    obtain ⟨hnone, hsame', hret⟩ := inferReturn_quiet hquiet
    rcases hsites with ⟨hsigs, hsame, hconf⟩ | ⟨hnoted, -⟩
    · refine ⟨hsame ▸ hnone, (congrArg Signatures.sigs hsame').trans hsigs, hctx ▸ hconf, fun g sg hg hsg => ?_⟩
      obtain rfl := Option.some.inj hg
      rw [hret sg (hsigs ▸ hsg), hsigs, hctx]
    · rw [hnoted] at hnone
      cases hnone

/-- A round that changes nothing finds every body to agree with the signatures. -/
theorem inferRound_quiet (hquiet : (inferRound pr boxes s).2 = false) :
    (inferRound pr boxes s).1.sigs = s.sigs ∧ ∀ b ∈ inferOrder pr, Agrees pr boxes s.sigs b := by
  have hall : ∀ bs : List Body, (bs.foldl (inferStepBody pr boxes) (s, false)).2 = false →
      (bs.foldl (inferStepBody pr boxes) (s, false)).1.sigs = s.sigs ∧ ∀ b ∈ bs, Agrees pr boxes s.sigs b := by
    intro bs
    induction bs using List.reverseRecOn with
    | nil => exact fun _ => ⟨rfl, fun b hb => absurd hb List.not_mem_nil⟩
    | append_singleton bs b ih =>
      intro hflag
      rw [List.foldl_append] at hflag ⊢
      obtain ⟨hbefore, hsame, hagrees⟩ := inferStepBody_quiet hflag
      obtain ⟨hsigs, hbs⟩ := ih hbefore
      rw [hsigs] at hagrees
      refine ⟨hsame.trans hsigs, fun b' hb' => ?_⟩
      rcases List.mem_append.mp hb' with hb' | hb'
      · exact hbs b' hb'
      · exact List.mem_singleton.mp hb' ▸ hagrees
  exact hall (inferOrder pr) hquiet

/-! ## Functions with direct calls -/

/-- Some direct call of a body goes to a function. -/
def CallsFunc (pr : ParseResult) (b : Body) (k : ℕ) : Prop :=
  ∃ call ∈ callsOf b.block, directCallTarget (baseContext pr ⟨[], []⟩ [] b.func) call.1 call.2 = some k

/-- Some direct call of the program goes to a function. -/
def IsTarget (pr : ParseResult) (k : ℕ) : Prop := ∃ b ∈ inferOrder pr, CallsFunc pr b k

/-- The signatures have the form of the functions, and the functions noted to have direct calls have them. -/
structure Formed (pr : ParseResult) (s : Signatures) : Prop where
  params : s.sigs.map (·.paramTy.length) = pr.funcs.map (·.nParams)
  sites : s.hasSite.length = pr.funcs.length
  target : ∀ k, s.hasSite[k]? = some true → IsTarget pr k

theorem initSignatures_formed : Formed pr (initSignatures pr) where
  params := by simp [initSignatures]
  sites := by simp [initSignatures]
  target k h := by
    obtain ⟨fn, -, hfn⟩ := Option.map_eq_some_iff.mp (List.getElem?_map ▸ h)
    cases hfn

theorem map_set_same {l : List FuncSig} {sg sg' : FuncSig} (h : l[k]? = some sg)
    (hlen : sg'.paramTy.length = sg.paramTy.length) :
    (l.set k sg').map (·.paramTy.length) = l.map (·.paramTy.length) := by
  rw [List.map_set, hlen]
  obtain ⟨hlt, rfl⟩ := List.getElem?_eq_some_iff.mp h
  refine List.ext_getElem (by simp) fun i hi hi' => ?_
  rw [List.getElem_set]
  split
  · next hki => subst hki; simp
  · rfl

/-- An argument leaves the form, and what is noted of calls. -/
theorem inferArg_form (i : ℕ) (a : Expr) (p : InferPass) :
    (inferArg c k i p a).1.sigs.map (·.paramTy.length) = p.1.sigs.map (·.paramTy.length) ∧
      (inferArg c k i p a).1.hasSite = p.1.hasSite := by
  unfold inferArg
  split
  · exact ⟨rfl, rfl⟩
  · next sg hsg =>
    split
    · exact ⟨rfl, rfl⟩
    · split
      · exact ⟨rfl, rfl⟩
      · dsimp only
        split
        · exact ⟨rfl, rfl⟩
        · exact ⟨map_set_same hsg (by simp), rfl⟩

/-- A call leaves the form and notes its target. -/
theorem inferSite_form (call : Expr × List Expr) (p : InferPass) :
    (inferSite c p call).1.sigs.map (·.paramTy.length) = p.1.sigs.map (·.paramTy.length) ∧
      (inferSite c p call).1.hasSite = (directCallTarget c call.1 call.2).elim p.1.hasSite (p.1.hasSite.set · true) := by
  unfold inferSite
  rcases directCallTarget c call.1 call.2 with _ | k
  · exact ⟨rfl, rfl⟩
  · refine List.foldlRecOn (motive := fun q : InferPass => q.1.sigs.map (·.paramTy.length) =
      p.1.sigs.map (·.paramTy.length) ∧ q.1.hasSite = p.1.hasSite.set k true) _ _ ⟨rfl, rfl⟩ ?_
    rintro q ⟨hform, hsite⟩ ⟨a, i⟩ -
    obtain ⟨hform', hsite'⟩ := @inferArg_form c k i a q
    exact ⟨hform'.trans hform, hsite'.trans hsite⟩

/-- The calls of a body leave the form and note their targets, and only those. -/
theorem inferSites_form (calls : List (Expr × List Expr)) (p : InferPass) :
    (calls.foldl (inferSite c) p).1.sigs.map (·.paramTy.length) = p.1.sigs.map (·.paramTy.length) ∧
      (calls.foldl (inferSite c) p).1.hasSite.length = p.1.hasSite.length ∧
      ∀ k, (calls.foldl (inferSite c) p).1.hasSite[k]? = some true ↔ p.1.hasSite[k]? = some true ∨
        k < p.1.hasSite.length ∧ ∃ call ∈ calls, directCallTarget c call.1 call.2 = some k := by
  induction calls generalizing p with
  | nil => exact ⟨rfl, rfl, fun k => by simp⟩
  | cons call calls ih =>
    rw [List.foldl_cons]
    obtain ⟨hform, hlen, hsite⟩ := ih (inferSite c p call)
    obtain ⟨hform₁, hsite₁⟩ := @inferSite_form c call p
    have hlen₁ : (inferSite c p call).1.hasSite.length = p.1.hasSite.length := by
      rw [hsite₁]
      rcases directCallTarget c call.1 call.2 with _ | k
      · rfl
      · exact List.length_set
    refine ⟨hform.trans hform₁, hlen.trans hlen₁, fun k => ?_⟩
    rw [hsite, hlen₁, hsite₁, List.exists_mem_cons_iff]
    rcases directCallTarget c call.1 call.2 with _ | j
    · simp
    · by_cases hjk : j = k
      · subst hjk
        by_cases hlt : j < p.1.hasSite.length
        · simp [hlt]
        · simp [hlt]
      · simp [hjk, List.getElem?_set_ne hjk]

/-- A step keeps the form, and notes the targets of the calls of its body. -/
theorem inferStepBody_form {p : InferPass} (hp : Formed pr p.1) (hb : b ∈ inferOrder pr) :
    Formed pr (inferStepBody pr boxes p b).1 ∧
      ∀ k, (inferStepBody pr boxes p b).1.hasSite[k]? = some true ↔ p.1.hasSite[k]? = some true ∨
        k < pr.funcs.length ∧ CallsFunc pr b k := by
  obtain ⟨hform, hlen, hsite⟩ := @inferSites_form (bodyContext pr boxes p.1.sigs b (seedOf p.1.sigs b)) (callsOf b.block) p
  -- the target of a call does not depend on the signatures
  have hcalls : ∀ k, (∃ call ∈ callsOf b.block, directCallTarget
      (bodyContext pr boxes p.1.sigs b (seedOf p.1.sigs b)) call.1 call.2 = some k) ↔ CallsFunc pr b k := fun k => Iff.rfl
  simp only [hcalls] at hsite
  have hreturn : ∀ f (q : InferPass),
      (inferReturn (bodyContext pr boxes p.1.sigs b (seedOf p.1.sigs b)) f b.block q).1.sigs.map (·.paramTy.length) =
        q.1.sigs.map (·.paramTy.length) ∧
      (inferReturn (bodyContext pr boxes p.1.sigs b (seedOf p.1.sigs b)) f b.block q).1.hasSite = q.1.hasSite := by
    intro f q
    unfold inferReturn
    split
    · exact ⟨rfl, rfl⟩
    · next sg hsg =>
      dsimp only
      split
      · exact ⟨rfl, rfl⟩
      · exact ⟨map_set_same hsg rfl, rfl⟩
  unfold inferStepBody
  dsimp only
  generalize (callsOf b.block).foldl (inferSite (bodyContext pr boxes p.1.sigs b (seedOf p.1.sigs b))) p = p₁ at *
  rw [hp.sites] at hlen hsite
  have hformed : Formed pr p₁.1 := by
    refine ⟨hform.trans hp.params, hlen, fun k hk => ?_⟩
    rcases (hsite k).mp hk with hk | ⟨-, hcalls⟩
    · exact hp.target k hk
    · exact ⟨b, hb, hcalls⟩
  rcases b.func with _ | f
  · exact ⟨hformed, hsite⟩
  · obtain ⟨hform', hsite'⟩ := hreturn f p₁
    rw [hsite']
    exact ⟨⟨hform'.trans hformed.params, hsite' ▸ hformed.sites, fun k hk => hformed.target k (hsite' ▸ hk)⟩, hsite⟩

/-- A round keeps the form, and notes all functions that direct calls go to. -/
theorem inferRound_form (hs : Formed pr s) :
    Formed pr (inferRound pr boxes s).1 ∧
      ∀ k, k < pr.funcs.length → IsTarget pr k → (inferRound pr boxes s).1.hasSite[k]? = some true := by
  have hall : ∀ bs : List Body, (∀ b ∈ bs, b ∈ inferOrder pr) →
      Formed pr (bs.foldl (inferStepBody pr boxes) (s, false)).1 ∧ ∀ k, k < pr.funcs.length →
        (∃ b ∈ bs, CallsFunc pr b k) →
        (bs.foldl (inferStepBody pr boxes) (s, false)).1.hasSite[k]? = some true := by
    intro bs
    induction bs using List.reverseRecOn with
    | nil => exact fun _ => ⟨hs, fun k _ ⟨b, hb, _⟩ => absurd hb List.not_mem_nil⟩
    | append_singleton bs b ih =>
      intro hmem
      obtain ⟨hformed, htargets⟩ := ih fun b' hb' => hmem b' (List.mem_append_left _ hb')
      rw [List.foldl_append]
      obtain ⟨hformed', hsite⟩ := @inferStepBody_form pr boxes b _ hformed (hmem b (by simp))
      refine ⟨hformed', fun k hk ⟨b', hb', htarget⟩ => (hsite k).mpr ?_⟩
      rcases List.mem_append.mp hb' with hb' | hb'
      · exact Or.inl (htargets k hk ⟨b', hb', htarget⟩)
      · exact Or.inr ⟨hk, List.mem_singleton.mp hb' ▸ htarget⟩
  obtain ⟨hformed, htargets⟩ := hall (inferOrder pr) fun _ => id
  exact ⟨hformed, fun k hk htarget => htargets k hk htarget⟩

/-! ## The result -/

/-- Signatures agree with the program: the functions that direct calls go to are known, of the others nothing is
assumed, and the bodies that are entered with typed parameters, and that of the main chunk, agree. -/
structure Consistent (pr : ParseResult) (boxes : Boxes) (s : Signatures) : Prop where
  site : ∀ k : ℕ, s.hasSite[k]? = some true ↔ k < pr.funcs.length ∧ IsTarget pr k
  other : ∀ (k : ℕ) (sg : FuncSig), s.sigs[k]? = some sg → s.hasSite[k]? ≠ some true →
    (∀ ty ∈ sg.paramTy, ty = .any) ∧ sg.retTy = .any
  agrees : ∀ b ∈ inferOrder pr, (∀ f, b.func = some f → s.hasSite[f]? = some true) → Agrees pr boxes s.sigs b
  evidence : ∀ sg ∈ s.sigs, .unset ∉ sg.paramTy ∧ sg.retTy ≠ .unset

/-- A parameter of a function that a direct call goes to has evidence. -/
theorem param_ne_unset (hs : Formed pr s) (hagrees : ∀ b ∈ inferOrder pr, Agrees pr boxes s.sigs b) {sg : FuncSig}
    (hsg : s.sigs[k]? = some sg) (htarget : IsTarget pr k) : ∀ ty ∈ sg.paramTy, ty ≠ .unset := by
  obtain ⟨b, hb, call, hcall, hk⟩ := htarget
  have hconf := (hagrees b hb).1 call hcall sg
  -- the call has an argument for each parameter
  have hlen : call.2.length = sg.paramTy.length := by
    obtain ⟨-, hfits⟩ := Option.filter_eq_some_iff.mp hk
    rcases hfn : pr.funcs[k]? with _ | fn
    · simp [baseContext, hfn] at hfits
    · have hargs : call.2.length = fn.nParams := by
        simp only [baseContext, hfn, Bool.and_eq_true, beq_iff_eq] at hfits
        exact hfits.1.2
      have hparam := congrArg (·[k]?) hs.params
      simp only [List.getElem?_map, hsg, hfn, Option.map_some, Option.some.injEq] at hparam
      exact hargs.trans hparam.symm
  have hsig : targetSig (bodyContext pr boxes s.sigs b (seedOf s.sigs b)) call.1 call.2 = some sg := by
    have htarget : directCallTarget (bodyContext pr boxes s.sigs b (seedOf s.sigs b)) call.1 call.2 = some k := hk
    rw [targetSig, htarget]
    exact hsg
  intro ty hty
  obtain ⟨i, hi⟩ := List.mem_iff_getElem?.mp hty
  obtain ⟨a, ha⟩ : ∃ a, call.2[i]? = some a :=
    ⟨_, List.getElem?_eq_getElem (hlen.symm ▸ (List.getElem?_eq_some_iff.mp hi).1)⟩
  have hzip : (ty, a) ∈ sg.paramTy.zip call.2 :=
    List.mem_iff_getElem?.mpr ⟨i, List.getElem?_zip_eq_some.mpr ⟨hi, ha⟩⟩
  rcases hconf hsig _ hzip with hany | hnum
  · exact fun hunset => absurd (hany.symm.trans hunset) (by decide)
  · exact fun hunset => exprNumTy_ne_unset (hnum.symm.trans hunset)

/-- `finalize`, on the signature of a function. -/
theorem finalize_getElem? (s : Signatures) (k : ℕ) : (finalize s).sigs[k]? = (s.sigs[k]?).bind fun sg =>
    (s.hasSite[k]?).map fun site =>
      if site then { sg with paramTy := sg.paramTy.map fun ty => if ty = .unset then .any else ty }
      else { paramTy := sg.paramTy.map fun _ => .any, retTy := .any } := by
  unfold finalize
  rw [List.getElem?_map, List.zip, List.getElem?_zipWith]
  rcases s.sigs[k]? with _ | sg <;> rcases s.hasSite[k]? with _ | site <;> rfl

/-- What inference results in is consistent. -/
theorem finalize_consistent (hs : Formed pr s)
    (hsites : ∀ k, k < pr.funcs.length → IsTarget pr k → s.hasSite[k]? = some true)
    (hagrees : ∀ b ∈ inferOrder pr, Agrees pr boxes s.sigs b) : Consistent pr boxes (finalize s) := by
  have hlen : s.sigs.length = pr.funcs.length := by simpa using congrArg List.length hs.params
  -- the signature of a function that a direct call goes to stays
  have hkept : ∀ k : ℕ, s.hasSite[k]? = some true → (finalize s).sigs[k]? = s.sigs[k]? := by
    intro k hk
    rw [finalize_getElem?, hk]
    rcases hsg : s.sigs[k]? with _ | sg
    · rfl
    · have hset := param_ne_unset hs hagrees hsg (hs.target k hk)
      have hmap : sg.paramTy.map (fun ty => if ty = .unset then .any else ty) = sg.paramTy :=
        (List.map_congr_left fun ty hty => if_neg (hset ty hty)).trans (List.map_id' _)
      simp [hmap]
  have hother : ∀ (k : ℕ) (sg : FuncSig), (finalize s).sigs[k]? = some sg → s.hasSite[k]? ≠ some true →
      (∀ ty ∈ sg.paramTy, ty = .any) ∧ sg.retTy = .any := by
    intro k sg hsg hk
    rw [finalize_getElem?] at hsg
    obtain ⟨sg₀, -, hsg⟩ := Option.bind_eq_some_iff.mp hsg
    obtain ⟨site, hsite, hsg⟩ := Option.map_eq_some_iff.mp hsg
    have hsite : site = false := Bool.eq_false_iff.mpr fun h => hk (h ▸ hsite)
    subst hsite
    obtain rfl := hsg
    exact ⟨fun ty hty => (List.mem_map.mp hty).elim fun _ h => h.2.symm, rfl⟩
  -- so the types in all bodies but those entered with boxed parameters only do too
  have hsame : ∀ b ∈ inferOrder pr, SameTargets (bodyContext pr boxes s.sigs b (seedOf s.sigs b)) (finalize s).sigs
      (callsOf b.block) := by
    intro b hb call hcall
    rcases htarget : directCallTarget (bodyContext pr boxes s.sigs b (seedOf s.sigs b)) call.1 call.2 with _ | k
    · have htarget' : directCallTarget { bodyContext pr boxes s.sigs b (seedOf s.sigs b) with sigs := (finalize s).sigs }
          call.1 call.2 = none := htarget
      rw [targetSig, targetSig, htarget, htarget']
      rfl
    · have htarget' : directCallTarget { bodyContext pr boxes s.sigs b (seedOf s.sigs b) with sigs := (finalize s).sigs }
          call.1 call.2 = some k := htarget
      rw [targetSig, targetSig, htarget, htarget']
      show (finalize s).sigs[k]? = s.sigs[k]?
      by_cases hlt : k < pr.funcs.length
      · exact hkept k (hsites k hlt ⟨b, hb, call, hcall, htarget⟩)
      · rw [finalize_getElem?, List.getElem?_eq_none (by omega : s.sigs.length ≤ k)]
        rfl
  have hagrees' : ∀ b ∈ inferOrder pr, (∀ f, b.func = some f → s.hasSite[f]? = some true) →
      Agrees pr boxes (finalize s).sigs b := by
    intro b hb hsite
    have hseed : seedOf (finalize s).sigs b = seedOf s.sigs b := by
      unfold seedOf
      rcases hfunc : b.func with _ | f
      · rfl
      · rw [Option.bind_some, Option.bind_some, hkept f (hsite f hfunc)]
    have hctx : bodyContext pr boxes (finalize s).sigs b (seedOf s.sigs b) =
        { bodyContext pr boxes s.sigs b (seedOf s.sigs b) with sigs := (finalize s).sigs } :=
      typedSlots_congr (c := baseContext pr boxes s.sigs b.func) (hsame b hb)
    obtain ⟨hquiet, hret⟩ := hagrees b hb
    rw [Agrees, hseed, hctx]
    refine ⟨hquiet.congr (hsame b hb), fun f sg hf hsg => ?_⟩
    rw [computeRetTy_congr (hsame b hb)]
    exact hret f sg hf (hkept f (hsite f hf) ▸ hsg)
  refine ⟨fun k => ⟨fun hk => ?_, fun hk => hsites k hk.1 hk.2⟩, hother, hagrees', ?_⟩
  · exact ⟨hs.sites ▸ (List.getElem?_eq_some_iff.mp hk).1, hs.target k hk⟩
  · intro sg hmem
    obtain ⟨k, hk⟩ := List.mem_iff_getElem?.mp hmem
    by_cases hsite : s.hasSite[k]? = some true
    · have hsg := hkept k hsite ▸ hk
      obtain ⟨lf, hlf⟩ : ∃ lf, pr.funcs[k]? = some lf :=
        ⟨_, List.getElem?_eq_getElem (hlen ▸ (List.getElem?_eq_some_iff.mp hsg).1)⟩
      refine ⟨fun hunset => param_ne_unset hs hagrees hsg (hs.target k hsite) _ hunset rfl, ?_⟩
      have hret := (hagrees (funcBody lf k) (List.mem_of_getElem? (inferOrder_func hlf))).2 k sg rfl hsg
      rw [hret]
      exact computeRetTy_ne_unset
    · obtain ⟨hparams, hret⟩ := hother k sg hk hsite
      refine ⟨fun hunset => absurd (hparams _ hunset) (by decide), ?_⟩
      rw [hret]
      decide

theorem inferSignatures_consistent {n : ℕ} (h : inferSignatures pr boxes n = some s) : Consistent pr boxes s := by
  obtain ⟨s₁, hrun, rfl⟩ := Option.map_eq_some_iff.mp h
  obtain ⟨s₀, hs₀, hquiet, rfl⟩ :=
    untilQuiet_result (P := Formed pr) (fun s hs => (inferRound_form hs).1) initSignatures_formed hrun
  obtain ⟨hsigs, hagrees⟩ := inferRound_quiet hquiet
  obtain ⟨hformed, hsites⟩ := @inferRound_form pr boxes s₀ hs₀
  exact finalize_consistent hformed hsites (hsigs ▸ hagrees)

theorem iboxSettle_result {n : ℕ} {r : Boxes × Bool} (h : iboxSettle pr s n boxes = some r) :
    (iboxRound pr s r.1).2 = false ∧ (r.2 = false → r.1 = boxes) := by
  induction n generalizing boxes r with
  | zero => cases h
  | succ n ih =>
    rw [iboxSettle] at h
    split at h
    · obtain ⟨r', hr', rfl⟩ := Option.map_eq_some_iff.mp h
      exact ⟨(ih hr').1, fun hdropped => by cases hdropped⟩
    · next hquiet =>
      have hround := iboxRound_quiet (Bool.eq_false_iff.mpr hquiet)
      rw [hround] at h
      obtain rfl := Option.some.inj h
      exact ⟨congrArg Prod.snd hround, fun _ => rfl⟩

/-- The loop ends in boxes that settling leaves, and the signatures that inference makes with them. -/
theorem alternate_result {rounds n : ℕ} {r : Boxes × Signatures} (hs : inferSignatures pr boxes rounds = some s)
    (h : alternate pr rounds n boxes s = some r) :
    (iboxRound pr r.2 r.1).2 = false ∧ inferSignatures pr r.1 rounds = some r.2 := by
  induction n generalizing boxes s with
  | zero => cases h
  | succ n ih =>
    rw [alternate] at h
    obtain ⟨⟨boxes', dropped⟩, hsettle, h⟩ := Option.bind_eq_some_iff.mp h
    obtain ⟨hquiet, hsame⟩ := iboxSettle_result hsettle
    dsimp only at h
    split at h
    · obtain ⟨s', hs', h⟩ := Option.bind_eq_some_iff.mp h
      exact ih hs' h
    · next hdropped =>
      obtain rfl := Option.some.inj h
      obtain rfl := hsame (by simpa using hdropped)
      exact ⟨hquiet, hs⟩

/-- Whenever the analyses of `codegen_module` come to a result, its signatures agree with the program, and every
statement stores only integers in what has a box. -/
theorem analyses_consistent {rounds : ℕ} {r : Boxes × Signatures} (h : inferAndSettle pr rounds = some r) :
    Consistent pr r.1 r.2 ∧ ∀ b ∈ settleOrder pr, FuncKeeps pr r.2 r.1 b := by
  obtain ⟨s, hs, h⟩ := Option.bind_eq_some_iff.mp h
  have hresult : (iboxRound pr r.2 r.1).2 = false ∧ inferSignatures pr r.1 rounds = some r.2 := by
    split at h
    · exact alternate_result hs h
    · next hibox =>
      obtain rfl := Option.some.inj h
      have hempty := iboxInit_count (Bool.eq_false_iff.mpr hibox)
      refine ⟨Bool.eq_false_iff.mpr fun hchanged => ?_, hs⟩
      have hlt : (iboxRound pr s (iboxInit pr).1).1.count < (iboxInit pr).1.count := (settle_drops pr s).lt hchanged
      omega
  exact ⟨inferSignatures_consistent hresult.2, ((settle_drops pr r.2).quiet hresult.1).2⟩

/-- The program with two boxes, resolved. -/
def counterResult : ParseResult :=
  match resolve counter with
  | .ok (pr, _) => pr
  | .error _ => { mainBody := [], mainNLocals := 0, mainCaptured := [], funcs := [], globals := [] }

/-- The box of `n` stays and that of `m` is dropped, and the function takes an integer and returns one. -/
theorem analyses_consistent_counter :
    inferAndSettle counterResult 3 = some (⟨[true, false, false], [[false]]⟩, ⟨[⟨[.int], .int⟩], [true]⟩) ∧
      Consistent counterResult ⟨[true, false, false], [[false]]⟩ ⟨[⟨[.int], .int⟩], [true]⟩ ∧
      ∀ b ∈ settleOrder counterResult,
        FuncKeeps counterResult ⟨[⟨[.int], .int⟩], [true]⟩ ⟨[true, false, false], [[false]]⟩ b := by
  have hrun : inferAndSettle counterResult 3 =
      some (⟨[true, false, false], [[false]]⟩, ⟨[⟨[.int], .int⟩], [true]⟩) := by decide +kernel
  exact ⟨hrun, analyses_consistent hrun⟩

end Lua2wasm.Analysis
