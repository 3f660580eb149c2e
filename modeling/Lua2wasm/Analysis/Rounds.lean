import Lua2wasm.Analysis.Bodies

/-!
# What a round of inference does

Every step of a round of inference lets the parameters of the functions go down, from no evidence over a number type to
`any` (`paramHeight`), and a round in which no parameter does computes the return types again, each from the signatures
of the function itself and of those behind it as they were at the start of the round (`quiet_round`).
-/

namespace Lua2wasm.Analysis

open Rounds

variable {pr : ParseResult} {boxes : Boxes} {c : CG} {b : Body} {sigs : List FuncSig} {k : ℕ}

/-! ## Direct calls go forwards -/

/-- The functions of a slot map have indices from `n` on. -/
def Behind (n : ℕ) (m : List (Option ℕ)) : Prop := ∀ k, some k ∈ m → n ≤ k

theorem Behind.set {n : ℕ} {m : List (Option ℕ)} (h : Behind n m) {i : ℕ} {v : Option ℕ} (hv : ∀ k, v = some k → n ≤ k) :
    Behind n (m.set i v) := by
  intro k hk
  rcases List.mem_or_eq_of_mem_set hk with hk | hk
  · exact h k hk
  · exact hv k hk.symm

theorem noteTargets_slotFunc (targets : List AssignTarget) (a : BindAccum) :
    (targets.foldl noteTarget a).slotFunc = a.slotFunc := by
  induction targets generalizing a with
  | nil => rfl
  | cons t targets ih =>
    rw [List.foldl_cons, ih]
    unfold noteTarget
    split <;> rfl

/-- A body binds its slots to functions behind its own. -/
theorem bindBody_behind {n : ℕ} {body : Block} (h : StmtsFrom n body) (nLocals nUpvalues : ℕ) :
    Behind n (bindBody body nLocals nUpvalues).slotFunc := by
  have hvisit : ∀ a : BindAccum, Behind n a.slotFunc → ∀ s ∈ walkStmts body, Behind n (bindVisit a s).slotFunc := by
    intro a ha s hs
    unfold bindVisit
    split
    · rw [noteTargets_slotFunc]
      exact ha
    · refine List.foldlRecOn _ _ ha fun m hm b hb => hm.set fun k hk => ?_
      obtain rfl := Option.some.inj hk
      exact h s hs b hb
  intro k hk
  obtain ⟨⟨func, reassigned⟩, hmem, hfunc⟩ := List.mem_map.mp hk
  dsimp only at hfunc
  split at hfunc
  · cases hfunc
  · subst hfunc
    have hempty : Behind n (List.replicate nLocals none) := fun k hk => by simp at hk
    exact List.foldlRecOn (motive := fun a : BindAccum => Behind n a.slotFunc) _ _ hempty hvisit k
      (List.of_mem_zip hmem).1

theorem clear_behind {n f : ℕ} {binds : Bindings} (h : Behind n (binds.slotMap (some f))) (g : Option ℕ) (slot : ℕ) :
    Behind n ((binds.clear g slot).slotMap (some f)) := by
  rcases g with _ | g
  · exact h
  · have hrow : ∀ m, binds.bindSlot[f]? = some m → Behind n m := by
      intro m hm
      have hmap : binds.slotMap (some f) = m := by
        show binds.bindSlot.getD f [] = m
        rw [List.getD_eq_getElem?_getD, hm]
        rfl
      exact hmap ▸ h
    show Behind n ((binds.bindSlot.modify g (·.set slot none)).getD f [])
    rw [List.getD_eq_getElem?_getD, List.getElem?_modify]
    rcases hm : binds.bindSlot[f]? with _ | m
    · exact fun k hk => by simp at hk
    · have hm := hrow m hm
      show Behind n (if g = f then m.set slot none else m)
      by_cases hg : g = f
      · rw [if_pos hg]
        exact hm.set fun k hk => by cases hk
      · rw [if_neg hg]
        exact hm

/-- The slots of a function stand for functions behind it. -/
theorem computeFuncBindings_behind (horder : FuncOrder pr.funcs) (f : ℕ) :
    Behind (f + 1) ((computeFuncBindings pr).slotMap (some f)) := by
  unfold computeFuncBindings
  refine List.foldlRecOn (motive := fun binds : Bindings => Behind (f + 1) (binds.slotMap (some f))) _ _ ?_ ?_
  · show Behind (f + 1) (List.getD _ f [])
    rw [List.getD_eq_getElem?_getD, List.getElem?_map, List.getElem?_map]
    rcases hf : pr.funcs[f]? with _ | fn
    · exact fun k hk => by simp at hk
    · exact bindBody_behind (horder f fn hf) _ _
  · rintro binds h ⟨g, u⟩ -
    dsimp only
    split
    · exact clear_behind h _ _
    · exact h

/-- A direct call goes to the function itself or to one behind it. -/
theorem directCallTarget_order (horder : FuncOrder pr.funcs) {f : ℕ} (hbinds : c.binds = computeFuncBindings pr)
    (hcur : c.curFuncIdx = some f) {callee : Expr} {args : List Expr} (h : directCallTarget c callee args = some k) :
    f ≤ k := by
  have hfunc : calleeFunc c callee = some k := (Option.filter_eq_some_iff.mp h).1
  unfold calleeFunc at hfunc
  split at hfunc
  · next name idx ro =>
    have hmem : some k ∈ (computeFuncBindings pr).slotMap (some f) := by
      rw [hbinds, hcur, List.getD_eq_getElem?_getD] at hfunc
      rcases hi : ((computeFuncBindings pr).slotMap (some f))[idx]? with _ | v
      · rw [hi] at hfunc
        cases hfunc
      · rw [hi] at hfunc
        exact List.mem_of_getElem? (hi.trans (congrArg some hfunc))
    have := computeFuncBindings_behind horder f k hmem
    omega
  · have hself := (Option.filter_eq_some_iff.mp hfunc).2
    rw [hcur, decide_eq_true_eq] at hself
    exact (Option.some.inj hself).ge
  · cases hfunc

/-! ## Parameters only go down -/

/-- How far a type is above `any`. -/
def height : NumTy → ℕ
  | .unset => 2
  | .int | .float => 1
  | .any => 0

/-- How far the types of all parameters are above `any`. -/
def paramHeight (sigs : List FuncSig) : ℕ := (sigs.map fun sg => (sg.paramTy.map height).sum).sum

/-- Setting an entry of a list changes its sum by the difference. -/
theorem sum_set {l : List ℕ} {i y : ℕ} (h : l[i]? = some y) (x : ℕ) : (l.set i x).sum + y = l.sum + x := by
  induction l generalizing i with
  | nil => simp at h
  | cons z l ih =>
    rcases i with _ | i
    · obtain rfl := Option.some.inj h
      simp only [List.set_cons_zero, List.sum_cons]
      omega
    · have := ih h
      simp only [List.set_cons_succ, List.sum_cons]
      omega

theorem paramHeight_set {sg : FuncSig} (h : sigs[k]? = some sg) (sg' : FuncSig) :
    paramHeight (sigs.set k sg') + (sg.paramTy.map height).sum = paramHeight sigs + (sg'.paramTy.map height).sum := by
  unfold paramHeight
  rw [List.map_set]
  exact sum_set (by rw [List.getElem?_map, h]; rfl) _

/-- Meeting evidence into a type lowers it, or the evidence is of this type. -/
theorem numMeet_height {ty x : NumTy} (hty : ty ≠ .any) (hx : x ≠ .unset) :
    (numMeet ty x = ty ∧ ty = x) ∨ (numMeet ty x ≠ ty ∧ height (numMeet ty x) < height ty) := by
  rcases ty with _ | _ | _ | _ <;> rcases x with _ | _ | _ | _ <;> revert hty hx <;> decide

/-- An argument leaves the signatures, because it conforms, or lowers its parameter. -/
theorem inferArg_narrows (c : CG) (k i : ℕ) (a : Expr) :
    Narrows Signatures.sigs paramHeight (fun sigs => ∀ sg ty, sigs[k]? = some sg → sg.paramTy[i]? = some ty →
      ty = .any ∨ ty = exprNumTy { c with sigs } a) (inferArg c k i · a) := by
  intro p
  dsimp only [inferArg]
  split
  · next hk => exact Or.inl ⟨rfl, rfl, fun sg ty hsg _ => by rw [hk] at hsg; cases hsg⟩
  · next sg hk =>
    split
    · next hi =>
      refine Or.inl ⟨rfl, rfl, fun sg' ty hsg hty => ?_⟩
      rw [hk] at hsg
      obtain rfl := Option.some.inj hsg
      rw [hi] at hty
      cases hty
    · next ty hi =>
      have honly : ∀ sg' ty', p.1.sigs[k]? = some sg' → sg'.paramTy[i]? = some ty' → ty' = ty := by
        intro sg' ty' hsg hty
        rw [hk] at hsg
        obtain rfl := Option.some.inj hsg
        exact Option.some.inj (hty.symm.trans hi)
      split
      · next hany => exact Or.inl ⟨rfl, rfl, fun sg' ty' hsg hty => Or.inl ((honly sg' ty' hsg hty).trans hany)⟩
      · next hany =>
        have hset : exprNumTy { c with sigs := p.1.sigs } a ≠ .unset := exprNumTy_ne_unset
        rcases numMeet_height hany hset with
          ⟨heq, htyp⟩ | ⟨hne, hlt⟩
        · rw [if_pos heq]
          exact Or.inl ⟨rfl, rfl, fun sg' ty' hsg hty => Or.inr ((honly sg' ty' hsg hty).trans htyp)⟩
        · rw [if_neg hne]
          refine Or.inr ⟨rfl, ?_⟩
          have hheight : (sg.paramTy.map height)[i]? = some (height ty) := by
            rw [List.getElem?_map, hi]
            rfl
          have hsum := sum_set hheight (height (numMeet ty (exprNumTy { c with sigs := p.1.sigs } a)))
          rw [← List.map_set] at hsum
          have hset := paramHeight_set hk
            { sg with paramTy := sg.paramTy.set i (numMeet ty (exprNumTy { c with sigs := p.1.sigs } a)) }
          dsimp only at hset ⊢
          omega

/-- A call leaves the signatures, because its arguments conform, or lowers a parameter. -/
theorem inferSite_narrows (c : CG) (call : Expr × List Expr) :
    Narrows Signatures.sigs paramHeight (fun sigs => Conforms { c with sigs } call) (inferSite c · call) := by
  unfold inferSite
  rcases htarget : directCallTarget c call.1 call.2 with _ | k
  · refine narrows_id fun sigs sg hsg => ?_
    have hnone : directCallTarget { c with sigs } call.1 call.2 = none := htarget
    rw [targetSig, hnone] at hsg
    cases hsg
  · have hargs := narrows_foldl (fun p (x : Expr × ℕ) => inferArg c k x.2 p x.1) call.2.zipIdx
      fun x _ => inferArg_narrows c k x.2 x.1
    intro p
    refine (hargs ({ p.1 with hasSite := p.1.hasSite.set k true }, p.2)).imp_left fun ⟨hsigs, hflag, hconf⟩ => ?_
    refine ⟨hsigs, hflag, fun sg hsg x hx => ?_⟩
    have hsome : directCallTarget { c with sigs := p.1.sigs } call.1 call.2 = some k := htarget
    rw [targetSig, hsome] at hsg
    obtain ⟨i, hi⟩ := List.mem_iff_getElem?.mp hx
    obtain ⟨hty, ha⟩ := List.getElem?_zip_eq_some.mp hi
    exact hconf (x.2, i) (List.mem_zipIdx_iff_getElem?.mpr ha) sg x.1 hsg hty

/-- The calls of a body leave the signatures, because they are quiet for it, or lower a parameter. -/
theorem inferSites_narrows (c : CG) (body : Block) :
    Narrows Signatures.sigs paramHeight (fun sigs => Quiet { c with sigs } body)
      ((callsOf body).foldl (inferSite c) ·) :=
  narrows_foldl _ (callsOf body) fun call _ => inferSite_narrows c call

/-- The calls of a body leave the number of signatures. -/
theorem inferSites_length (c : CG) (calls : List (Expr × List Expr)) (p : InferPass) :
    (calls.foldl (inferSite c) p).1.sigs.length = p.1.sigs.length := by
  refine List.foldlRecOn (motive := fun q : InferPass => q.1.sigs.length = p.1.sigs.length) _ _ rfl
    fun q hq call _ => ?_
  unfold inferSite
  split
  · exact hq
  · refine List.foldlRecOn (motive := fun q : InferPass => q.1.sigs.length = p.1.sigs.length) _ _ hq ?_
    rintro q hq ⟨a, i⟩ -
    dsimp only [inferArg]
    split
    · exact hq
    · split
      · exact hq
      · split
        · exact hq
        · split
          · exact hq
          · rw [List.length_set]
            exact hq

/-! ## Return types -/

/-- A signature with another return type. -/
def FuncSig.returning (sg : FuncSig) (ty : NumTy) : FuncSig := { sg with retTy := ty }

/-- The return type of a function is set to what its returns have now, and this is noted if it is new. -/
theorem inferReturn_spec {f : ℕ} {body : Block} {p : InferPass} {sg : FuncSig} (hsg : p.1.sigs[f]? = some sg) :
    (inferReturn c f body p).1.sigs =
        p.1.sigs.set f (sg.returning (computeRetTy { c with sigs := p.1.sigs } body)) ∧
      ((inferReturn c f body p).2 = true → p.2 = true ∨ (inferReturn c f body p).1.sigs ≠ p.1.sigs) := by
  unfold inferReturn
  rw [hsg]
  dsimp only
  split
  · next hret =>
    refine ⟨?_, Or.inl⟩
    obtain ⟨hlt, heq⟩ := List.getElem?_eq_some_iff.mp hsg
    rw [hret]
    exact (heq ▸ List.set_getElem_self hlt).symm
  · next hret =>
    refine ⟨rfl, fun _ => Or.inr fun heq => hret ?_⟩
    have hget := congrArg (·[f]?) heq
    have hlt := (List.getElem?_eq_some_iff.mp hsg).1
    simp only [List.getElem?_set_self hlt, hsg, Option.some.injEq] at hget
    exact congrArg FuncSig.retTy hget

theorem inferReturn_height (c : CG) (f : ℕ) (body : Block) (p : InferPass) :
    paramHeight (inferReturn c f body p).1.sigs = paramHeight p.1.sigs ∧
      (inferReturn c f body p).1.sigs.length = p.1.sigs.length := by
  rcases hsg : p.1.sigs[f]? with _ | sg
  · unfold inferReturn
    rw [hsg]
    exact ⟨rfl, rfl⟩
  · rw [(inferReturn_spec hsg).1]
    have hset := paramHeight_set hsg (sg.returning (computeRetTy { c with sigs := p.1.sigs } body))
    exact ⟨Nat.add_right_cancel hset, List.length_set⟩

/-! ## A step and a round -/

/-- The context in which the body of a function is analysed, before its slots are typed. -/
def baseContext (pr : ParseResult) (boxes : Boxes) (sigs : List FuncSig) (func : Option ℕ) : CG :=
  { funcs := pr.funcs, binds := computeFuncBindings pr, boxes, sigs, curFuncIdx := func }

/-- No step raises a parameter. One that lowers none finds the signatures quiet for its body, and sets the return type
of its function. -/
theorem inferStepBody_spec (p : InferPass) (b : Body) :
    (inferStepBody pr boxes p b).1.sigs.length = p.1.sigs.length ∧
      paramHeight (inferStepBody pr boxes p b).1.sigs ≤ paramHeight p.1.sigs ∧
      (paramHeight (inferStepBody pr boxes p b).1.sigs = paramHeight p.1.sigs →
        Quiet (typedSlots (baseContext pr boxes p.1.sigs b.func) b (seedOf p.1.sigs b)) b.block ∧
        ((inferStepBody pr boxes p b).2 = true → p.2 = true ∨ (inferStepBody pr boxes p b).1.sigs ≠ p.1.sigs) ∧
        (b.func = none → (inferStepBody pr boxes p b).1.sigs = p.1.sigs) ∧
        ∀ f sg, b.func = some f → p.1.sigs[f]? = some sg → (inferStepBody pr boxes p b).1.sigs =
          p.1.sigs.set f (sg.returning (computeRetTy
            (typedSlots (baseContext pr boxes p.1.sigs b.func) b (seedOf p.1.sigs b)) b.block))) := by
  have hlength := inferSites_length (bodyContext pr boxes p.1.sigs b (seedOf p.1.sigs b)) (callsOf b.block) p
  have hsites := inferSites_narrows (bodyContext pr boxes p.1.sigs b (seedOf p.1.sigs b)) b.block p
  unfold inferStepBody
  dsimp only at hsites ⊢
  generalize hp₁ : (callsOf b.block).foldl (inferSite (bodyContext pr boxes p.1.sigs b (seedOf p.1.sigs b))) p = p₁ at *
  rcases hfunc : b.func with _ | f
  · dsimp only
    rcases hsites with ⟨hsigs, hflag, hquiet⟩ | ⟨-, hlt⟩
    · rw [← hfunc]
      refine ⟨hlength, by rw [hsigs], fun _ => ⟨hquiet, fun h => Or.inl (hflag ▸ h), fun _ => hsigs, ?_⟩⟩
      intro f sg hf
      rw [hfunc] at hf
      cases hf
    · exact ⟨hlength, hlt.le, fun heq => absurd heq hlt.ne⟩
  · dsimp only
    obtain ⟨hheight, hlength'⟩ := inferReturn_height (bodyContext pr boxes p.1.sigs b (seedOf p.1.sigs b)) f b.block p₁
    rw [hheight, hlength']
    rcases hsites with ⟨hsigs, hflag, hquiet⟩ | ⟨-, hlt⟩
    · rw [← hfunc]
      refine ⟨hlength, by rw [hsigs], fun _ => ⟨hquiet, fun h => ?_, fun h => ?_, fun g sg hg hsg => ?_⟩⟩
      · rcases hsg : p₁.1.sigs[f]? with _ | sg
        · unfold inferReturn at h
          rw [hsg] at h
          exact Or.inl (hflag ▸ h)
        · have hnew := (inferReturn_spec hsg).2 h
          rw [hsigs, hflag] at hnew
          exact hnew
      · rw [hfunc] at h
        cases h
      · obtain rfl := Option.some.inj (hfunc.symm.trans hg)
        rw [(inferReturn_spec (hsigs ▸ hsg)).1, hsigs]
        rfl
    · exact ⟨hlength, hlt.le, fun heq => absurd heq hlt.ne⟩

/-- What a round that lowers no parameter does to a function: its return type is computed from its own signature and
from those of the functions behind it, as they were at the start of the round, and the signatures are quiet for its
body. -/
def Recomputed (pr : ParseResult) (boxes : Boxes) (sigs sigs' : List FuncSig) (f : ℕ) : Prop :=
  ∀ lf sg, pr.funcs[f]? = some lf → sigs[f]? = some sg → ∃ mid : List FuncSig, (∀ g, f ≤ g → mid[g]? = sigs[g]?) ∧
    Quiet (typedSlots (baseContext pr boxes mid (some f)) (funcBody lf f) sg.paramTy) lf.body ∧
    sigs'[f]? = some (sg.returning
      (computeRetTy (typedSlots (baseContext pr boxes mid (some f)) (funcBody lf f) sg.paramTy) lf.body))

theorem inferOrder_func {f : ℕ} {lf : LuaFunc} (h : pr.funcs[f]? = some lf) :
    (inferOrder pr)[f]? = some (funcBody lf f) := by
  have hlt := (List.getElem?_eq_some_iff.mp h).1
  unfold inferOrder
  rw [List.getElem?_append_left (by simpa using hlt), List.getElem?_map, List.getElem?_zipIdx, h]
  simp

/-- The first steps of a round. -/
def stepsOf (pr : ParseResult) (boxes : Boxes) (s : Signatures) (k : ℕ) : InferPass :=
  ((inferOrder pr).take k).foldl (inferStepBody pr boxes) (s, false)

theorem stepsOf_succ {s : Signatures} (h : (inferOrder pr)[k]? = some b) :
    stepsOf pr boxes s (k + 1) = inferStepBody pr boxes (stepsOf pr boxes s k) b := by
  unfold stepsOf
  rw [List.take_add_one, h, List.foldl_append]
  rfl

/-- No number of steps raises a parameter. -/
theorem stepsOf_height (s : Signatures) : Antitone fun k => paramHeight (stepsOf pr boxes s k).1.sigs := by
  refine antitone_nat_of_succ_le fun k => ?_
  rcases h : (inferOrder pr)[k]? with _ | b
  · unfold stepsOf
    rw [List.take_add_one, h]
    simp
  · rw [stepsOf_succ h]
    exact (inferStepBody_spec _ b).2.1

theorem inferRound_eq (s : Signatures) : inferRound pr boxes s =
    inferStepBody pr boxes (stepsOf pr boxes s pr.funcs.length) (mainChunk pr) := by
  have hlen : (pr.funcs.zipIdx.map fun (x : LuaFunc × ℕ) => funcBody x.1 x.2).length = pr.funcs.length := by simp
  unfold inferRound stepsOf inferOrder
  rw [List.foldl_append, List.take_left' hlen]
  rfl

/-- A round that lowers no parameter only computes the return types again, and what it reports is whether one of them
is new. -/
theorem quiet_round {s : Signatures} (hlen : s.sigs.length = pr.funcs.length)
    (hheight : paramHeight (inferRound pr boxes s).1.sigs = paramHeight s.sigs) :
    ((inferRound pr boxes s).2 = true → (inferRound pr boxes s).1.sigs ≠ s.sigs) ∧
      ∀ f, Recomputed pr boxes s.sigs (inferRound pr boxes s).1.sigs f := by
  rw [inferRound_eq] at hheight ⊢
  obtain ⟨-, hmainle, hmain⟩ :=
    @inferStepBody_spec pr boxes (stepsOf pr boxes s pr.funcs.length) (mainChunk pr)
  -- the height is the same after every step
  have hsteps : ∀ k, k ≤ pr.funcs.length → paramHeight (stepsOf pr boxes s k).1.sigs = paramHeight s.sigs := by
    intro k hk
    have hfirst : paramHeight (stepsOf pr boxes s 0).1.sigs = paramHeight s.sigs := rfl
    have hle := @stepsOf_height pr boxes s 0 k (Nat.zero_le k)
    have hge := @stepsOf_height pr boxes s k _ hk
    dsimp only at hle hge
    omega
  have hall : ∀ k, k ≤ pr.funcs.length →
      (stepsOf pr boxes s k).1.sigs.length = pr.funcs.length ∧
        (∀ g, k ≤ g → (stepsOf pr boxes s k).1.sigs[g]? = s.sigs[g]?) ∧
        ((stepsOf pr boxes s k).2 = true → (stepsOf pr boxes s k).1.sigs ≠ s.sigs) ∧
        ∀ f, f < k → Recomputed pr boxes s.sigs (stepsOf pr boxes s k).1.sigs f := by
    intro k
    induction k with
    | zero => exact fun _ => ⟨hlen, fun _ _ => rfl, fun h => absurd h (by simp [stepsOf]), fun f hf => by omega⟩
    | succ k ih =>
      intro hk
      obtain ⟨hlenk, hsame, hflag, hdone⟩ := ih (by omega)
      obtain ⟨lf, hlf⟩ : ∃ lf, pr.funcs[k]? = some lf := ⟨_, List.getElem?_eq_getElem (by omega)⟩
      obtain ⟨sg, hsg⟩ : ∃ sg, s.sigs[k]? = some sg := ⟨_, List.getElem?_eq_getElem (by omega)⟩
      have hsgk := (hsame k le_rfl).trans hsg
      have hseed : seedOf (stepsOf pr boxes s k).1.sigs (funcBody lf k) = sg.paramTy := by
        simp [seedOf, funcBody, hsgk]
      have hheights := (hsteps (k + 1) hk).trans (hsteps k (by omega)).symm
      rw [stepsOf_succ (inferOrder_func hlf)] at hheights ⊢
      obtain ⟨hlenk', -, hstep⟩ :=
        @inferStepBody_spec pr boxes (stepsOf pr boxes s k) (funcBody lf k)
      obtain ⟨hquiet, hflag', -, hset⟩ := hstep hheights
      have hset := hset k sg rfl hsgk
      rw [hseed] at hquiet hset
      have hother : ∀ g, k ≠ g → (inferStepBody pr boxes (stepsOf pr boxes s k) (funcBody lf k)).1.sigs[g]? =
          (stepsOf pr boxes s k).1.sigs[g]? := fun g hg => by rw [hset, List.getElem?_set_ne hg]
      refine ⟨hlenk'.trans hlenk, fun g hg => ?_, fun h heq => ?_, fun f hf => ?_⟩
      · rw [hother g (by omega)]
        exact hsame g (by omega)
      · -- the step before has changed nothing either, for this one only sets the return type of `k`
        have hbefore : (stepsOf pr boxes s k).1.sigs = s.sigs := by
          refine List.ext_getElem? fun g => ?_
          by_cases hg : k = g
          · exact hg ▸ hsame k le_rfl
          · rw [← hother g hg, heq]
        rcases hflag' h with h | h
        · exact hflag h hbefore
        · exact h (heq.trans hbefore.symm)
      · rcases Nat.lt_succ_iff_lt_or_eq.mp hf with hf | rfl
        · intro lf' sg' hlf' hsg'
          obtain ⟨mid, hmid, hquiet', hret⟩ := hdone f hf lf' sg' hlf' hsg'
          exact ⟨mid, hmid, hquiet', (hother f (by omega)).trans hret⟩
        · intro lf' sg' hlf' hsg'
          obtain rfl := Option.some.inj (hlf.symm.trans hlf')
          obtain rfl := Option.some.inj (hsg.symm.trans hsg')
          refine ⟨(stepsOf pr boxes s f).1.sigs, hsame, hquiet, ?_⟩
          rw [hset, List.getElem?_set_self (by omega)]
          rfl
  obtain ⟨-, -, hflag, hdone⟩ := hall pr.funcs.length le_rfl
  obtain ⟨-, hflag', hsame, -⟩ := hmain (hheight.trans (hsteps _ le_rfl).symm)
  have hsame := hsame rfl
  refine ⟨fun h => ?_, fun f => ?_⟩
  · rcases hflag' h with h | h
    · rw [hsame]
      exact hflag h
    · exact absurd hsame h
  · rw [hsame]
    by_cases hf : f < pr.funcs.length
    · exact hdone f hf
    · intro lf sg hlf
      rw [List.getElem?_eq_none (by omega)] at hlf
      cases hlf

end Lua2wasm.Analysis
