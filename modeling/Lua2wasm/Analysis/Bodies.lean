import Lua2wasm.Analysis.Typing

/-!
# A body under later signatures

The loops that type the slots of a body end (`killLoop_spec`), with the largest table of slots that the stores of the
body agree with. So a later table has all slots of an earlier one if what is stored in them keeps its type, and the
return type of the function follows: it is an integer at a later time if it was one before (`ret_int_later`), and once
the functions that return integers are settled, it is a float if it was one before (`ret_float_later`).
-/

namespace Lua2wasm.Analysis

open Rounds

variable {c : CG} {ty : SlotTy} {body : Block} {out init slots : List Bool}
variable {e : Expr} {t : NumTy}

/-! ## The loops that type slots -/

theorem within_refl (a : List Bool) : Within a a := fun _ h => h

theorem Within.trans {a b d : List Bool} (h : Within a b) (h' : Within b d) : Within a d := fun i hi => h' i (h i hi)

/-- A slot is dropped if it was still there. -/
theorem slotKill_within (p : SlotPass) (slot : ℕ) :
    (slotKill p slot).1.length = p.1.length ∧ Within (slotKill p slot).1 p.1 := by
  unfold slotKill
  by_cases hset : p.1.getD slot false = true
  · rw [if_pos hset]
    refine ⟨List.length_set, fun i hi => ?_⟩
    by_cases h : slot = i
    · exact h ▸ hset
    · rwa [List.getD_eq_getElem?_getD, List.getElem?_set_ne h, ← List.getD_eq_getElem?_getD] at hi
  · rw [if_neg hset]
    exact ⟨rfl, within_refl _⟩

/-- Clearing a flag that is set leaves one less. -/
theorem count_clear {flags : List Bool} {i : ℕ} (h : flags.getD i false = true) :
    (flags.set i false).count true < flags.count true := by
  have hlt : i < flags.length := by
    by_contra hge
    rw [List.getD_eq_default _ _ (by omega)] at h
    cases h
  rw [List.getD_eq_getElem _ _ hlt] at h
  have hpos : 0 < flags.count true := List.count_pos_iff.mpr (h ▸ List.getElem_mem hlt)
  rw [List.count_set hlt, if_pos (by simp [h]), if_neg (by simp)]
  omega

/-- A store leaves the table, because the slot has no type or keeps it, or drops the slot and notes it. -/
theorem killStore_narrows (st : ℕ × Store) :
    Narrows id (List.count true)
      (fun out => out.getD st.1 false = true → keepsTy (c.withSlots out ty) ty st.2 = true) (killStore c ty · st) := by
  intro p
  dsimp only [killStore, slotKill, id]
  by_cases hkeeps : keepsTy (c.withSlots p.1 ty) ty st.2 = true
  · rw [if_pos hkeeps]
    exact Or.inl ⟨rfl, rfl, fun _ => hkeeps⟩
  · rw [if_neg hkeeps]
    by_cases hset : p.1.getD st.1 false = true
    · rw [if_pos hset]
      exact Or.inr ⟨rfl, count_clear hset⟩
    · rw [if_neg hset]
      exact Or.inl ⟨rfl, rfl, fun h => absurd h hset⟩

/-- A pass leaves the table, and all slots keep their type, or it drops a slot. -/
theorem killPass_narrows (c : CG) (ty : SlotTy) (body : Block) :
    Narrows id (List.count true)
      (fun out => ∀ st ∈ storesOf body, out.getD st.1 false = true → keepsTy (c.withSlots out ty) ty st.2 = true)
      ((storesOf body).foldl (killStore c ty) ·) :=
  narrows_foldl _ (storesOf body) fun st _ => killStore_narrows st

/-- A pass only drops slots. -/
theorem killStores_within (stores : List (ℕ × Store)) (p : SlotPass) :
    (stores.foldl (killStore c ty) p).1.length = p.1.length ∧ Within (stores.foldl (killStore c ty) p).1 p.1 := by
  induction stores generalizing p with
  | nil => exact ⟨rfl, within_refl _⟩
  | cons st stores ih =>
    rw [List.foldl_cons]
    obtain ⟨hlen, hwithin⟩ := ih (killStore c ty p st)
    have hfirst : (killStore c ty p st).1.length = p.1.length ∧ Within (killStore c ty p st).1 p.1 := by
      unfold killStore
      split
      · exact ⟨rfl, within_refl _⟩
      · exact slotKill_within p st.1
    exact ⟨hlen.trans hfirst.1, hwithin.trans hfirst.2⟩

/-- What is in a table stays in it through a pass, if its stores keep their type in every table that contains it. -/
theorem killStores_keeps {stores : List (ℕ × Store)}
    (h : ∀ out, Within slots out → ∀ st ∈ stores, slots.getD st.1 false = true →
      keepsTy (c.withSlots out ty) ty st.2 = true) {p : SlotPass} (hp : Within slots p.1) :
    Within slots (stores.foldl (killStore c ty) p).1 := by
  induction stores generalizing p with
  | nil => exact hp
  | cons st stores ih =>
    rw [List.foldl_cons]
    refine ih (fun out hout st' hst' => h out hout st' (List.mem_cons_of_mem _ hst')) ?_
    unfold killStore
    by_cases hkeeps : keepsTy (c.withSlots p.1 ty) ty st.2 = true
    · rwa [if_pos hkeeps]
    · rw [if_neg hkeeps]
      intro i hi
      have hne : st.1 ≠ i := by
        rintro rfl
        exact hkeeps (h p.1 hp st List.mem_cons_self hi)
      unfold slotKill
      split
      · rw [List.getD_eq_getElem?_getD, List.getElem?_set_ne hne, ← List.getD_eq_getElem?_getD]
        exact hp i hi
      · exact hp i hi

/-- The loop ends with a table in which all slots keep their type at every store, and which contains every table that
has this property together with all tables around it. -/
theorem killLoop_spec (c : CG) (ty : SlotTy) (body : Block) (init : List Bool) :
    (killLoop c ty body init).length = init.length ∧ Within (killLoop c ty body init) init ∧
      (∀ st ∈ storesOf body, (killLoop c ty body init).getD st.1 false = true →
        keepsTy (c.withSlots (killLoop c ty body init) ty) ty st.2 = true) ∧
      ∀ slots, Within slots init → (∀ out, Within slots out → ∀ st ∈ storesOf body, slots.getD st.1 false = true →
        keepsTy (c.withSlots out ty) ty st.2 = true) → Within slots (killLoop c ty body init) := by
  -- the invariant of the loop
  let P : List Bool → Prop := fun out => out.length = init.length ∧ Within out init ∧
    ∀ slots, Within slots init → (∀ out, Within slots out → ∀ st ∈ storesOf body, slots.getD st.1 false = true →
      keepsTy (c.withSlots out ty) ty st.2 = true) → Within slots out
  have hpass : ∀ out, P out → P (killPass c ty body out).1 := by
    rintro out ⟨hlen, hwithin, hkeeps⟩
    obtain ⟨hlen', hwithin'⟩ := @killStores_within c ty (storesOf body) (out, false)
    exact ⟨hlen'.trans hlen, hwithin'.trans hwithin,
      fun slots hslots h => killStores_keeps h (hkeeps slots hslots h)⟩
  have hdrop : ∀ out, (killPass c ty body out).2 = true → (killPass c ty body out).1.count true < out.count true :=
    fun out hchanged => (killPass_narrows c ty body).lt hchanged
  have hinit : P init := ⟨rfl, within_refl _, fun _ h _ => h⟩
  obtain ⟨out, ⟨hlen, hwithin, hkeeps⟩, hquiet, hloop⟩ :=
    untilQuiet_of_measure hpass hdrop hinit (Nat.lt_succ_self _)
  -- the last pass has dropped nothing
  obtain ⟨hlast, hstores⟩ := (killPass_narrows c ty body).quiet hquiet
  have hresult : killLoop c ty body init = out := by
    unfold killLoop
    rw [hloop]
    exact hlast
  rw [hresult]
  exact ⟨hlen, hwithin, hstores, hkeeps⟩

/-! ## The slots of a body -/

/-- The context with the integer slots of a body. -/
def typedInts (c : CG) (b : Body) (paramSeed : List NumTy) : CG :=
  { c with curIsInt := computeIntSlots c b.block b.nLocals b.nParams b.captured paramSeed }

/-- The context with all typed slots of a body. -/
def typedSlots (c : CG) (b : Body) (paramSeed : List NumTy) : CG :=
  { typedInts c b paramSeed with
    curIsFloat := computeFloatSlots (typedInts c b paramSeed) b.block b.nLocals b.nParams b.captured paramSeed }

/-- The expressions of a store. -/
def storeExprs : Store → List Expr
  | .value e => [e]
  | .control start step => start :: step.toList
  | .untyped => []

theorem keepsTy_mono {c c' : CG} {st : Store} (h : ∀ e ∈ storeExprs st, exprHasTy c e ty = true → exprHasTy c' e ty = true)
    (hkeeps : keepsTy c ty st = true) : keepsTy c' ty st = true := by
  rcases st with e | ⟨start, step⟩ | _
  · exact h e List.mem_cons_self hkeeps
  · rw [keepsTy, Bool.and_eq_true, beq_iff_eq] at hkeeps ⊢
    obtain ⟨rfl, hkeeps⟩ := hkeeps
    refine ⟨rfl, ?_⟩
    rw [intForLoop, Bool.and_eq_true] at hkeeps ⊢
    refine ⟨h start List.mem_cons_self hkeeps.1, ?_⟩
    rcases step with _ | e
    · rfl
    · exact h e (by simp [storeExprs]) hkeeps.2
  · cases hkeeps

theorem ownExprs_of_store {s : Stmt} {st : ℕ × Store} (hst : st ∈ slotStores s) : ∀ e ∈ storeExprs st.2, e ∈ ownExprs s := by
  intro e he
  cases s with
  | localStmt slots attribs values =>
    obtain ⟨⟨slot, j⟩, -, rfl⟩ := List.mem_map.mp hst
    dsimp only at he
    split at he
    · cases hv : values[j]? with
      | none =>
        rw [hv] at he
        cases he
      | some v =>
        rw [hv] at he
        obtain rfl := List.mem_singleton.mp he
        exact List.mem_of_getElem? hv
    · cases he
  | assign targets values =>
    obtain ⟨t, -, ht⟩ := List.mem_filterMap.mp hst
    split at ht
    · cases ht
      split at he
      · obtain rfl := List.mem_singleton.mp he
        simp [ownExprs]
      · cases he
    · cases ht
  | forNum slot start stop step body =>
    obtain rfl := List.mem_singleton.mp hst
    rcases List.mem_cons.mp he with rfl | he
    · simp [ownExprs]
    · rw [ownExprs]
      exact List.mem_append_right _ he
  | forGen slots exprs body =>
    obtain ⟨slot, -, rfl⟩ := List.mem_map.mp hst
    cases he
  | localFunc slot func =>
    obtain rfl := List.mem_singleton.mp hst
    cases he
  | _ => cases hst

theorem callsOf_of_own {s : Stmt} (hs : s ∈ walkStmts body) (he : e ∈ ownExprs s) {call : Expr × List Expr}
    (hcall : call ∈ callsIn e) : call ∈ callsOf body :=
  List.mem_flatMap.mpr ⟨s, hs, List.mem_flatMap.mpr ⟨e, he, hcall⟩⟩

/-- The calls in what is stored are calls of the body. -/
theorem callsOf_of_store {st : ℕ × Store} (hst : st ∈ storesOf body) (he : e ∈ storeExprs st.2)
    {call : Expr × List Expr} (hcall : call ∈ callsIn e) : call ∈ callsOf body := by
  obtain ⟨s, hs, hst⟩ := List.mem_flatMap.mp hst
  exact callsOf_of_own hs (ownExprs_of_store hst e he) hcall

variable {c' : CG} {b : Body} {paramSeed : List NumTy}

/-- The slots do not matter to whether signatures are later. -/
theorem Later.withSlots (h : Later c c') (ints floats ints' floats' : List Bool) :
    Later { c with curIsInt := ints, curIsFloat := floats } { c' with curIsInt := ints', curIsFloat := floats' } :=
  ⟨h.funcs, h.binds, h.boxes, h.curFuncIdx, h.sigs⟩

/-- The integer slots stay. -/
theorem intSlots_later (h : Later c c') (hf : c.curIsFloat = []) (hquiet : Quiet (typedSlots c' b paramSeed) b.block) :
    Within (typedInts c b paramSeed).curIsInt (typedInts c' b paramSeed).curIsInt := by
  obtain ⟨-, hinit, hstores, -⟩ := killLoop_spec c .int b.block ((List.range b.nLocals).map fun i =>
    !b.captured.getD i false && (decide (b.nParams ≤ i) || paramSeed[i]? == some .int || paramSeed[i]? == some .unset))
  refine (killLoop_spec c' .int b.block _).2.2.2 _ hinit fun out hout st hst hset => ?_
  refine keepsTy_mono (fun e he hint => ?_) (hstores st hst hset)
  have hcf : ∀ callee args, targetSig (typedSlots c' b paramSeed) callee args =
      targetSig (c'.withSlots out .int) callee args := fun _ _ => rfl
  refine (isInt_course (h.withSlots _ _ _ _) hout hf hcf ?_).1 hint
  exact fun call hcall => hquiet call (callsOf_of_store hst he hcall)

/-- What is typed an integer in a body stays so. -/
theorem body_int_later (h : Later c c') (hf : c.curIsFloat = []) (hquiet : Quiet (typedSlots c' b paramSeed) b.block) (he : ∀ call ∈ callsIn e, call ∈ callsOf b.block)
    (hint : exprIsInt (typedSlots c b paramSeed) e = true) : exprIsInt (typedSlots c' b paramSeed) e = true := by
  have hlater : Later (typedSlots c b paramSeed) (typedSlots c' b paramSeed) := h.withSlots _ _ _ _
  exact isInt_later hlater (intSlots_later h hf hquiet) (fun call hcall => hquiet call (he call hcall)) hint

/-- Two times at which the same functions return integers, the later one with those that returned floats. -/
structure FloatLater (c c' : CG) : Prop where
  later : Later c c'
  back : Later c' c
  float : ∀ callee args sg sg', targetSig c callee args = some sg → targetSig c' callee args = some sg' →
    sg.retTy = .float → sg'.retTy = .float

/-- The float slots stay, where the same slots hold integers. -/
theorem floatSlots_later (h : FloatLater c c') (hf : c.curIsFloat = []) (hf' : c'.curIsFloat = [])
    (hquiet : Quiet (typedSlots c b paramSeed) b.block) (hquiet' : Quiet (typedSlots c' b paramSeed) b.block) :
    Within (typedSlots c b paramSeed).curIsFloat (typedSlots c' b paramSeed).curIsFloat := by
  have hints := intSlots_later h.later hf hquiet'
  have hback := intSlots_later h.back hf' hquiet
  obtain ⟨-, hinit, hstores, -⟩ := killLoop_spec (typedInts c b paramSeed) .float b.block
    ((List.range b.nLocals).map fun i => !b.captured.getD i false && !(typedInts c b paramSeed).curIsInt.getD i false &&
      (decide (b.nParams ≤ i) || paramSeed[i]? == some .float))
  refine (killLoop_spec (typedInts c' b paramSeed) .float b.block _).2.2.2 _ ?_ fun out hout st hst hset => ?_
  · -- a slot that is no integer slot at one time is none at the other
    intro i hi
    have hi := hinit i hi
    rw [List.getD_eq_getElem?_getD, List.getElem?_map] at hi ⊢
    by_cases hlt : i < b.nLocals
    · rw [List.getElem?_range hlt] at hi ⊢
      simp only [Option.map_some, Option.getD_some, Bool.and_eq_true, Bool.not_eq_true'] at hi ⊢
      refine ⟨⟨hi.1.1, ?_⟩, hi.2⟩
      by_contra hint
      rw [Bool.not_eq_false] at hint
      rw [hback i hint] at hi
      exact absurd hi.1.2 (by decide)
    · rw [List.getElem?_eq_none (by simpa using hlt)] at hi
      cases hi
  · refine keepsTy_mono (fun e he hfloat => ?_) (hstores st hst hset)
    have hlater : Later ((typedInts c b paramSeed).withSlots (typedSlots c b paramSeed).curIsFloat .float)
        ((typedInts c' b paramSeed).withSlots out .float) := h.later.withSlots _ _ _ _
    exact (float_later hlater h.float hints hout).2 hfloat

/-- What is typed a float in a body stays so. -/
theorem body_float_later (h : FloatLater c c') (hf : c.curIsFloat = []) (hf' : c'.curIsFloat = [])
    (hquiet : Quiet (typedSlots c b paramSeed) b.block) (hquiet' : Quiet (typedSlots c' b paramSeed) b.block) (hfloat : exprIsFloat (typedSlots c b paramSeed) e = true) :
    exprIsFloat (typedSlots c' b paramSeed) e = true := by
  have hlater : Later (typedSlots c b paramSeed) (typedSlots c' b paramSeed) := h.later.withSlots _ _ _ _
  exact (float_later hlater h.float (intSlots_later h.later hf hquiet')
    (floatSlots_later h hf hf' hquiet hquiet')).2 hfloat

/-! ## Return types -/

theorem exprNumTy_int : exprNumTy c e = .int ↔ exprIsInt c e = true := by
  unfold exprNumTy
  split
  · next h => simp [h]
  · next h =>
    split <;> simp [h]

theorem exprNumTy_float : exprNumTy c e = .float ↔ exprIsInt c e = false ∧ exprIsFloat c e = true := by
  unfold exprNumTy
  split
  · next h => simp [h]
  · next h =>
    split
    · next hfloat => simp [hfloat, Bool.not_eq_true _ ▸ h]
    · next hfloat => simp [hfloat]

theorem exprNumTy_ne_unset : exprNumTy c e ≠ .unset := by
  unfold exprNumTy
  split
  · decide
  · split <;> decide

/-- Types met into one of the two number types are all this type. -/
theorem meets_eq (ht : t = .int ∨ t = .float) (tys : List NumTy) (htys : ∀ x ∈ tys, x ≠ .unset) (acc : NumTy) :
    tys.foldl numMeet acc = t ↔ (acc = t ∨ acc = .unset ∧ tys ≠ []) ∧ ∀ x ∈ tys, x = t := by
  induction tys generalizing acc with
  | nil =>
    rcases ht with rfl | rfl <;> simp
  | cons x tys ih =>
    rw [List.foldl_cons, ih fun y hy => htys y (List.mem_cons_of_mem _ hy), List.forall_mem_cons]
    have hmeet : (numMeet acc x = t ∨ numMeet acc x = .unset ∧ tys ≠ []) ↔ (acc = t ∨ acc = .unset) ∧ x = t := by
      rcases ht with rfl | rfl <;> rcases acc with _ | _ | _ | _ <;> rcases x with _ | _ | _ | _ <;>
        simp_all [numMeet]
    rw [hmeet]
    simp [and_assoc]

theorem returnTy_ne_unset {s : Stmt} (h : returnTy c s = some t) : t ≠ .unset := by
  unfold returnTy at h
  split at h
  · cases h
    exact exprNumTy_ne_unset
  · cases h
    decide
  · cases h

/-- A function returns one of the two number types if it always returns and all its returns have this type. -/
theorem computeRetTy_eq (ht : t = .int ∨ t = .float) : computeRetTy c body = t ↔
    blockAlwaysReturns body = true ∧ (walkStmts body).filterMap (returnTy c) ≠ [] ∧
      ∀ x ∈ (walkStmts body).filterMap (returnTy c), x = t := by
  have hset : ∀ x ∈ (walkStmts body).filterMap (returnTy c), x ≠ .unset := fun x hx => by
    obtain ⟨s, -, hs⟩ := List.mem_filterMap.mp hx
    exact returnTy_ne_unset hs
  have hmeets := meets_eq ht _ hset .unset
  have hany : NumTy.any ≠ t := by rcases ht with rfl | rfl <;> decide
  have hunset : NumTy.unset ≠ t := by rcases ht with rfl | rfl <;> decide
  unfold computeRetTy
  by_cases halways : blockAlwaysReturns body = true
  · rw [if_pos halways]
    dsimp only
    split
    · next hnone =>
      rw [hnone] at hmeets
      simp only [hany, false_iff]
      rintro ⟨-, hne, hall⟩
      exact hunset (hmeets.mpr ⟨Or.inr ⟨rfl, hne⟩, hall⟩)
    · rw [hmeets]
      simp [halways, hunset]
  · rw [if_neg halways]
    simp [halways, hany]

/-- A return type follows the types of what is returned. -/
theorem ret_later (ht : t = .int ∨ t = .float)
    (h : ∀ s ∈ walkStmts body, ∀ e ∈ ownExprs s, exprNumTy c e = t → exprNumTy c' e = t)
    (hret : computeRetTy c body = t) : computeRetTy c' body = t := by
  have hany : NumTy.any ≠ t := by rcases ht with rfl | rfl <;> decide
  obtain ⟨halways, hne, hall⟩ := (computeRetTy_eq ht).mp hret
  -- the statements that return do not depend on the types
  have hstep : ∀ s ∈ walkStmts body, ∀ x, returnTy c s = some x → returnTy c' s = some t := by
    intro s hs x hx
    have hxt := hall x (List.mem_filterMap.mpr ⟨s, hs, hx⟩)
    unfold returnTy at hx ⊢
    split at hx
    · next e =>
      have he : exprNumTy c e = t := (Option.some.inj hx).trans hxt
      rw [h _ hs e (by simp [ownExprs]) he]
    · exact absurd ((Option.some.inj hx).trans hxt) hany
    · cases hx
  have hnone : ∀ s, returnTy c s = none → returnTy c' s = none := by
    intro s hs
    unfold returnTy at hs ⊢
    split at hs
    · cases hs
    · cases hs
    · rfl
  refine (computeRetTy_eq ht).mpr ⟨halways, ?_, ?_⟩
  · obtain ⟨x, hx⟩ := List.exists_mem_of_ne_nil _ hne
    obtain ⟨s, hs, hsx⟩ := List.mem_filterMap.mp hx
    exact List.ne_nil_of_mem (List.mem_filterMap.mpr ⟨s, hs, hstep s hs x hsx⟩)
  · intro x hx
    obtain ⟨s, hs, hsx⟩ := List.mem_filterMap.mp hx
    cases hsc : returnTy c s with
    | none =>
      rw [hnone s hsc] at hsx
      cases hsx
    | some y =>
      rw [hstep s hs y hsc] at hsx
      exact (Option.some.inj hsx).symm

/-- A function that returns integers does so later. -/
theorem ret_int_later (h : Later c c') (hf : c.curIsFloat = []) (hquiet : Quiet (typedSlots c' b paramSeed) b.block)
    (hret : computeRetTy (typedSlots c b paramSeed) b.block = .int) :
    computeRetTy (typedSlots c' b paramSeed) b.block = .int := by
  refine ret_later (Or.inl rfl) (fun s hs e he hint => ?_) hret
  rw [exprNumTy_int] at hint ⊢
  exact body_int_later h hf hquiet (fun call hcall => callsOf_of_own hs he hcall) hint

/-- A function that returns floats does so later, where the same functions return integers. -/
theorem ret_float_later (h : FloatLater c c') (hf : c.curIsFloat = []) (hf' : c'.curIsFloat = [])
    (hquiet : Quiet (typedSlots c b paramSeed) b.block) (hquiet' : Quiet (typedSlots c' b paramSeed) b.block)
    (hret : computeRetTy (typedSlots c b paramSeed) b.block = .float) :
    computeRetTy (typedSlots c' b paramSeed) b.block = .float := by
  refine ret_later (Or.inr rfl) (fun s hs e he hfloat => ?_) hret
  rw [exprNumTy_float] at hfloat ⊢
  refine ⟨?_, body_float_later h hf hf' hquiet hquiet' hfloat.2⟩
  by_contra hint
  rw [Bool.not_eq_false] at hint
  rw [body_int_later h.back hf' hquiet (fun call hcall => callsOf_of_own hs he hcall) hint] at hfloat
  exact absurd hfloat.1 (by decide)

end Lua2wasm.Analysis
