import Lua2wasm.Analysis.Rounds

/-!
# The analyses end

`infer_signatures` and `ibox_settle` repeat their rounds while one changes something, and `codegen_module` alternates
the two while settling drops a box. Nothing in the source bounds the rounds of inference, and a return type may go up as
well as down: when a parameter becomes an integer, a sum that was a float becomes one too.

No round raises a parameter, so that from some round on the parameters stay (`Course`). Then a round makes the return
types again, each from its own and from those behind it, and the functions that return integers come to rest first and
those that return floats after them (`inferRound_quiets`). Settling clears a flag in every round that reports a change,
so its rounds and those of the outer loop are bounded by the number of boxes.
-/

namespace Lua2wasm.Analysis

open Rounds

variable {pr : ParseResult} {boxes : Boxes} {s : Signatures} {S : ℕ → List FuncSig} {f t t' : ℕ}

/-! ## Rounds of inference -/

/-- The signature of a function has a return type. -/
def Returns (ty : NumTy) (sigs : List FuncSig) (f : ℕ) : Prop := ∃ sg, sigs[f]? = some sg ∧ sg.retTy = ty

theorem inferRound_length (s : Signatures) : (inferRound pr boxes s).1.sigs.length = s.sigs.length := by
  unfold inferRound
  exact List.foldlRecOn (motive := fun p : InferPass => p.1.sigs.length = s.sigs.length) _ _ rfl
    fun p hp b _ => (inferStepBody_spec p b).1.trans hp

/-- No round raises a parameter. -/
theorem inferRound_height (s : Signatures) : paramHeight (inferRound pr boxes s).1.sigs ≤ paramHeight s.sigs := by
  unfold inferRound
  exact List.foldlRecOn (motive := fun p : InferPass => paramHeight p.1.sigs ≤ paramHeight s.sigs) _ _ le_rfl
    fun p hp b _ => (inferStepBody_spec p b).2.1.trans hp

/-- A return type that has been computed is not open. -/
theorem computeRetTy_ne_unset {c : CG} {body : Block} : computeRetTy c body ≠ .unset := by
  unfold computeRetTy
  split
  · dsimp only
    split
    · decide
    · assumption
  · decide

/-- Signatures in the course of rounds that only compute return types again. -/
structure Course (pr : ParseResult) (boxes : Boxes) (S : ℕ → List FuncSig) : Prop where
  order : FuncOrder pr.funcs
  length : ∀ t, (S t).length = pr.funcs.length
  step : ∀ t f, Recomputed pr boxes (S t) (S (t + 1)) f

namespace Course

/-- The function of an index has a signature at all times. -/
theorem entry (hS : Course pr boxes S) (hf : f < pr.funcs.length) (t : ℕ) :
    ∃ lf sg, pr.funcs[f]? = some lf ∧ (S t)[f]? = some sg :=
  ⟨_, _, List.getElem?_eq_getElem hf, List.getElem?_eq_getElem ((hS.length t).symm ▸ hf)⟩

/-- The parameters stay. -/
theorem params (hS : Course pr boxes S) (t t' f : ℕ) :
    (S t)[f]?.map FuncSig.paramTy = (S t')[f]?.map FuncSig.paramTy := by
  have hstep : ∀ t, (S (t + 1))[f]?.map FuncSig.paramTy = (S t)[f]?.map FuncSig.paramTy := by
    intro t
    by_cases hf : f < pr.funcs.length
    · obtain ⟨lf, sg, hlf, hsg⟩ := hS.entry hf t
      obtain ⟨mid, -, -, hnew⟩ := hS.step t f lf sg hlf hsg
      rw [hnew, hsg]; rfl
    · have hnone : ∀ t, (S t)[f]? = none := fun t =>
        List.getElem?_eq_none (by have := hS.length t; omega)
      rw [hnone, hnone]
  have hfirst : ∀ t, (S t)[f]?.map FuncSig.paramTy = (S 0)[f]?.map FuncSig.paramTy := by
    intro t
    induction t with
    | zero => rfl
    | succ t ih => exact (hstep t).trans ih
  exact (hfirst t).trans (hfirst t').symm

/-- The signature of a function at another time has the same parameters. -/
theorem other (hS : Course pr boxes S) {sg : FuncSig} (hsg : (S t)[f]? = some sg) (t' : ℕ) :
    ∃ sg', (S t')[f]? = some sg' ∧ sg'.paramTy = sg.paramTy := by
  have h := hS.params t' t f
  rw [hsg] at h
  exact Option.map_eq_some_iff.mp h

variable {mid mid' : List FuncSig}

/-- The types at one time are at least those at another, as far as integers are concerned, if the functions from `f` on
that return integers still do. -/
theorem later (hS : Course pr boxes S) (hmid : ∀ g, f ≤ g → mid[g]? = (S t)[g]?)
    (hmid' : ∀ g, f ≤ g → mid'[g]? = (S t')[g]?)
    (hint : ∀ g, f ≤ g → g < pr.funcs.length → Returns .int (S t) g → Returns .int (S t') g) :
    Later (baseContext pr boxes mid (some f)) (baseContext pr boxes mid' (some f)) := by
  refine ⟨rfl, rfl, rfl, rfl, fun callee args sg hsg => ?_⟩
  obtain ⟨k, hk, hsg⟩ := Option.bind_eq_some_iff.mp hsg
  have hle : f ≤ k := directCallTarget_order hS.order rfl rfl hk
  have hsg : (S t)[k]? = some sg := (hmid k hle).symm.trans hsg
  obtain ⟨sg', hsg', hparam⟩ := hS.other hsg t'
  refine ⟨sg', ?_, hparam, fun hret => ?_⟩
  · -- the target of a call does not depend on the signatures
    have hk' : directCallTarget (baseContext pr boxes mid' (some f)) callee args = some k := hk
    rw [targetSig, hk']
    exact (hmid' k hle).trans hsg'
  · have hlt : k < pr.funcs.length := hS.length t ▸ (List.getElem?_eq_some_iff.mp hsg).1
    obtain ⟨sg'', hsg'', hret'⟩ := hint k hle hlt ⟨sg, hsg, hret⟩
    obtain rfl := Option.some.inj (hsg'.symm.trans hsg'')
    exact hret'

/-- A function that returns integers after a round does so after another one, if the functions from it on that returned
integers before the first did so before the second. -/
theorem int_step (hS : Course pr boxes S) (hf : f < pr.funcs.length)
    (hint : ∀ g, f ≤ g → g < pr.funcs.length → Returns .int (S t) g → Returns .int (S t') g)
    (hret : Returns .int (S (t + 1)) f) : Returns .int (S (t' + 1)) f := by
  obtain ⟨lf, sg, hlf, hsg⟩ := hS.entry hf t
  obtain ⟨sg', hsg', hparam⟩ := hS.other hsg t'
  obtain ⟨mid, hmid, -, hnew⟩ := hS.step t f lf sg hlf hsg
  obtain ⟨mid', hmid', hquiet', hnew'⟩ := hS.step t' f lf sg' hlf hsg'
  obtain ⟨sg₁, hsg₁, hret⟩ := hret
  obtain rfl := Option.some.inj (hnew.symm.trans hsg₁)
  refine ⟨_, hnew', ?_⟩
  rw [hparam] at hquiet' ⊢
  exact ret_int_later (hS.later hmid hmid' hint) rfl hquiet' hret

/-- The same for floats, between times at which the same functions return integers. -/
theorem float_step (hS : Course pr boxes S) (hf : f < pr.funcs.length)
    (hint : ∀ g, f ≤ g → g < pr.funcs.length → (Returns .int (S t) g ↔ Returns .int (S t') g))
    (hfloat : ∀ g, f ≤ g → g < pr.funcs.length → Returns .float (S t) g → Returns .float (S t') g)
    (hret : Returns .float (S (t + 1)) f) : Returns .float (S (t' + 1)) f := by
  obtain ⟨lf, sg, hlf, hsg⟩ := hS.entry hf t
  obtain ⟨sg', hsg', hparam⟩ := hS.other hsg t'
  obtain ⟨mid, hmid, hquiet, hnew⟩ := hS.step t f lf sg hlf hsg
  obtain ⟨mid', hmid', hquiet', hnew'⟩ := hS.step t' f lf sg' hlf hsg'
  obtain ⟨sg₁, hsg₁, hret⟩ := hret
  obtain rfl := Option.some.inj (hnew.symm.trans hsg₁)
  refine ⟨_, hnew', ?_⟩
  rw [hparam] at hquiet' ⊢
  have hlater := hS.later hmid hmid' fun g hg hlt => (hint g hg hlt).mp
  have hback := hS.later hmid' hmid fun g hg hlt => (hint g hg hlt).mpr
  refine ret_float_later ⟨hlater, hback, fun callee args tsg tsg' htsg htsg' htret => ?_⟩ rfl rfl hquiet hquiet' hret
  -- the target of a call is a function from `f` on
  obtain ⟨k, hk, htsg⟩ := Option.bind_eq_some_iff.mp htsg
  obtain ⟨k', hk', htsg'⟩ := Option.bind_eq_some_iff.mp htsg'
  obtain rfl : k = k' := Option.some.inj (hk.symm.trans hk')
  have hle : f ≤ k := directCallTarget_order hS.order rfl rfl hk
  have htsg := (hmid k hle).symm.trans htsg
  have htsg' := (hmid' k hle).symm.trans htsg'
  have hlt : k < pr.funcs.length := hS.length t ▸ (List.getElem?_eq_some_iff.mp htsg).1
  obtain ⟨sg₂, hsg₂, hret₂⟩ := hfloat k hle hlt ⟨tsg, htsg, htret⟩
  obtain rfl := Option.some.inj (htsg'.symm.trans hsg₂)
  exact hret₂

/-- After a round no return type is open. -/
theorem ret_ne_unset (hS : Course pr boxes S) {sg : FuncSig} (hsg : (S (t + 1))[f]? = some sg) : sg.retTy ≠ .unset := by
  have hlt : f < pr.funcs.length := hS.length (t + 1) ▸ (List.getElem?_eq_some_iff.mp hsg).1
  obtain ⟨lf, sg₀, hlf, hsg₀⟩ := hS.entry hlt t
  obtain ⟨mid, -, -, hnew⟩ := hS.step t f lf sg₀ hlf hsg₀
  obtain rfl := Option.some.inj (hnew.symm.trans hsg)
  exact computeRetTy_ne_unset

/-- The course comes to rest. -/
theorem rests (hS : Course pr boxes S) : ∃ M, ∀ t, M ≤ t → S (t + 1) = S t := by
  obtain ⟨M, -, hint⟩ := @eventually_settled (fun t f => Returns .int (S t) f) pr.funcs.length 0
    fun f hf t t' _ _ h hret => hS.int_step hf h hret
  obtain ⟨M', hM', hfloat⟩ := @eventually_settled (fun t f => Returns .float (S t) f) pr.funcs.length M
    fun f hf t t' ht ht' h hret => hS.float_step hf
      (fun g _ hlt => (hint t ht g hlt).trans (hint t' ht' g hlt).symm) h hret
  refine ⟨M' + 1, fun t ht => List.ext_getElem? fun f => ?_⟩
  obtain ⟨t, rfl⟩ := Nat.exists_eq_add_of_le' (show 1 ≤ t by omega)
  by_cases hf : f < pr.funcs.length
  · obtain ⟨-, sg, -, hsg⟩ := hS.entry hf (t + 1)
    obtain ⟨sg', hsg', hparam⟩ := hS.other hsg (t + 1 + 1)
    have hints : sg'.retTy = .int ↔ sg.retTy = .int := by
      have h := (hint (t + 1 + 1) (by omega) f hf).trans (hint (t + 1) (by omega) f hf).symm
      simpa [Returns, hsg, hsg'] using h
    have hfloats : sg'.retTy = .float ↔ sg.retTy = .float := by
      have h := (hfloat (t + 1 + 1) (by omega) f hf).trans (hfloat (t + 1) (by omega) f hf).symm
      simpa [Returns, hsg, hsg'] using h
    have hset := hS.ret_ne_unset hsg
    have hset' := hS.ret_ne_unset hsg'
    have hret : sg'.retTy = sg.retTy := by
      generalize sg'.retTy = ty' at *
      generalize sg.retTy = ty at *
      cases ty <;> cases ty' <;> simp_all
    rw [hsg, hsg']
    exact congrArg some (by cases sg; cases sg'; simp_all)
  · rw [List.getElem?_eq_none (by rw [hS.length]; omega), List.getElem?_eq_none (by rw [hS.length]; omega)]

end Course

/-- The rounds of inference come to one that changes nothing. -/
theorem inferRound_quiets (horder : FuncOrder pr.funcs) (hlen : s.sigs.length = pr.funcs.length) :
    Quiets (inferRound pr boxes) s := by
  have hlens : ∀ t, (after (inferRound pr boxes) t s).sigs.length = pr.funcs.length :=
    after_keeps (fun s hs => (inferRound_length s).trans hs) hlen
  obtain ⟨N, hN⟩ := @eventually_const (fun t => paramHeight (after (inferRound pr boxes) t s).sigs)
    fun t => inferRound_height _
  have hround : ∀ t, ((inferRound pr boxes (after (inferRound pr boxes) (N + t) s)).2 = true →
      (after (inferRound pr boxes) (N + t + 1) s).sigs ≠ (after (inferRound pr boxes) (N + t) s).sigs) ∧
      ∀ f, Recomputed pr boxes (after (inferRound pr boxes) (N + t) s).sigs
        (after (inferRound pr boxes) (N + t + 1) s).sigs f := by
    intro t
    refine quiet_round (hlens (N + t)) ?_
    calc paramHeight (after (inferRound pr boxes) (N + t + 1) s).sigs
        = paramHeight (after (inferRound pr boxes) N s).sigs := hN (N + t + 1) (by omega)
      _ = paramHeight (after (inferRound pr boxes) (N + t) s).sigs := (hN (N + t) (by omega)).symm
  have hS : Course pr boxes fun t => (after (inferRound pr boxes) (N + t) s).sigs :=
    ⟨horder, fun t => hlens (N + t), fun t => (hround t).2⟩
  obtain ⟨M, hM⟩ := hS.rests
  refine ⟨N + M, ?_⟩
  by_contra hchanged
  rw [Bool.not_eq_false] at hchanged
  exact (hround M).1 hchanged (hM M le_rfl)

/-- Inference has one result for all numbers of rounds from some on. -/
theorem inferSignatures_ends (horder : FuncOrder pr.funcs) (boxes : Boxes) :
    ∃ n s, ∀ k, n ≤ k → inferSignatures pr boxes k = some s := by
  have hlen : (initSignatures pr).sigs.length = pr.funcs.length := List.length_map _
  obtain ⟨n, s₀, -, -, hn⟩ := untilQuiet_of_quiets (P := fun s => s.sigs.length = pr.funcs.length)
    (fun s hs => (inferRound_length s).trans hs) hlen (@inferRound_quiets pr boxes _ horder hlen)
  exact ⟨n, finalize (inferRound pr boxes s₀).1, fun k hk => by rw [inferSignatures, hn k hk]; rfl⟩

/-! ## Rounds of settling -/

/-- The number of boxes. -/
def Boxes.count (boxes : Boxes) : ℕ := boxes.main.count true + (boxes.fn.map (List.count true)).sum

/-- A step drops boxes and notes it, or changes nothing, because `Q` holds of the boxes. -/
abbrev Drops (Q : Boxes → Prop) (step : IboxPass → IboxPass) : Prop := Narrows id Boxes.count Q step

/-- A target of an assignment is a variable with a box. -/
def targetIsIbox (c : CG) : AssignTarget → Bool
  | .var .varLocal idx => slotIsIbox c idx
  | .var .varUpval idx => upvalIsIbox c idx
  | _ => false

/-- A statement stores only integers in boxes. -/
def KeepsBoxes (c : CG) : Stmt → Prop
  | .localStmt localIdxs attribs values => ∀ x ∈ localIdxs.zipIdx, slotIsIbox c x.1 = true →
      x.2 < leadValues localIdxs values ∧ attribs[x.2]? ≠ some .close ∧ (values[x.2]?).any (exprIsInt c) = true
  | .assign targets values =>
    match targets, values with
    | [t], [v] => targetIsIbox c t = true → exprIsInt c v = true
    | _, _ => ∀ t ∈ targets, targetIsIbox c t = false
  | .localFunc localIdx _ => slotIsIbox c localIdx = false
  | .forNum localIdx _ _ _ _ => slotIsIbox c localIdx = false
  | .forGen localIdxs _ _ => ∀ slot ∈ localIdxs, slotIsIbox c slot = false
  | _ => True

/-- Dropping a box that is there leaves one less. -/
theorem iboxDrop_drops (g : Option ℕ) (slot : ℕ) :
    Drops (fun boxes => (boxes.row g).getD slot false = false) (iboxDrop · g slot) := by
  intro p
  dsimp only [iboxDrop, id]
  by_cases hset : (p.1.row g).getD slot false = true
  · rw [if_pos hset]
    refine Or.inr ?_
    rcases g with _ | f
    · exact ⟨rfl, Nat.add_lt_add_right (count_clear hset) _⟩
    · refine ⟨rfl, Nat.add_lt_add_left ?_ _⟩
      have hset : (p.1.fn.getD f []).getD slot false = true := hset
      rw [@List.getD_eq_getElem?_getD _ p.1.fn] at hset
      -- the row of the function is there, for it has a flag that is set
      rcases hrow : p.1.fn[f]? with _ | row
      · rw [hrow] at hset
        simp at hset
      · rw [hrow] at hset
        have hlt : (row.set slot false).count true < row.count true := count_clear hset
        have hcount : (p.1.fn.map (List.count true))[f]? = some (row.count true) := by rw [List.getElem?_map, hrow]; rfl
        have hsum := sum_set hcount ((row.set slot false).count true)
        have hmodify : p.1.fn.modify f (·.set slot false) = p.1.fn.set f (row.set slot false) := by
          rw [List.modify_eq_set_getElem?, hrow]; rfl
        show ((p.1.fn.modify f (·.set slot false)).map (List.count true)).sum < _
        rw [hmodify, List.map_set]
        omega
  · rw [if_neg hset]
    exact Or.inl ⟨rfl, rfl, Bool.eq_false_iff.mpr hset⟩

theorem iboxDropVar_drops (c : CG) (t : AssignTarget) :
    Drops (fun boxes => targetIsIbox { c with boxes } t = false) (iboxDropVar c · t) := by
  unfold iboxDropVar
  split
  · exact iboxDrop_drops _ _
  · next idx =>
    rcases horigin : c.curFuncIdx.bind fun k => resolveUpvalOrigin c.funcs k idx with _ | ⟨g, slot⟩
    · refine narrows_id fun boxes => ?_
      show upvalIsIbox { c with boxes } idx = false
      rw [upvalIsIbox, horigin]
    · refine (iboxDrop_drops g slot).mono fun boxes h => ?_
      show upvalIsIbox { c with boxes } idx = false
      rw [upvalIsIbox, horigin]
      exact h
  · next hlocal hupval =>
    refine narrows_id fun boxes => ?_
    rcases t with ⟨kind, idx⟩ | ⟨table, key⟩
    · rcases kind with _ | _ | _ | _
      · exact absurd rfl (hlocal idx)
      · exact absurd rfl (hupval idx)
      · rfl
      · rfl
    · rfl

/-- A statement drops the boxes that it stores something else in. -/
theorem iboxCheckStmt_drops (c : CG) (st : Stmt) :
    Drops (fun boxes => KeepsBoxes { c with boxes } st) (iboxCheckStmt c · st) := by
  cases st with
  | localStmt localIdxs attribs values =>
    refine narrows_foldl _ localIdxs.zipIdx fun x _ => ?_
    have hinner := narrows_ite (R := fun boxes => slotIsIbox { c with boxes } x.1 = true →
        x.2 < leadValues localIdxs values ∧ attribs[x.2]? ≠ some .close ∧
          (values[x.2]?).any (exprIsInt { c with boxes }) = true)
      (q := fun p : IboxPass => leadValues localIdxs values ≤ x.2 ∨ attribs[x.2]? = some .close ∨
        (!(values[x.2]?).any (exprIsInt { c with boxes := p.1 })) = true)
      (iboxDrop_drops c.curFuncIdx x.1) (narrows_id (Q := fun _ => True) fun _ => trivial)
      (fun p _ hdropped hset => absurd (hset.symm.trans hdropped) (by decide))
      (fun p hq _ _ => by
        rw [not_or, not_or, Nat.not_le, Bool.not_eq_true, Bool.not_eq_false'] at hq
        exact hq)
    exact narrows_ite (narrows_id (Q := fun _ => True) fun _ => trivial) hinner
      (fun p hq _ (hset : slotIsIbox { c with boxes := p.1 } x.1 = true) => by rw [hset] at hq; cases hq) fun p _ h => h
  | assign targets values =>
    have hall : Drops (fun boxes => ∀ t ∈ targets, targetIsIbox { c with boxes } t = false)
        (targets.foldl (iboxDropVar c) ·) := narrows_foldl _ targets fun t _ => iboxDropVar_drops c t
    -- but for an assignment of one value to one target, all targets lose their box
    rcases targets with _ | ⟨t, _ | ⟨t', targets⟩⟩ <;> rcases values with _ | ⟨v, _ | ⟨v', values⟩⟩ <;> try exact hall
    exact narrows_ite (narrows_id (Q := fun _ => True) fun _ => trivial) (iboxDropVar_drops c t)
      (fun p hint _ _ => hint) fun p _ hnone hset => absurd (hset.symm.trans hnone) (by decide)
  | localFunc localIdx func => exact iboxDrop_drops _ _
  | forNum localIdx start stop step body => exact iboxDrop_drops _ _
  | forGen localIdxs exprs body => exact narrows_foldl _ localIdxs fun slot _ => iboxDrop_drops _ slot
  | _ => exact narrows_id fun _ => trivial

/-- The statements of a body store only integers in boxes. -/
def BodyKeeps (pr : ParseResult) (s : Signatures) (b : Body) (paramSeed : List NumTy) (boxes : Boxes) : Prop :=
  ∀ st ∈ walkStmts b.block, KeepsBoxes (bodyContext pr boxes s.sigs b paramSeed) st

theorem iboxCheckBody_drops (s : Signatures) (b : Body) (paramSeed : List NumTy) :
    Drops (BodyKeeps pr s b paramSeed) (iboxCheckBody pr s.sigs b paramSeed) := fun p =>
  -- the context is that of the boxes in which the check begins
  narrows_foldl _ (walkStmts b.block) (fun st _ => iboxCheckStmt_drops (bodyContext pr p.1 s.sigs b paramSeed) st) p

/-- A function is checked with each of its entries. -/
def FuncKeeps (pr : ParseResult) (s : Signatures) (boxes : Boxes) (b : Body) : Prop :=
  BodyKeeps pr s b [] boxes ∧
    ((b.func.any fun f => s.hasSite.getD f false) = true → BodyKeeps pr s b (seedOf s.sigs b) boxes)

theorem iboxCheckFunc_drops (s : Signatures) (b : Body) :
    Drops (fun boxes => FuncKeeps pr s boxes b) (iboxCheckFunc pr s · b) := by
  unfold iboxCheckFunc
  split
  · exact ((iboxCheckBody_drops s b []).comp (iboxCheckBody_drops s b _)).mono fun _ h => ⟨h.1, fun _ => h.2⟩
  · next hsite => exact (iboxCheckBody_drops s b []).mono fun _ h => ⟨h, fun hs => absurd hs hsite⟩

/-- The bodies of a round of settling drop boxes or change nothing. -/
theorem settle_drops (pr : ParseResult) (s : Signatures) :
    Drops (fun boxes => ∀ b ∈ settleOrder pr, FuncKeeps pr s boxes b) ((settleOrder pr).foldl (iboxCheckFunc pr s) ·) :=
  narrows_foldl _ (settleOrder pr) fun b _ => iboxCheckFunc_drops s b

/-- A round that drops no box leaves them all. -/
theorem iboxRound_quiet (h : (iboxRound pr s boxes).2 = false) : iboxRound pr s boxes = (boxes, false) :=
  Prod.ext ((settle_drops pr s).quiet h).1 h

/-- Settling ends, in boxes that a further round leaves. If it drops one, there are less boxes after it. -/
theorem iboxSettle_ends (s : Signatures) (boxes : Boxes) :
    ∃ boxes' dropped, (∀ n, boxes.count < n → iboxSettle pr s n boxes = some (boxes', dropped)) ∧
      iboxRound pr s boxes' = (boxes', false) ∧ boxes'.count ≤ boxes.count ∧
      if dropped then boxes'.count < boxes.count else boxes' = boxes := by
  induction hcount : boxes.count using Nat.strong_induction_on generalizing boxes with
  | h m ih =>
    by_cases hchanged : (iboxRound pr s boxes).2 = true
    · have hlt : (iboxRound pr s boxes).1.count < boxes.count := (settle_drops pr s).lt hchanged
      obtain ⟨boxes', dropped, hn, hround, hle, -⟩ := ih _ (hcount ▸ hlt) (iboxRound pr s boxes).1 rfl
      refine ⟨boxes', true, fun n hm => ?_, hround, by omega, by rw [if_pos rfl]; omega⟩
      obtain ⟨n, rfl⟩ := Nat.exists_eq_add_of_le' (show 1 ≤ n by omega)
      rw [iboxSettle, if_pos hchanged, hn n (by omega)]
      rfl
    · have hquiet := iboxRound_quiet (Bool.eq_false_iff.mpr hchanged)
      refine ⟨boxes, false, fun n hm => ?_, hquiet, hcount.le, by simp⟩
      obtain ⟨n, rfl⟩ := Nat.exists_eq_add_of_le' (show 1 ≤ n by omega)
      rw [iboxSettle, if_neg hchanged, hquiet]

/-! ## The loop of the two -/

/-- What the analyses result in: boxes that settling leaves under the signatures, which are those that inference makes
with these boxes. -/
def Settled (pr : ParseResult) (r : Boxes × Signatures) : Prop :=
  iboxRound pr r.2 r.1 = (r.1, false) ∧ ∃ n, ∀ k, n ≤ k → inferSignatures pr r.1 k = some r.2

/-- The loop ends, for each turn but the last has dropped a box. -/
theorem alternate_ends (horder : FuncOrder pr.funcs) (hs : ∃ n, ∀ k, n ≤ k → inferSignatures pr boxes k = some s) :
    ∃ N r, (∀ k n, N ≤ k → N ≤ n → alternate pr k n boxes s = some r) ∧ Settled pr r := by
  induction hcount : boxes.count using Nat.strong_induction_on generalizing boxes s with
  | h m ih =>
    obtain ⟨boxes', dropped, hsettle, hround, hle, hdropped⟩ := @iboxSettle_ends pr s boxes
    rcases dropped with _ | _
    · obtain rfl : boxes' = boxes := hdropped
      refine ⟨boxes'.count + 1, (boxes', s), fun k n hk hn => ?_, hround, hs⟩
      obtain ⟨n, rfl⟩ := Nat.exists_eq_add_of_le' (show 1 ≤ n by omega)
      rw [alternate, hsettle k (by omega)]
      rfl
    · have hlt : boxes'.count < boxes.count := hdropped
      obtain ⟨n₁, s', hs'⟩ := inferSignatures_ends horder boxes'
      obtain ⟨N, r, hr, hsettled⟩ := ih _ (hcount ▸ hlt) ⟨n₁, hs'⟩ rfl
      refine ⟨boxes.count + n₁ + N + 1, r, fun k n hk hn => ?_, hsettled⟩
      obtain ⟨n, rfl⟩ := Nat.exists_eq_add_of_le' (show 1 ≤ n by omega)
      rw [alternate, hsettle k (by omega)]
      show (inferSignatures pr boxes' k).bind (fun s' => alternate pr k n boxes' s') = some r
      rw [hs' k (by omega)]
      exact hr k n (by omega) (by omega)

/-- Where `ibox_init` finds no captured local, no body has a box. -/
theorem iboxInit_count (h : (iboxInit pr).2 = false) : (iboxInit pr).1.count = 0 := by
  unfold iboxInit at h ⊢
  dsimp only at h ⊢
  split at h
  · cases h
  · next hnone =>
    rw [if_neg hnone]
    rfl

/-- For every program that the parser accepts the analyses end, with one result for all numbers of rounds from some
on. -/
theorem analyses_end {chunk : List RawStmt} {ib : Bool} (h : resolve chunk = .ok (pr, ib)) :
    ∃ n r, (∀ k, n ≤ k → inferAndSettle pr k = some r) ∧ Settled pr r := by
  have horder := resolve_funcOrder h
  obtain ⟨n, s, hs⟩ := inferSignatures_ends horder (iboxInit pr).1
  have hrun : ∀ k, n ≤ k → inferAndSettle pr k =
      if (iboxInit pr).2 then alternate pr k k (iboxInit pr).1 s else some ((iboxInit pr).1, s) := by
    intro k hk
    show (inferSignatures pr (iboxInit pr).1 k).bind (fun s => if (iboxInit pr).2 = true then
      alternate pr k k (iboxInit pr).1 s else some ((iboxInit pr).1, s)) = _
    rw [hs k hk]
    rfl
  rcases hibox : (iboxInit pr).2 with _ | _
  · -- without boxes there is none to drop
    have hempty := iboxInit_count hibox
    have hround : iboxRound pr s (iboxInit pr).1 = ((iboxInit pr).1, false) := by
      refine iboxRound_quiet (Bool.eq_false_iff.mpr fun hchanged => ?_)
      have hlt : (iboxRound pr s (iboxInit pr).1).1.count < (iboxInit pr).1.count := (settle_drops pr s).lt hchanged
      omega
    refine ⟨n, ((iboxInit pr).1, s), fun k hk => ?_, hround, n, hs⟩
    rw [hrun k hk, hibox]
    rfl
  · obtain ⟨N, r, hr, hsettled⟩ := alternate_ends horder ⟨n, hs⟩
    refine ⟨n + N, r, fun k hk => ?_, hsettled⟩
    rw [hrun k (by omega), hibox]
    exact hr k k (by omega) (by omega)

/-- `local n = 0 local m = 0 local function f(x) n = n + 1 m = nil return n end f(1)`. There are two boxes, and one
of them does not keep to integers. -/
def counter : List RawStmt :=
  [.localStmt [("n", .none)] [.int 0], .localStmt [("m", .none)] [.int 0],
    .localFunc "f" (.mk ["x"] .none [.assign [.name "n"] [.binop .add (.name "n") (.int 1)],
      .assign [.name "m"] [.nil], .returnStmt [.name "n"]]),
    .exprStmt (.call (.name "f") [.int 1])]

/-- Settling drops a box there. -/
theorem analyses_end_counter : ∃ pr ib, resolve counter = .ok (pr, ib) ∧
    ∃ n r, (∀ k, n ≤ k → inferAndSettle pr k = some r) ∧ Settled pr r := by
  obtain ⟨⟨pr, ib⟩, h⟩ : ∃ r, resolve counter = .ok r := by
    have hrun : (resolve counter).toBool = true := by decide +kernel
    exact Fallible.toBool_ok hrun
  exact ⟨pr, ib, h, analyses_end h⟩

end Lua2wasm.Analysis
