import Lua2wasm.Scope.Names

/-!
# One step of the walk

`Post` says what a successful computation of the resolver did: the invariant holds again, the tables
grew, the declared slots are the next ones, and in every program that completes the new state a
relation holds between the environments before and after. Posts compose (`Post.trans`), so the walk
over the tree only has to supply one for each of the parser's own steps. These are the lemmas of
this file.
-/

namespace Lua2wasm

open Fallible

/-- What a computation that leads from `p` to `p'` inside the functions `ids` did. It produced the
occurrences `vs`, declared the locals `slots`, and closed functions with `counts` slots. -/
structure Post (ids : List ℕ) (occ : List VarOcc) (occs : List (List VarOcc)) (p p' : Parser)
    (vs : List VarOcc) (slots counts : List ℕ) (L : ParseResult → Env → Env → Prop) : Prop where
  inv : Inv ids ((vs ++ occ) :: occs) p'
  grows : Grows p p'
  slotsEq : slots = List.range' p.frame.nextSlot slots.length
  next : p'.frame.nextSlot = p.frame.nextSlot + slots.length
  countsEq : p'.funcs.map (·.nLocals) = p.funcs.map (·.nLocals) ++ counts
  lex : ∀ F, Completes F ids p' → L F (p.env ids) (p'.env ids)

variable {ids : List ℕ} {occ occ' : List VarOcc} {occs : List (List VarOcc)} {p p' p₁ p₂ p₃ : Parser}
variable {u : Unit} {name : String} {e : Expr} {names : List (String × Attrib)} {F : ParseResult} {attrib : Attrib}
  {vs vs₁ vs₂ : List VarOcc} {slots slots₁ slots₂ counts counts₁ counts₂ : List ℕ}
  {L L' L₁ L₂ : ParseResult → Env → Env → Prop}

/-! ## Composition -/

@[refl] theorem Grows.refl (p : Parser) : Grows p p :=
  ⟨rfl, List.prefix_rfl, List.prefix_rfl, forall₂_frameGrows_refl _, List.suffix_rfl,
    List.prefix_rfl, rfl, rfl⟩

theorem forall₂_frameGrows_trans {fs gs hs : List FuncFrame} (h1 : List.Forall₂ FrameGrows fs gs)
    (h2 : List.Forall₂ FrameGrows gs hs) : List.Forall₂ FrameGrows fs hs := by
  induction h1 generalizing hs with
  | nil => exact h2
  | cons h _ ih =>
    cases h2 with
    | cons h' hs' => exact .cons (h.trans h') (ih hs')

theorem Grows.trans (h1 : Grows p₁ p₂) (h2 : Grows p₂ p₃) : Grows p₁ p₃ :=
  ⟨h2.curFn.trans h1.curFn, h1.funcs.trans h2.funcs, h1.globals.trans h2.globals,
    forall₂_frameGrows_trans h1.outer h2.outer, h1.locals.trans h2.locals,
    h1.upvalues.trans h2.upvalues, h2.isVararg.trans h1.isVararg,
    h2.varargSlot.trans h1.varargSlot⟩

/-- Completing a frame's extension completes the frame. -/
theorem FramesOk.mono {f f' : FuncFrame} {fs fs' : List FuncFrame}
    (h : FramesOk F ids (f' :: fs')) (hf : f.upvalues <+: f'.upvalues)
    (hfs : List.Forall₂ FrameGrows fs fs') : FramesOk F ids (f :: fs) := by
  induction hfs generalizing ids f f' with
  | nil =>
    cases ids with
    | nil => exact h
    | cons k ids =>
      obtain ⟨⟨lf, hlf, hparent, hpre⟩, hrest⟩ := h
      exact ⟨⟨lf, hlf, hparent, hf.trans hpre⟩, hrest⟩
  | cons hg _ ih =>
    cases ids with
    | nil => exact h
    | cons k ids =>
      obtain ⟨⟨lf, hlf, hparent, hpre⟩, hrest⟩ := h
      exact ⟨⟨lf, hlf, hparent, hf.trans hpre⟩, ih hrest hg.upvalues⟩

/-- An entry of a prefix. -/
theorem getElem?_extend {α : Type} {xs ys : List α} {i : ℕ} {x : α} (h : xs <+: ys)
    (hx : xs[i]? = some x) : ys[i]? = some x := by
  obtain ⟨zs, rfl⟩ := h
  rw [List.getElem?_append_left (List.getElem?_eq_some_iff.mp hx).1, hx]

/-- A program that completes a later state completes an earlier one. -/
theorem Completes.mono (h : Completes F ids p') (hg : Grows p p') : Completes F ids p :=
  ⟨fun k lf hk hopen => h.closed k lf (getElem?_extend hg.funcs hk) hopen,
    h.frames.mono hg.upvalues hg.outer, hg.globals.trans h.globals⟩

theorem Inv.mono (h : Inv ids (occ :: occs) p) (hocc : ∀ o ∈ occ, o ∈ occ') :
    Inv ids (occ' :: occs) p :=
  { h with frames := ⟨h.frames.1.mono hocc, h.frames.2⟩ }

/-- Two computations in sequence. -/
theorem Post.trans (h1 : Post ids occ occs p₁ p₂ vs₁ slots₁ counts₁ L₁)
    (h2 : Post ids (vs₁ ++ occ) occs p₂ p₃ vs₂ slots₂ counts₂ L₂) :
    Post ids occ occs p₁ p₃ (vs₁ ++ vs₂) (slots₁ ++ slots₂) (counts₁ ++ counts₂)
      (fun F e e'' => ∃ e', L₁ F e e' ∧ L₂ F e' e'') where
  inv := h2.inv.mono (by simp only [List.mem_append]; tauto)
  grows := h1.grows.trans h2.grows
  slotsEq := by
    rw [List.length_append, ← List.range'_append_1, ← h1.slotsEq, ← h1.next, ← h2.slotsEq]
  next := by
    rw [h2.next, h1.next, List.length_append, Nat.add_assoc]
  countsEq := by
    rw [h2.countsEq, h1.countsEq, List.append_assoc]
  lex F hF := ⟨p₂.env ids, h1.lex F (hF.mono h2.grows), h2.lex F hF⟩

/-- The relation between the environments may be weakened. -/
theorem Post.imp (h : Post ids occ occs p p' vs slots counts L)
    (hL : ∀ F e e', L F e e' → L' F e e') : Post ids occ occs p p' vs slots counts L' :=
  { h with lex := fun F hF => hL F _ _ (h.lex F hF) }

/-- A computation that changes nothing. -/
theorem Post.rfl' (h : Inv ids (occ :: occs) p) :
    Post ids occ occs p p [] [] [] (fun _ e e' => e' = e) :=
  ⟨h, .refl p, rfl, rfl, by simp, fun _ _ => rfl⟩

/-! ## Steps outside the scope tables -/

/-- Two states that differ at most in the tables for labels and gotos. -/
structure SameTables (p p' : Parser) : Prop where
  frame : p'.frame = p.frame
  outer : p'.outer = p.outer
  funcs : p'.funcs = p.funcs
  curFn : p'.curFn = p.curFn
  globals : p'.globals = p.globals
  inBounds : p'.inBounds = p.inBounds

/-- The later state is the earlier one with other tables for labels and gotos. -/
theorem SameTables.eq (h : SameTables p p') :
    p' = { p with
      labels := p'.labels, gotos := p'.gotos, fnLabels := p'.fnLabels, fnGotos := p'.fnGotos
      blkGotos := p'.blkGotos, blkNactvar := p'.blkNactvar } := by
  cases p
  cases p'
  obtain ⟨h1, h2, h3, h4, h5, h6⟩ := h
  simp only at h1 h2 h3 h4 h5 h6
  simp only [h1, h2, h3, h4, h5, h6]

theorem SameTables.inv (h : SameTables p p') (hp : Inv ids occs p) : Inv ids occs p' := by
  rw [h.eq]
  exact ⟨hp.curFn, hp.opened, hp.depth, hp.parents, hp.frames, hp.closed, hp.inBounds⟩

theorem SameTables.completes (h : SameTables p p') (hF : Completes F ids p') : Completes F ids p := by
  rw [h.eq] at hF
  exact ⟨hF.closed, hF.frames, hF.globals⟩

theorem SameTables.env (h : SameTables p p') : p'.env ids = p.env ids := by
  rw [h.eq]
  rfl

theorem SameTables.grows (h : SameTables p p') : Grows p p' := by
  rw [h.eq]
  exact ⟨rfl, List.prefix_rfl, List.prefix_rfl, forall₂_frameGrows_refl _, List.suffix_rfl,
    List.prefix_rfl, rfl, rfl⟩

/-- A step that only touches the tables for labels and gotos. -/
theorem SameTables.post (h : SameTables p p') (hp : Inv ids (occ :: occs) p) :
    Post ids occ occs p p' [] [] [] (fun _ e e' => e' = e) :=
  ⟨h.inv hp, h.grows, rfl, by rw [h.frame]; rfl, by rw [h.funcs, List.append_nil],
    fun _ _ => h.env⟩

/-- Such steps before and after a computation change nothing about it. -/
theorem Post.around (h : Post ids occ occs p₁ p₂ vs slots counts L) (h1 : SameTables p p₁)
    (h2 : SameTables p₂ p₃) : Post ids occ occs p p₃ vs slots counts L where
  inv := h2.inv h.inv
  grows := (h1.grows.trans h.grows).trans h2.grows
  slotsEq := by
    rw [← h1.frame]
    exact h.slotsEq
  next := by
    rw [h2.frame, ← h1.frame]
    exact h.next
  countsEq := by
    rw [h2.funcs, ← h1.funcs]
    exact h.countsEq
  lex F hF := by
    rw [h2.env, ← h1.env]
    exact h.lex F (h2.completes hF)

/-- `parse_block` around its statements. -/
theorem resolveBlock_post {stmts : ResolveM (List Stmt)} {body : Block}
    (h : resolveBlock stmts p = .ok (body, p'))
    (hs : ∀ p₁ p₂, SameTables p p₁ → stmts p₁ = .ok (body, p₂) →
      Post ids occ occs p₁ p₂ vs slots counts L) :
    Post ids occ occs p p' vs slots counts L := by
  obtain ⟨s, p₁, h1, h⟩ := bind_ok h
  obtain ⟨items, p₂, h2, h⟩ := bind_ok h
  obtain ⟨u, h3, rfl⟩ := bind_pure_ok h
  cases h1
  cases h3
  have hsame : SameTables p { p with
      blkGotos := p.gotos.length, blkNactvar := p.frame.locals.length } :=
    ⟨rfl, rfl, rfl, rfl, rfl, rfl⟩
  exact (hs _ _ hsame h2).around hsame ⟨rfl, rfl, rfl, rfl, rfl, rfl⟩

/-! ## Names -/

/-- The environment only depends on the active declarations. -/
theorem envOf_congr {f f' : FuncFrame} {fs fs' : List FuncFrame} (hf : f'.locals = f.locals)
    (hfs : List.Forall₂ FrameGrows fs fs') : envOf ids (f' :: fs') = envOf ids (f :: fs) := by
  induction hfs generalizing ids f f' with
  | nil => simp [envOf, hf]
  | cons hg _ ih =>
    change _ ++ envOf ids.tail _ = _ ++ envOf ids.tail _
    rw [hf, ih hg.locals]

/-- `resolveName` refers to what the scoping rule prescribes. -/
theorem resolveName_post {r : NameRef} (hp : Inv ids (occ :: occs) p) (h : resolveName name p = .ok (r, p')) :
    Post ids occ occs p p' [(r.kind, r.idx)] [] [] (fun F e e' => e' = e ∧
      Refers F ids.head? name (e.lookup name) r.kind r.idx r.ro) := by
  obtain ⟨⟨r₁, frame, outer, globals⟩, hr, h⟩ := except_bind_ok h
  cases h
  have hin := resolveInFrame_spec hr hp.depth hp.frames
  have henv : envOf ids (frame :: outer) = envOf ids (p.frame :: p.outer) :=
    envOf_congr hin.frameGrows.locals hin.outerGrows
  refine ⟨⟨hp.curFn, hp.opened, ?_, hp.parents, hin.inv, hp.closed, hp.inBounds⟩, ?_, rfl,
    hin.frameGrows.nextSlot, by simp, fun F hF => ⟨henv, ?_⟩⟩
  · rw [← hin.outerGrows.length_eq]
    exact hp.depth
  · obtain ⟨hlocals, -, hisVararg, hvarargSlot, hups⟩ := hin.frameGrows
    exact ⟨rfl, List.prefix_rfl, hin.globalsGrow, hin.outerGrows, hlocals ▸ List.suffix_rfl, hups,
      hisVararg, hvarargSlot⟩
  · have := hin.refers F hF.frames hF.globals
    rwa [FreeNames.lookup_init] at this

/-- A variable as an expression. -/
theorem resolveVar_post (hp : Inv ids (occ :: occs) p)
    (h : resolveVar name p = .ok (e, p')) : ∃ kind idx ro, e = .var name kind idx ro ∧
      Post ids occ occs p p' [(kind, idx)] [] [] (fun F env env' => env' = env ∧
        Refers F ids.head? name (env.lookup name) kind idx ro) := by
  obtain ⟨r, hr, rfl⟩ := bind_pure_ok h
  exact ⟨r.kind, r.idx, r.ro, rfl, resolveName_post hp hr⟩

/-! ## Declarations -/

theorem LocalSlot.Wf.mono {d : LocalSlot} {n m : ℕ} (h : d.Wf n) (hle : n ≤ m) : d.Wf m := by
  cases h with
  | loc h => exact .loc (Nat.lt_of_lt_of_le h hle)
  | glob => exact .glob
  | globAll => exact .globAll

/-- The innermost frame may get other declarations and more slots. -/
theorem Inv.setFrame (hp : Inv ids (occ :: occs) p) {f : FuncFrame}
    (hwf : ∀ d ∈ f.locals, d.Wf f.nextSlot) (hnext : p.frame.nextSlot ≤ f.nextSlot)
    (hcap : f.captured = p.frame.captured) (hups : f.upvalues = p.frame.upvalues) :
    Inv ids (occ :: occs) { p with frame := f } := by
  obtain ⟨hf, hfs⟩ := hp.frames
  refine ⟨hp.curFn, hp.opened, hp.depth, hp.parents, ⟨⟨hwf, ?_, ?_, ?_, ?_, ?_⟩, hups ▸ hfs⟩,
    hp.closed, hp.inBounds⟩
  · rw [hcap]
    exact hf.size
  · rw [hcap]
    exact fun hle => hf.inBounds (Nat.le_trans hnext hle)
  · rw [hcap]
    exact fun s hs => Nat.lt_of_lt_of_le (hf.handedOut s hs) hnext
  · rw [hcap]
    exact hf.marked
  · rw [hups]
    exact hf.used

/-- `declareLocal` hands out the next slot. -/
theorem declareLocal_ok {msg name : String} {slot : ℕ} (h : declareLocal msg name attrib p = .ok (slot, p')) :
    slot = p.frame.nextSlot ∧ p' = { p with frame := { p.frame with
      locals := ⟨some name, some p.frame.nextSlot, attrib, .declLocal⟩ :: p.frame.locals
      nextSlot := p.frame.nextSlot + 1 } } := by
  unfold declareLocal frameDeclare at h
  split at h
  · next slot' frame hd =>
    split at hd
    · cases hd
    · cases hd
      cases h
      refine ⟨rfl, ?_⟩
      split
      · next hattr => rw [hattr]
      · rfl
  · cases h

/-- A local comes into scope. -/
theorem declareLocal_post {msg name : String} {slot : ℕ}
    (hp : Inv ids (occ :: occs) p) (h : declareLocal msg name attrib p = .ok (slot, p')) :
    Post ids occ occs p p' [] [slot] [] (fun _ e e' => e' = e.declareLocals ids.head? [name] [slot]) := by
  obtain ⟨rfl, rfl⟩ := declareLocal_ok h
  refine ⟨hp.setFrame ?_ (Nat.le_succ _) rfl rfl, ?_, rfl, rfl, by simp, fun F _ => rfl⟩
  · rintro d hd
    rcases List.mem_cons.mp hd with rfl | hd
    · exact .loc (Nat.lt_succ_self _)
    · exact (hp.frames.1.wf d hd).mono (Nat.le_succ _)
  · exact ⟨rfl, List.prefix_rfl, List.prefix_rfl, forall₂_frameGrows_refl _,
      List.suffix_cons _ _, List.prefix_rfl, rfl, rfl⟩

theorem Env.declareLocals_cons (env : Env) (fn : Option ℕ) (name : String) (names : List String)
    (slot : ℕ) (slots : List ℕ) : env.declareLocals fn (name :: names) (slot :: slots) =
      (env.declareLocals fn [name] [slot]).declareLocals fn names slots := by
  simp [Env.declareLocals]

/-- The locals of a declaration come into scope in order. -/
theorem declareLocals_post {slots : List ℕ}
    (hp : Inv ids (occ :: occs) p) (h : declareLocals names p = .ok (slots, p')) :
    Post ids occ occs p p' [] slots [] (fun _ e e' => slots.length = names.length ∧
      e' = e.declareLocals ids.head? (names.map (·.1)) slots) := by
  induction names generalizing p slots occ with
  | nil =>
    obtain ⟨rfl, rfl⟩ := pure_ok h
    exact (Post.rfl' hp).imp fun _ _ _ he => ⟨rfl, he⟩
  | cons na names ih =>
    obtain ⟨slot, p₁, h1, h⟩ := bind_ok h
    obtain ⟨slots', h2, rfl⟩ := bind_pure_ok h
    have post := declareLocal_post hp h1
    refine (post.trans (ih post.inv h2)).imp ?_
    rintro F e e' ⟨e₁, rfl, hlen, rfl⟩
    exact ⟨by simp [hlen], (Env.declareLocals_cons _ _ _ _ _ _).symm⟩

/-- The slots that a declaration hands out. -/
theorem declareLocals_slots (names : List (String × Attrib)) :
    Yields (declareLocals names) fun slots => slots.length = names.length := by
  induction names with
  | nil => exact yields_pure rfl
  | cons na names ih =>
    refine yields_after fun slot => ih.bind fun slots hslots => yields_pure ?_
    simp [hslots]

/-- A global declaration comes into scope. -/
theorem declareGlobal_post {name : Option String}
    (hp : Inv ids (occ :: occs) p) (h : declareGlobal name attrib p = .ok (u, p')) :
    Post ids occ occs p p' [] [] [] (fun _ e e' => e' = (match name with
      | some n => .glob n (attrib = .const)
      | none => .globAll (attrib = .const)) :: e) := by
  unfold declareGlobal frameDeclareGlobal at h
  split at h
  · next frame hd =>
    split at hd
    · cases hd
    · cases hd
      cases h
      refine ⟨hp.setFrame ?_ (Nat.le_refl _) rfl rfl, ?_, rfl, rfl, by simp, fun F _ => ?_⟩
      · rintro d hd
        rcases List.mem_cons.mp hd with rfl | hd
        · cases name
          · exact .globAll
          · exact .glob
        · exact hp.frames.1.wf d hd
      · exact ⟨rfl, List.prefix_rfl, List.prefix_rfl, forall₂_frameGrows_refl _,
          List.suffix_cons _ _, List.prefix_rfl, rfl, rfl⟩
      · cases name <;> rfl
  · cases h

/-- The names of a global statement come into scope in order. -/
theorem declareGlobals_post (hp : Inv ids (occ :: occs) p) (h : declareGlobals names p = .ok (u, p')) :
    Post ids occ occs p p' [] [] [] (fun _ e e' => e' = e.declareGlobals names) := by
  induction names generalizing p with
  | nil =>
    obtain ⟨-, rfl⟩ := pure_ok h
    exact Post.rfl' hp
  | cons na names ih =>
    obtain ⟨u, p₁, h1, h⟩ := bind_ok h
    have post := declareGlobal_post hp h1
    refine (post.trans (ih post.inv h)).imp ?_
    rintro F e e' ⟨e₁, rfl, rfl⟩
    simp [Env.declareGlobals]

/-- A name gets its entry in the globals table. -/
theorem declareGlobalIndex_post {g : ℕ} (hp : Inv ids (occ :: occs) p)
    (h : declareGlobalIndex name p = .ok (g, p')) :
    Post ids occ occs p p' [] [] [] (fun F e e' => e' = e ∧ F.globals[g]? = some name) := by
  obtain ⟨⟨g', globals⟩, hg, h⟩ := except_bind_ok h
  cases h
  obtain ⟨hpre, hget⟩ := globalIndex_spec hg
  exact ⟨⟨hp.curFn, hp.opened, hp.depth, hp.parents, hp.frames, hp.closed, hp.inBounds⟩,
    ⟨rfl, List.prefix_rfl, hpre, forall₂_frameGrows_refl _, List.suffix_rfl, List.prefix_rfl, rfl,
      rfl⟩, rfl, rfl, by simp, fun F hF => ⟨rfl, getElem?_extend hF.globals hget⟩⟩

/-- The names of a global statement get their entries in order. -/
theorem globalIndices_post {gs : List ℕ} (hp : Inv ids (occ :: occs) p) (h : globalIndices names p = .ok (gs, p')) :
    Post ids occ occs p p' [] [] [] (fun F e e' => e' = e ∧ gs.map (F.globals[·]?) = names.map (some ·.1)) := by
  induction names generalizing p gs with
  | nil =>
    obtain ⟨rfl, rfl⟩ := pure_ok h
    exact (Post.rfl' hp).imp fun _ _ _ he => ⟨he, rfl⟩
  | cons na names ih =>
    obtain ⟨g, p₁, h1, h⟩ := bind_ok h
    obtain ⟨gs', h2, rfl⟩ := bind_pure_ok h
    have post := declareGlobalIndex_post hp h1
    refine (post.trans (ih post.inv h2)).imp ?_
    rintro F e e' ⟨e₁, ⟨rfl, hg⟩, rfl, hgs⟩
    exact ⟨rfl, by simp [hg, hgs]⟩

/-! ## Scopes -/

/-- Leaving a scope restores the declarations that were active where it began. -/
theorem Post.rewind (h : Post ids occ occs p p₁ vs slots counts L)
    (hr : scopeRewind p.frame.locals.length p₁ = .ok (u, p₂)) :
    Post ids occ occs p p₂ vs slots counts (fun F e e' => e' = e ∧ ∃ e₁, L F e e₁) := by
  cases hr
  obtain ⟨ds, hds⟩ := h.grows.locals
  have hlocals : (frameRewind p₁.frame p.frame.locals.length).locals = p.frame.locals := by
    simp [frameRewind, ← hds]
  have hwf : ∀ d ∈ (frameRewind p₁.frame p.frame.locals.length).locals,
      d.Wf (frameRewind p₁.frame p.frame.locals.length).nextSlot := by
    rw [hlocals]
    intro d hd
    exact h.inv.frames.1.wf d (hds ▸ List.mem_append_right _ hd)
  have hinv := h.inv.setFrame hwf (Nat.le_refl _) rfl rfl
  have hg := h.grows
  refine ⟨⟨hinv.curFn, hinv.opened, hinv.depth, hinv.parents, hinv.frames, hinv.closed,
    hinv.inBounds⟩, ⟨hg.curFn, hg.funcs, hg.globals, hg.outer, ?_, hg.upvalues, hg.isVararg,
    hg.varargSlot⟩, h.slotsEq, h.next, h.countsEq, fun F hF => ⟨?_, _, h.lex F ?_⟩⟩
  · exact ⟨[], hlocals.symm⟩
  · exact envOf_congr hlocals hg.outer
  · exact ⟨hF.closed, hF.frames.congr rfl, hF.globals⟩

/-! ## Targets and gotos -/

theorem checkAssignable_ok (h : checkAssignable e p = .ok (u, p')) : p' = p := by
  unfold checkAssignable at h
  split at h
  · split at h
    · cases h
    · cases h
      rfl
  · cases h
    rfl

theorem checkFunctionName_ok {plain : Bool} (h : checkFunctionName plain e p = .ok (u, p')) : p' = p := by
  unfold checkFunctionName at h
  split at h
  · exact checkAssignable_ok h
  · exact (pure_ok h).2.symm

theorem exprToTarget_ok {t : AssignTarget} (h : exprToTarget e p = .ok (t, p')) :
    p' = p ∧ TargetOf e t ∧ targetVars t = exprVars e := by
  unfold exprToTarget at h
  split at h
  · obtain ⟨rfl, rfl⟩ := pure_ok h
    exact ⟨rfl, .var, rfl⟩
  · obtain ⟨rfl, rfl⟩ := pure_ok h
    exact ⟨rfl, .index, rfl⟩
  · cases h

theorem declareGoto_same (h : declareGoto name p = .ok (u, p')) : SameTables p p' := by
  unfold declareGoto at h
  split at h <;> cases h <;> exact ⟨rfl, rfl, rfl, rfl, rfl, rfl⟩

theorem declareLabel_same {endsBlock : Bool} (h : declareLabel name endsBlock p = .ok (u, p')) : SameTables p p' := by
  obtain ⟨gotos, -, h⟩ := except_bind_ok h
  cases h
  exact ⟨rfl, rfl, rfl, rfl, rfl, rfl⟩

end Lua2wasm
