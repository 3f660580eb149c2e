import Lua2wasm.Codegen.Stmt

/-!
# Lexical invariants of emitted code

A lexical invariant says what holds of a state wherever a statement with given declarations in scope
is about to execute. `LexInv` collects what the single instructions have to preserve for that, and
`emitCloseBody_triple` is the induction over the syntax tree: if each instruction does its part, the
emitted code of a whole function body keeps the invariant along all its branches.

The parts that are not about one scope are these. A jump to a label passes through a state in which
the to-be-closed stack is cut to the label's height (`cut`). A label that ends its block may be
reached past declarations, and then only the declarations outside the block are known to hold until
the block is left (`leaving`).
-/

namespace Lua2wasm

open Structured Fallible

/-- The instructions of ordinary statements: all but those that close, branch or handle errors. -/
def Act.isPlain : Act → Bool
  | .closeUpto _ | .setNext _ _ | .jump _ | .caught | .closeError => false
  | .tbcPush b => b.isClose
  | _ => true

/-- The result `r` of an instruction is fine: what it establishes is `ok`, and an error or a stop
leaves the state as `failed` and `paused` say. It does not trap. -/
def Ends {σ : Type} (ok failed paused : σ → Prop) (r : Signal × σ) : Prop :=
  match r.1 with
  | .ok => ok r.2
  | .err => failed r.2
  | .trap => False
  | .stop => paused r.2

theorem Ends.mono {σ : Type} {ok ok' failed failed' paused : σ → Prop} {r : Signal × σ}
    (h : Ends ok failed paused r) (hok : ∀ s, ok s → ok' s) (hf : ∀ s, failed s → failed' s) :
    Ends ok' failed' paused r := by
  unfold Ends at h ⊢
  cases hr : r.1 <;> simp only [hr] at h ⊢
  · exact hok _ h
  · exact hf _ h
  · exact h

/-- The height of the to-be-closed stack in a scope. -/
def height (scope : LexScope) : ℕ := (closers scope).length

/-- What the instructions preserve. `cap` bounds the to-be-closed stack. -/
structure LexInv {σ : Type} (m : Machine Placed ℕ σ) (cap : ℕ) where
  /-- The invariant where the given declarations are in scope. -/
  holds : LexScope → σ → Prop
  /-- The stack of `scope` has been cut down to a height for a jump. -/
  cut : LexScope → ℕ → σ → Prop
  /-- The block in the given scope is being left, with at most so many entries on the stack. -/
  leaving : LexScope → ℕ → σ → Prop
  /-- An error left the body. -/
  failed : σ → Prop
  /-- The handler closed the stack and the error goes on. -/
  aborted : σ → Prop
  /-- The run was stopped. -/
  paused : σ → Prop
  paused_holds : ∀ {sc s}, holds sc s → paused s
  paused_cut : ∀ {sc k s}, cut sc k s → paused s
  paused_leaving : ∀ {sc k s}, leaving sc k s → paused s
  paused_failed : ∀ {s}, failed s → paused s
  plain : ∀ {sc a s}, a.isPlain → height (a.binds ++ sc) ≤ cap → holds sc s →
    Ends (holds (a.binds ++ sc)) failed paused (m.op ⟨sc, a⟩ s)
  close : ∀ {sc sc' k s}, holds sc s → Ends (cut sc k) failed paused (m.op ⟨sc', .closeUpto k⟩ s)
  cut_of_le : ∀ {sc k s}, height sc ≤ k → holds sc s → cut sc k s
  holds_of_cut : ∀ {sc sc' s}, sc' <:+ sc → cut sc (height sc') s → holds sc' s
  jump : ∀ {sc lab s}, lab.outer <:+ sc → lab.outer <:+ lab.scope →
    lab.closeBase = height lab.scope → cut sc lab.closeBase s →
    Ends (fun s' => m.index lab.blockDispatchId s' = lab.segmentIdx ∧
      if lab.endsBlock then leaving lab.outer (height lab.scope) s' else holds lab.scope s')
      failed paused (m.op ⟨sc, .jump lab⟩ s)
  leave : ∀ {sc outer s}, outer <:+ sc → holds sc s → leaving outer (height sc) s
  leaving_mono : ∀ {outer k k' s}, k ≤ k' → leaving outer k s → leaving outer k' s
  close_leaving : ∀ {sc outer k s}, leaving outer k s →
    Ends (holds outer) failed paused (m.op ⟨sc, .closeUpto (height outer)⟩ s)
  holds_of_leaving : ∀ {outer k s}, k ≤ height outer → leaving outer k s → holds outer s
  setNext_holds : ∀ {sc sc' bid k s}, holds sc s →
    Ends (fun s' => m.index bid s' = k ∧ holds sc s') failed paused (m.op ⟨sc', .setNext bid k⟩ s)
  setNext_leaving : ∀ {sc sc' bid k n s}, leaving sc n s →
    Ends (fun s' => m.index bid s' = k ∧ leaving sc n s') failed paused
      (m.op ⟨sc', .setNext bid k⟩ s)
  caught : ∀ {sc s}, failed s → Ends failed (fun _ => False) paused (m.op ⟨sc, .caught⟩ s)
  closeError : ∀ {sc s}, failed s →
    Ends (fun _ => False) aborted paused (m.op ⟨sc, .closeError⟩ s)

variable {σ : Type} {m : Machine Placed ℕ σ} {cap : ℕ}

/-! ## Static facts about environments -/

/-- What is true of every label in an environment, before the counters `c`. -/
structure LabelInfo.WF (lab : LabelInfo) (scope : LexScope) (c : Cg) : Prop where
  bid : lab.blockDispatchId < c.nextLabelId
  closeBase : lab.closeBase = height lab.scope
  outer : lab.outer <:+ scope
  outer_scope : lab.outer <:+ lab.scope

/-- What is true of every break target. -/
structure BreakTarget.WF (t : BreakTarget) (scope : LexScope) (c : Cg) : Prop where
  label : t.label < c.nextLabel
  closeCount : t.closeCount = height t.scope
  scope : t.scope <:+ scope

/-- The counts agree with the scope, the labels are older than the counters, and what the
environment refers to lies further out. -/
structure EmitEnv.WF (env : EmitEnv) (c : Cg) : Prop where
  running : env.running = height env.scope
  closeCount : c.closeCount = env.running
  breaks : ∀ t ∈ env.breaks, t.WF env.scope c
  labels : ∀ labs ∈ env.labels, ∀ lab ∈ labs, lab.WF env.scope c

/-- The counters of labels only grow. -/
structure Cg.Grows (c c' : Cg) : Prop where
  nextLabel : c.nextLabel ≤ c'.nextLabel
  nextLabelId : c.nextLabelId ≤ c'.nextLabelId

theorem Cg.Grows.refl (c : Cg) : c.Grows c := ⟨le_refl _, le_refl _⟩

theorem Cg.Grows.trans {a b c : Cg} (h : a.Grows b) (h' : b.Grows c) : a.Grows c :=
  ⟨h.1.trans h'.1, h.2.trans h'.2⟩

/-- Counters that grew, and a scope that grew, keep an environment in order. -/
theorem EmitEnv.WF.extend {env : EmitEnv} {c c' : Cg} (h : env.WF c) (hg : c.Grows c')
    (binds : LexScope) (hc : c'.closeCount = c.closeCount + height binds) :
    EmitEnv.WF { env with
      running := env.running + height binds, scope := binds ++ env.scope } c' where
  running := by
    show env.running + height binds = height (binds ++ env.scope)
    rw [h.running]
    simp [height, closers, Nat.add_comm]
  closeCount := by
    show c'.closeCount = env.running + height binds
    rw [hc, h.closeCount]
  breaks t ht :=
    have w := h.breaks t ht
    ⟨w.label.trans_le hg.nextLabel, w.closeCount, w.scope.trans (List.suffix_append _ _)⟩
  labels labs hl lab hlab :=
    have w := h.labels labs hl lab hlab
    ⟨w.bid.trans_le hg.nextLabelId, w.closeBase, w.outer.trans (List.suffix_append _ _),
      w.outer_scope⟩

theorem EmitEnv.WF.grow {env : EmitEnv} {c c' : Cg} (h : env.WF c) (hg : c.Grows c')
    (hc : c'.closeCount = c.closeCount) : env.WF c' :=
  h.extend hg [] (by simpa [height, closers] using hc)

/-- What a statement declares raises the stack by its own `<close>` declarations. -/
theorem Stmt.height_binds (s : Stmt) : height s.binds = s.ownClose := by
  have hslots (l : List ℕ) : closers (l.map Binder.slot) = [] := by
    simp [closers, Binder.isClose, List.filter_eq_nil_iff]
  have hcloses (l : List ℕ) : closers (l.map Binder.close) = l.map Binder.close := by
    simp [closers, Binder.isClose, List.filter_eq_self]
  unfold height
  cases s with
  | localStmt localIdxs attribs values =>
    simp only [Stmt.binds, Stmt.ownClose, closers, List.filter_append, List.filter_reverse,
      List.length_append, List.length_reverse]
    have h₁ := hslots localIdxs
    have h₂ := hcloses (closeSlots localIdxs attribs)
    unfold closers at h₁ h₂
    rw [h₁, h₂]
    simp
  | localFunc => rfl
  | _ => rfl

theorem EmitEnv.WF.after {env : EmitEnv} {c c' : Cg} (h : env.WF c) (s : Stmt) (hg : c.Grows c')
    (hc : c'.closeCount = c.closeCount + s.ownClose) : (env.after s).WF c' := by
  have := h.extend hg s.binds (by rw [hc, Stmt.height_binds])
  rwa [Stmt.height_binds] at this

/-- The scope after a list of statements extends the scope before it. -/
theorem EmitEnv.suffix_afterAll (env : EmitEnv) (b : List Stmt) :
    env.scope <:+ (env.afterAll b).scope := by
  induction b generalizing env with
  | nil => exact List.suffix_refl _
  | cons s rest ih => exact (List.suffix_append _ _).trans (ih (env.after s))

/-- The stack height after a block is the one before it and the block's own declarations. -/
theorem EmitEnv.height_afterAll (env : EmitEnv) (b : List Stmt) :
    height (env.afterAll b).scope = height env.scope + countBlockClose b := by
  induction b generalizing env with
  | nil => simp [EmitEnv.afterAll, countBlockClose]
  | cons s rest ih =>
    have hs := Stmt.height_binds s
    have happ : height (env.after s).scope = s.ownClose + height env.scope := by
      unfold height at hs ⊢
      simp [EmitEnv.after, closers, ← hs]
    rw [EmitEnv.afterAll, ih, happ]
    simp [countBlockClose]
    omega

/-! ## Ways of leaving -/

/-- What holds at a label when a goto reaches it. -/
def LexInv.atLabel (I : LexInv m cap) (lab : LabelInfo) : σ → Prop :=
  if lab.endsBlock then I.leaving lab.outer (height lab.scope) else I.holds lab.scope

/-- How the code of a statement may be left, other than by falling through. -/
def LexInv.exits (I : LexInv m cap) (breaks : List BreakTarget) (labels : List (List LabelInfo)) :
    Outcome WatLabel → σ → Prop
  | .br (.brk n), s => ∃ t ∈ breaks, t.label = n ∧ I.holds t.scope s
  | .br (.dispatch bid), s => ∃ labs ∈ labels, ∃ lab ∈ labs,
      lab.blockDispatchId = bid ∧ m.index bid s = lab.segmentIdx ∧ I.atLabel lab s
  | .ret, s => I.holds [] s
  | .err, s => I.failed s
  | .stop, s => I.paused s
  | _, _ => False

/-- A postcondition that allows errors and stops. -/
structure LexInv.Fits (I : LexInv m cap) (Q : Outcome WatLabel → σ → Prop) : Prop where
  err : ∀ s, I.failed s → Q .err s
  stop : ∀ s, I.paused s → Q .stop s

variable {I : LexInv m cap} {Q : Outcome WatLabel → σ → Prop} {P R : σ → Prop}
variable {env : EmitEnv} {c c' : Cg} {code : List WatCode}
  {rest : List WatCode} {sc : LexScope}

theorem LexInv.exits_fits (I : LexInv m cap) (breaks : List BreakTarget)
    (labels : List (List LabelInfo)) : I.Fits (I.exits breaks labels) :=
  ⟨fun _ h => h, fun _ h => h⟩

theorem LexInv.Fits.onNext (h : I.Fits Q) (R : σ → Prop) : I.Fits (onNext R Q) := by
  constructor
  · intro s hs
    simpa [Structured.onNext] using h.err s hs
  · intro s hs
    simpa [Structured.onNext] using h.stop s hs

theorem LexInv.Fits.onBr (h : I.Fits Q) (l : WatLabel) (R : σ → Prop) : I.Fits (onBr l R Q) := by
  constructor
  · intro s hs
    simpa [Structured.onBr] using h.err s hs
  · intro s hs
    simpa [Structured.onBr] using h.stop s hs

theorem LexInv.paused_atLabel (I : LexInv m cap) {lab : LabelInfo} {s : σ}
    (h : I.atLabel lab s) : I.paused s := by
  unfold LexInv.atLabel at h
  split at h
  · exact I.paused_leaving h
  · exact I.paused_holds h

/-! ## Instructions -/

/-- An instruction before the rest, where `F` holds after an error of it. -/
theorem op_cons_of {a : Placed} {F : σ → Prop} (hF : ∀ s, F s → Q .err s)
    (hS : ∀ s, I.paused s → Q .stop s) (hP : ∀ s, P s → I.paused s)
    (h : ∀ s, P s → Ends R F I.paused (m.op a s)) (hrest : Triple m R rest Q) :
    Triple m P (.op a :: rest) Q := by
  refine Triple.cons (fun s hs => hS s (hP s hs)) (TripleOne.op ?_) hrest
  intro s hs
  have hr := h s hs
  unfold Ends at hr
  unfold onNext
  cases hsig : (m.op a s).1 with
  | trap => simp [hsig] at hr
  | ok => simpa [hsig, Signal.outcome] using hr
  | err =>
    have : F (m.op a s).2 := by simpa [hsig] using hr
    simpa [Signal.outcome] using hF _ this
  | stop =>
    have : I.paused (m.op a s).2 := by simpa [hsig] using hr
    simpa [Signal.outcome] using hS _ this

/-- An instruction before the rest. -/
theorem op_cons {a : Placed} (hQ : I.Fits Q) (hP : ∀ s, P s → I.paused s)
    (h : ∀ s, P s → Ends R I.failed I.paused (m.op a s)) (hrest : Triple m R rest Q) :
    Triple m P (.op a :: rest) Q :=
  op_cons_of hQ.err hQ.stop hP h hrest

/-- An ordinary instruction before the rest. -/
theorem plain_cons (env : EmitEnv) {a : Act} (hQ : I.Fits Q) (ha : a.isPlain)
    (hcap : height (a.binds ++ env.scope) ≤ cap)
    (hrest : Triple m (I.holds (a.binds ++ env.scope)) rest Q) :
    Triple m (I.holds env.scope) (env.op a :: rest) Q :=
  op_cons hQ (fun _ => I.paused_holds) (fun _ => I.plain ha hcap) hrest

/-- A close for a jump or an exit, emitted only if there is something to close. -/
theorem closeDown_append (env : EmitEnv) {n k : ℕ} (hQ : I.Fits Q) (hn : n = height env.scope)
    (hrest : Triple m (I.cut env.scope k) rest Q) :
    Triple m (I.holds env.scope) (env.closeDown n k ++ rest) Q := by
  unfold EmitEnv.closeDown
  split
  · exact op_cons hQ (fun _ => I.paused_holds) (fun _ => I.close) hrest
  · rename_i hle
    exact hrest.pre fun s hs => I.cut_of_le (by omega) hs

/-- Leaving scopes that hold no to-be-closed value needs no code. -/
theorem LexInv.holds_weaken (I : LexInv m cap) {sc sc' : LexScope} {s : σ} (h : sc' <:+ sc)
    (hh : height sc ≤ height sc') (hs : I.holds sc s) : I.holds sc' s :=
  I.holds_of_cut h (I.cut_of_le hh hs)

/-- The close at the end of a block. -/
theorem closeDown_leaving (inner : EmitEnv) (n : ℕ) (hQ : I.Fits Q) (hrest : Triple m (I.holds env.scope) rest Q) :
    Triple m (I.leaving env.scope n) (inner.closeDown n (height env.scope) ++ rest) Q := by
  unfold EmitEnv.closeDown
  split
  · exact op_cons hQ (fun _ => I.paused_leaving) (fun _ => I.close_leaving) hrest
  · rename_i hle
    exact hrest.pre fun s hs => I.holds_of_leaving (by omega) hs

/-! ## Statements without blocks -/

theorem height_append (binds sc : LexScope) : height (binds ++ sc) = height binds + height sc := by
  simp [height, closers]

theorem height_slots (l : List ℕ) : height ((l.map Binder.slot).reverse) = 0 := by
  simp [height, closers, Binder.isClose, List.filter_reverse, List.filter_eq_nil_iff]

/-- The registrations of a declaration, in order. -/
theorem tbcPushes_triple (slots : List ℕ) (env : EmitEnv) (hQ : I.Fits Q)
    (hcap : height env.scope + slots.length ≤ cap) :
    Triple m (I.holds env.scope) (tbcPushes env slots)
      (onNext (I.holds ((slots.map .close).reverse ++ env.scope)) Q) := by
  induction slots generalizing env with
  | nil => exact Triple.nil fun s hs => by simpa [onNext] using hs
  | cons slot slots ih =>
    simp only [List.length_cons] at hcap
    have hone : height (.close slot :: env.scope) = height env.scope + 1 := by
      have h := height_append [.close slot] env.scope
      have h₁ : height [.close slot] = 1 := rfl
      rw [List.singleton_append] at h
      omega
    have := ih { env with scope := .close slot :: env.scope } (by
      show height (.close slot :: env.scope) + slots.length ≤ cap
      omega)
    refine plain_cons _ (hQ.onNext _) rfl (by
      show height (.close slot :: env.scope) ≤ cap
      omega) ?_
    simpa [Act.binds] using this

/-- What is proved of the emission of a statement: the counters grow as the statement's own
declarations say, and the code takes the invariant to the scope after the statement. -/
def StmtSpec (I : LexInv m cap) (s : Stmt) (env : EmitEnv) (c : Cg) (code : List WatCode)
    (c' : Cg) : Prop :=
  c.Grows c' ∧ c'.closeCount = c.closeCount + s.ownClose ∧
    Triple m (I.holds env.scope) code
      (onNext (I.holds (s.binds ++ env.scope)) (I.exits env.breaks env.labels))

theorem emitLocalStmt_spec {localIdxs : List ℕ} {attribs : List Attrib} {values : List Expr}
    (h : emitLocalStmt env localIdxs attribs values c = .ok (code, c')) (hw : env.WF c)
    (hcap : env.running + (Stmt.localStmt localIdxs attribs values).countClose ≤ cap) :
    StmtSpec I (.localStmt localIdxs attribs values) env c code c' := by
  cases h
  refine ⟨⟨le_refl _, le_refl _⟩, rfl, ?_⟩
  have hscope : height ((localIdxs.map .slot).reverse ++ env.scope) = height env.scope := by
    rw [height_append, height_slots]
    omega
  have hr := hw.running
  simp only [Stmt.countClose] at hcap
  refine plain_cons _ ((I.exits_fits _ _).onNext _) rfl ?_ ?_
  · show height ((localIdxs.map .slot).reverse ++ env.scope) ≤ cap
    omega
  · have := tbcPushes_triple (I := I) (Q := I.exits env.breaks env.labels)
      (closeSlots localIdxs attribs)
      { env with scope := (localIdxs.map .slot).reverse ++ env.scope } (I.exits_fits _ _) (by
        show height ((localIdxs.map .slot).reverse ++ env.scope) + _ ≤ cap
        omega)
    simpa [Stmt.binds, Act.binds] using this

/-- A statement that is one ordinary instruction. -/
theorem plain_spec {s : Stmt} {a : Act}
    (h : (pure [env.op a] : EmitM (List WatCode)) c = .ok (code, c')) (hw : env.WF c)
    (ha : a.isPlain) (hbinds : a.binds = s.binds) (hown : s.ownClose = 0)
    (hcap : env.running ≤ cap) : StmtSpec I s env c code c' := by
  obtain ⟨rfl, rfl⟩ := pure_ok h
  refine ⟨Cg.Grows.refl _, by omega, ?_⟩
  have hh : height (a.binds ++ env.scope) ≤ cap := by
    rw [height_append, hbinds, Stmt.height_binds, hown, ← hw.running]
    omega
  refine plain_cons _ ((I.exits_fits _ _).onNext _) ha hh (Triple.nil ?_)
  intro s hs
  simpa [onNext, hbinds] using hs

theorem emitReturn_spec {values : List Expr}
    (h : emitReturn env values c = .ok (code, c')) (hw : env.WF c) (hcap : env.running ≤ cap) :
    StmtSpec I (.returnStmt values) env c code c' := by
  obtain ⟨n, c₁, hn, h⟩ := bind_ok h
  cases hn
  obtain ⟨rfl, rfl⟩ := pure_ok h
  have hr := hw.running
  have hQ := (I.exits_fits env.breaks env.labels).onNext (I.holds env.scope)
  refine ⟨Cg.Grows.refl _, rfl, ?_⟩
  refine plain_cons _ hQ rfl (by show height env.scope ≤ cap; omega) ?_
  refine closeDown_append _ hQ (by rw [hw.closeCount, hr]) ?_
  refine Triple.singleton (fun s hs => hQ.stop s (I.paused_cut hs)) (TripleOne.ret ?_)
  intro s hs
  have : I.holds [] s := I.holds_of_cut List.nil_suffix hs
  simpa [onNext, LexInv.exits] using this

theorem emitBreak_spec (h : emitBreak env c = .ok (code, c')) (hw : env.WF c) :
    StmtSpec I .breakStmt env c code c' := by
  unfold emitBreak at h
  cases hb : env.breaks with
  | nil =>
    rw [hb] at h
    exact (throw_ok h).elim
  | cons target breaks =>
    rw [hb] at h
    obtain ⟨n, c₁, hn, h⟩ := bind_ok h
    cases hn
    obtain ⟨rfl, rfl⟩ := pure_ok h
    have ht : target ∈ env.breaks := by simp [hb]
    have hw' := hw.breaks target ht
    have hQ := (I.exits_fits env.breaks env.labels).onNext (I.holds env.scope)
    refine ⟨Cg.Grows.refl _, rfl, ?_⟩
    show Triple m _ _ (onNext (I.holds env.scope) _)
    refine closeDown_append _ hQ (by rw [hw.closeCount, hw.running]) ?_
    rw [hw'.closeCount]
    refine Triple.br_last (fun s hs => hQ.stop s (I.paused_cut hs)) ?_
    intro s hs
    have : I.holds target.scope s := I.holds_of_cut hw'.scope hs
    simpa [onNext, LexInv.exits] using ⟨target, ht, rfl, this⟩

/-- A goto resolves to a label of an enclosing block. -/
theorem laLookup_mem {name : String} {chain : List (List LabelInfo)} {lab : LabelInfo}
    (h : laLookup name chain = some lab) : ∃ labs ∈ chain, lab ∈ labs := by
  induction chain with
  | nil => simp [laLookup] at h
  | cons labels chain ih =>
    simp only [laLookup, Option.or_eq_some_iff] at h
    rcases h with h | ⟨_, h⟩
    · exact ⟨labels, by simp, List.mem_of_find?_eq_some h⟩
    · obtain ⟨labs, hl, hlab⟩ := ih h
      exact ⟨labs, by simp [hl], hlab⟩

theorem emitGoto_spec {name : String} (h : emitGoto env name c = .ok (code, c')) (hw : env.WF c) :
    StmtSpec I (.gotoStmt name) env c code c' := by
  unfold emitGoto at h
  cases hlab : laLookup name env.labels with
  | none =>
    rw [hlab] at h
    exact (throw_ok h).elim
  | some lab =>
    rw [hlab] at h
    obtain ⟨n, c₁, hn, h⟩ := bind_ok h
    cases hn
    obtain ⟨rfl, rfl⟩ := pure_ok h
    obtain ⟨labs, hlabs, hmem⟩ := laLookup_mem hlab
    have hl := hw.labels labs hlabs lab hmem
    have hQ := (I.exits_fits env.breaks env.labels).onNext (I.holds env.scope)
    refine ⟨Cg.Grows.refl _, rfl, ?_⟩
    refine closeDown_append _ hQ (by rw [hw.closeCount, hw.running]) ?_
    refine op_cons hQ (fun _ => I.paused_cut)
      (fun _ => I.jump hl.outer hl.outer_scope hl.closeBase) ?_
    refine Triple.br_last ?_ ?_
    · intro s hs
      refine hQ.stop s (I.paused_atLabel (show I.atLabel lab s from ?_))
      unfold LexInv.atLabel
      split <;> simpa [*] using hs.2
    · intro s hs
      simp only [onNext, LexInv.exits, reduceCtorEq, if_false]
      refine ⟨labs, hlabs, lab, hmem, rfl, hs.1, ?_⟩
      unfold LexInv.atLabel
      split <;> simpa [*] using hs.2

end Lua2wasm
