import Lua2wasm.Codegen.Dispatch

/-!
# The induction over the syntax tree

Every statement, block and arm of an `if` is emitted so that a lexical invariant is kept
(`emitStmt_spec`, `emitSegs_spec`, `emitArms_spec`), and so is a whole function body
(`emitCloseBody_triple`).
-/

namespace Lua2wasm

open Structured Fallible

variable {σ : Type} {m : Machine Placed ℕ σ} {cap : ℕ}

/-! ## Blocks -/

variable {I : LexInv m cap} {env env' : EmitEnv} {c c' : Cg} {code body : List WatCode} {l : ℕ} {s : σ}
  {b : List Stmt} {P R : σ → Prop} {segs : EmitEnv → EmitM (List (List WatCode))}

/-- The state in which the statements of a block end. -/
def LexInv.atEnd (I : LexInv m cap) (final : Bool) (outer : LexScope) (env : EmitEnv)
    (b : List Stmt) : σ → Prop :=
  if final then I.leaving outer (height (env.afterAll b).scope)
  else I.holds (env.afterAll b).scope

theorem LexInv.paused_atEnd (I : LexInv m cap) {final : Bool} {outer : LexScope} (h : I.atEnd final outer env b s) :
    I.paused s := by
  unfold LexInv.atEnd at h
  split at h
  · exact I.paused_leaving h
  · exact I.paused_holds h

/-- What is proved of the statements of a block, emitted by segments. -/
def SegsSpec (I : LexInv m cap) (b : List Stmt) (env : EmitEnv) (c : Cg)
    (segs : List (List WatCode)) (c' : Cg) : Prop :=
  c.Grows c' ∧ c'.closeCount = c.closeCount + countBlockClose b ∧
    ∀ bid outer final k, outer <:+ env.scope →
      SegsOk I (I.exits env.breaks env.labels) (I.atEnd final outer env b) (I.holds env.scope)
        (blockLabels bid outer final env k b) segs

/-- What is proved of a block: the counters of labels grow, and the stack is as before. -/
def BlockSpec (I : LexInv m cap) (env : EmitEnv) (c : Cg) (code : List WatCode) (c' : Cg) : Prop :=
  c.Grows c' ∧ c'.closeCount = c.closeCount ∧
    Triple m (I.holds env.scope) code (onNext (I.holds env.scope) (I.exits env.breaks env.labels))

/-- The end of a block does not depend on the labels around it. -/
theorem LexInv.atEnd_labels (I : LexInv m cap) (final : Bool) (outer : LexScope) (env : EmitEnv)
    (chain : List (List LabelInfo)) (b : List Stmt) :
    I.atEnd final outer { env with labels := chain } b = I.atEnd final outer env b := by
  have hscope : ({ env with labels := chain }.afterAll b).scope = (env.afterAll b).scope := by
    induction b generalizing env with
    | nil => rfl
    | cons s rest ih => exact ih (env.after s)
  unfold LexInv.atEnd
  rw [hscope]

/-- A block without labels adds no exits. -/
theorem LexInv.exits_nil (I : LexInv m cap) {breaks : List BreakTarget}
    {labels : List (List LabelInfo)} {o : Outcome WatLabel}
    (h : I.exits breaks ([] :: labels) o s) : I.exits breaks labels o s := by
  cases o with
  | br l =>
    cases l with
    | dispatch bid =>
      obtain ⟨labs, hl, lab, hlab, hs⟩ := h
      rcases List.mem_cons.mp hl with rfl | hl
      · simp at hlab
      · exact ⟨labs, hl, lab, hlab, hs⟩
    | _ => exact h
  | _ => exact h

/-- The stamps of a block's labels do not depend on the labels around it. -/
theorem blockLabels_labels (bid : ℕ) (outer : LexScope) (final : Bool) (env : EmitEnv)
    (chain : List (List LabelInfo)) (k : ℕ) (b : List Stmt) :
    blockLabels bid outer final { env with labels := chain } k b =
      blockLabels bid outer final env k b := by
  induction b generalizing env k with
  | nil => rfl
  | cons s rest ih =>
    cases s with
    | label name => simp [blockLabels, ih]
    | _ => exact ih (env.after _) k

/-- The labels of a block are numbered from `k` on. -/
theorem blockLabels_numbered (bid : ℕ) (outer : LexScope) (final : Bool) (env : EmitEnv) (k : ℕ)
    (b : List Stmt) : Numbered bid k (blockLabels bid outer final env k b) := by
  induction b generalizing env k with
  | nil => trivial
  | cons s rest ih =>
    cases s with
    | label name => exact ⟨rfl, rfl, ih env (k + 1)⟩
    | _ => exact ih (env.after _) k

/-- The labels of a block record the block's scope, and the height of the stack at each of them. -/
theorem blockLabels_scope (bid : ℕ) (outer : LexScope) (final : Bool) (env : EmitEnv) (k : ℕ)
    (b : List Stmt) (hr : env.running = height env.scope) (ho : outer <:+ env.scope) :
    ∀ lab ∈ blockLabels bid outer final env k b,
      lab.outer = outer ∧ outer <:+ lab.scope ∧ lab.closeBase = height lab.scope := by
  induction b generalizing env k with
  | nil => simp [blockLabels]
  | cons s rest ih =>
    have hafter : (env.after s).running = height (env.after s).scope := by
      show env.running + s.ownClose = height (s.binds ++ env.scope)
      rw [height_append, Stmt.height_binds, hr, Nat.add_comm]
    have hsuf : outer <:+ (env.after s).scope := ho.trans (List.suffix_append _ _)
    cases s with
    | label name =>
      intro lab hlab
      rcases List.mem_cons.mp hlab with rfl | hmem
      · exact ⟨rfl, ho, hr⟩
      · exact ih env (k + 1) hr ho lab hmem
    | _ => exact ih _ k hafter hsuf

/-- The environment inside a block with the labels `labs`. -/
theorem EmitEnv.WF.enter (hw : env.WF c) (hg : c.Grows c')
    (hc : c'.closeCount = c.closeCount) (final : Bool) (b : List Stmt)
    (hid : c.nextLabelId + (blockLabels c.nextLabelId env.scope final env 1 b).length ≤ c'.nextLabelId) :
    EmitEnv.WF { env with labels := blockLabels c.nextLabelId env.scope final env 1 b :: env.labels } c' where
  running := hw.running
  closeCount := by rw [hc, hw.closeCount]
  breaks t ht := (hw.grow hg hc).breaks t ht
  labels labs hl lab hlab := by
    rcases List.mem_cons.mp hl with rfl | hl
    · have hscope := blockLabels_scope c.nextLabelId env.scope final env 1 b hw.running
        (List.suffix_refl _) lab hlab
      have hbid := ((blockLabels_numbered _ _ _ env 1 b).getElem? hlab).1
      have hpos := List.length_pos_of_mem hlab
      exact ⟨by omega, hscope.2.2, hscope.1 ▸ List.suffix_refl _, hscope.1 ▸ hscope.2.1⟩
    · exact (hw.grow hg hc).labels labs hl lab hlab

/-- The statements of a block, with the dispatch if it has labels. -/
theorem emitBlockStmts_spec {final : Bool} (h : emitBlockStmts env final b segs c = .ok (code, c')) (hw : env.WF c)
    (ih : ∀ env' c₁ l c₂, segs env' c₁ = .ok (l, c₂) → env'.WF c₁ → env'.running = env.running →
      SegsSpec I b env' c₁ l c₂) : c.Grows c' ∧ c'.closeCount = c.closeCount + countBlockClose b ∧
      Triple m (I.holds env.scope) code (onNext (I.atEnd final env.scope env b) (I.exits env.breaks env.labels)) := by
  obtain ⟨labels, c₁, hlabels, h₁⟩ := bind_ok h
  obtain ⟨l, c₂, hl, h₂⟩ := bind_ok h₁
  obtain ⟨hc₁, hlabs⟩ : c₁ = { c with nextLabelId := c.nextLabelId + labels.length } ∧
      labels = blockLabels c.nextLabelId env.scope final env 1 b := by
    unfold laBlock at hlabels
    dsimp only at hlabels
    split_ifs at hlabels
    cases hlabels
    exact ⟨rfl, rfl⟩
  have hg₁ : c.Grows c₁ := by
    rw [hc₁]
    exact ⟨le_refl _, Nat.le_add_right _ _⟩
  have hw' := hw.enter hg₁ (by rw [hc₁]) final b (by rw [hc₁, hlabs])
  rw [← hlabs] at hw'
  obtain ⟨hg₂, hc₂, hok⟩ := ih _ _ _ _ hl hw' rfl
  have hsegs := hok c.nextLabelId env.scope final 1 (List.suffix_refl _)
  rw [blockLabels_labels, ← hlabs, I.atEnd_labels] at hsegs
  have hcount : c₂.closeCount = c.closeCount + countBlockClose b := by rw [hc₂, hc₁]
  cases hcase : labels with
  | nil =>
    rw [hcase] at h₂ hsegs
    obtain ⟨rfl, rfl⟩ := pure_ok h₂
    refine ⟨hg₁.trans hg₂, hcount, hsegs.flatten.post ?_⟩
    exact fun o s => onNext_mono (fun _ hs => hs) fun _ _ => I.exits_nil
  | cons label labs =>
    rw [hcase] at h₂
    obtain ⟨rfl, rfl⟩ := pure_ok h₂
    have hnum : Numbered c.nextLabelId 1 labels := by
      rw [hlabs]
      exact blockLabels_numbered _ _ _ env 1 b
    have hbid : label.blockDispatchId = c.nextLabelId := by
      rw [hcase] at hnum
      exact hnum.1
    refine ⟨hg₁.trans hg₂, hcount, ?_⟩
    rw [hbid]
    refine dispatchCode_triple (fun _ => I.paused_atEnd) hnum ?_ hsegs
    intro labs' hl' lab hlab
    exact ((hw.labels labs' hl' lab hlab).bid).ne

/-- A block: it closes what its own declarations registered. -/
theorem emitBlock_spec (h : emitBlock env b segs c = .ok (code, c')) (hw : env.WF c)
    (ih : ∀ env' c₁ l c₂, segs env' c₁ = .ok (l, c₂) → env'.WF c₁ → env'.running = env.running →
      SegsSpec I b env' c₁ l c₂) : BlockSpec I env c code c' := by
  have hh := env.height_afterAll b
  unfold emitBlock at h
  split at h
  · rename_i hzero
    obtain ⟨hg, hc, ht⟩ := emitBlockStmts_spec h hw ih
    refine ⟨hg, by omega, ht.post ?_⟩
    refine fun o s => onNext_mono (fun s hs => ?_) fun _ _ hs => hs
    exact I.holds_of_leaving (by omega) hs
  · obtain ⟨base, c₁, hbase, h₁⟩ := bind_ok h
    cases hbase
    obtain ⟨code', c₂, hcode, h₂⟩ := bind_ok h₁
    obtain ⟨n, c₃, hn, h₃⟩ := bind_ok h₂
    cases hn
    obtain ⟨_, c₄, hset, h₄⟩ := bind_ok h₃
    cases hset
    obtain ⟨rfl, rfl⟩ := pure_ok h₄
    obtain ⟨hg, hc, ht⟩ := emitBlockStmts_spec hcode hw ih
    have hQ := (I.exits_fits env.breaks env.labels).onNext (I.holds env.scope)
    refine ⟨⟨hg.1, hg.2⟩, rfl, ?_⟩
    have hbase : c.closeCount = height env.scope := by rw [hw.closeCount, hw.running]
    have hend : c₂.closeCount = height (env.afterAll b).scope := by omega
    refine Triple.append (R := I.leaving env.scope c₂.closeCount)
      (ht.post fun o s => onNext_mono ?_ fun o s hs => ?_) ?_
    · intro s hs
      rw [hend]
      exact hs
    · unfold onNext
      cases o with
      | next => exact absurd hs id
      | _ => simpa using hs
    · rw [hbase]
      have := closeDown_leaving (env.afterAll b) c₂.closeCount hQ
        (Triple.nil (P := I.holds env.scope) fun s hs => by simpa [onNext] using hs)
      simpa using this

/-! ## Loops -/

/-- The postcondition of the code inside a loop `l`, where `R` holds after the loop and `P` when an
iteration begins. -/
def loopPost (I : LexInv m cap) (env : EmitEnv) (l : ℕ) (P R : σ → Prop) :
    Outcome WatLabel → σ → Prop :=
  onBr (.cont l) P (onNext R (onBr (.brk l) R (I.exits env.breaks env.labels)))

theorem loopPost_fits (I : LexInv m cap) (env : EmitEnv) (l : ℕ) (P R : σ → Prop) :
    I.Fits (loopPost I env l P R) :=
  (((I.exits_fits _ _).onBr _ _).onNext _).onBr _ _

theorem brkPost_fits (I : LexInv m cap) (env : EmitEnv) (l : ℕ) (R : σ → Prop) :
    I.Fits (onNext R (onBr (.brk l) R (I.exits env.breaks env.labels))) :=
  ((I.exits_fits _ _).onBr _ _).onNext _

theorem brkPost_brk (h : R s) : onNext R (onBr (.brk l) R (I.exits env.breaks env.labels)) (.br (.brk l)) s := by
  simpa [onNext, onBr] using h

theorem loopPost_cont (h : P s) : loopPost I env l P R (.br (.cont l)) s := by
  simpa [loopPost, onBr] using h

theorem loopPost_brk (h : R s) : loopPost I env l P R (.br (.brk l)) s := by
  simpa [loopPost, onBr, onNext] using h

theorem loopPost_next (h : R s) : loopPost I env l P R .next s := by
  simpa [loopPost, onBr, onNext] using h

/-- What a loop begins with: a fresh label, and the scope that `break` goes back to. -/
theorem loop_begin {c c₁ c₂ : Cg} (hl : freshLabel c = .ok (l, c₁)) (hp : pushBreakLabel env l c₁ = .ok (env', c₂))
    (hw : env.WF c) : env'.WF c₂ ∧ c.Grows c₂ ∧ c₂.closeCount = c.closeCount ∧
      env' = { env with breaks := ⟨l, c.closeCount, env.scope⟩ :: env.breaks } ∧ ∀ t ∈ env.breaks, t.label ≠ l := by
  cases hl
  unfold pushBreakLabel at hp
  split_ifs at hp
  cases hp
  have hg : c.Grows { c with nextLabel := c.nextLabel + 1 } :=
    ⟨Nat.le_succ _, le_refl _⟩
  have hw' := hw.grow hg rfl
  refine ⟨⟨hw.running, hw.closeCount, ?_, hw'.labels⟩, hg, rfl, rfl, ?_⟩
  · intro t ht
    rcases List.mem_cons.mp ht with rfl | ht
    · exact ⟨Nat.lt_succ_self _, by rw [hw.closeCount, hw.running], List.suffix_refl _⟩
    · exact hw'.breaks t ht
  · exact fun t ht => (hw.breaks t ht).label.ne

/-- The exits of a loop's body are those of the loop, with `break` going to its end. -/
theorem loopPost_of_exits {l n : ℕ} {sc : LexScope} (hR : ∀ s, I.holds sc s → R s)
    (hne : ∀ t ∈ env.breaks, t.label ≠ l)
    {o : Outcome WatLabel} (h : I.exits (⟨l, n, sc⟩ :: env.breaks) env.labels o s) : loopPost I env l P R o s := by
  cases o with
  | br w =>
    cases w with
    | brk k =>
      obtain ⟨t, ht, hk, hs⟩ := h
      rcases List.mem_cons.mp ht with rfl | ht
      · obtain rfl : l = k := hk
        exact loopPost_brk (hR s hs)
      · have hkl : k ≠ l := fun he => hne t ht (hk.trans he)
        simpa [loopPost, onBr, onNext, hkl, LexInv.exits] using ⟨t, ht, hk, hs⟩
    | dispatch bid => simpa [loopPost, onBr, onNext, LexInv.exits] using h
    | _ => exact absurd h id
  | next => exact absurd h id
  | trap => exact absurd h id
  | _ => simpa [loopPost, onBr, onNext, LexInv.exits] using h

/-- The body of a loop, as far as the loop is concerned. -/
theorem body_in_loop {l n : ℕ} {inner : EmitEnv} {sc sc₁ : LexScope} {code rest : List WatCode}
    (hb : BlockSpec I inner c code c') (hsc : inner.scope = sc₁) (hbr : inner.breaks = ⟨l, n, sc⟩ :: env.breaks)
    (hlab : inner.labels = env.labels) (hR : ∀ s, I.holds sc s → R s) (hne : ∀ t ∈ env.breaks, t.label ≠ l)
    (hrest : Triple m (I.holds sc₁) rest (loopPost I env l P R)) :
    Triple m (I.holds sc₁) (code ++ rest) (loopPost I env l P R) := by
  subst hsc
  refine Triple.append (hb.2.2.post fun o s => onNext_mono (fun _ hs => hs) ?_) hrest
  intro o s hs
  rw [hbr, hlab] at hs
  exact loopPost_of_exits hR hne hs

theorem emitWhile_spec {cond : Expr} {body : EmitEnv → EmitM (List WatCode)}
    (h : emitWhile env cond body c = .ok (code, c')) (hw : env.WF c) (hcap : env.running ≤ cap)
    (ih : ∀ env' c₁ l c₂, body env' c₁ = .ok (l, c₂) → env'.WF c₁ → env'.running = env.running →
      BlockSpec I env' c₁ l c₂) : StmtSpec I (.whileStmt cond b) env c code c' := by
  obtain ⟨l, c₁, hl, h₁⟩ := bind_ok h
  obtain ⟨env', c₂, hp, h₂⟩ := bind_ok h₁
  obtain ⟨bcode, hb, rfl⟩ := bind_pure_ok h₂
  obtain ⟨hw', hg, hc, rfl, hne⟩ := loop_begin hl hp hw
  have hbody := ih _ _ _ _ hb hw' rfl
  have hQ := loopPost_fits I env l (I.holds env.scope) (I.holds env.scope)
  have hQ' := brkPost_fits I env l (I.holds env.scope)
  have hh : height env.scope ≤ cap := hw.running ▸ hcap
  refine ⟨hg.trans hbody.1, hbody.2.1.trans hc, ?_⟩
  refine Triple.block_last (fun s => I.paused_holds)
    (Triple.loop_last (fun s hs => hQ'.stop s (I.paused_holds hs)) ?_)
  refine plain_cons env hQ rfl hh (Triple.brIf_cons ?_ ?_ ?_)
  · exact fun s hs => hQ.stop s (I.paused_holds hs)
  · exact fun s hs => loopPost_brk hs
  · refine body_in_loop hbody rfl rfl rfl (fun _ hs => hs) hne (Triple.br_last ?_ ?_)
    · exact fun s hs => hQ.stop s (I.paused_holds hs)
    · exact fun s hs => loopPost_cont hs

/-- A scope that another one extends is no higher. -/
theorem height_le_of_suffix {sc sc' : LexScope} (h : sc' <:+ sc) : height sc' ≤ height sc := by
  obtain ⟨binds, rfl⟩ := h
  rw [height_append]
  omega

/-- A block's own `<close>` declarations are among those it counts. -/
theorem countBlockClose_le (b : List Stmt) : countBlockClose b ≤ countFnClose b := by
  induction b with
  | nil => simp [countBlockClose, countFnClose]
  | cons s rest ih =>
    have hs : s.ownClose ≤ s.countClose := by
      cases s <;> simp [Stmt.ownClose, Stmt.countClose]
    simp only [countBlockClose, countFnClose, List.map_cons, List.sum_cons] at ih ⊢
    omega

theorem emitRepeat_spec {cond : Expr} (h : emitRepeat env b cond segs c = .ok (code, c')) (hw : env.WF c)
    (hcap : env.running + countFnClose b ≤ cap)
    (ih : ∀ env' c₁ l c₂, segs env' c₁ = .ok (l, c₂) → env'.WF c₁ → env'.running = env.running →
      SegsSpec I b env' c₁ l c₂) : StmtSpec I (.repeatStmt b cond) env c code c' := by
  obtain ⟨l, c₁, hl, h₁⟩ := bind_ok h
  obtain ⟨env', c₂, hp, h₂⟩ := bind_ok h₁
  obtain ⟨rbase, c₃, hr, h₃⟩ := bind_ok h₂
  cases hr
  obtain ⟨bcode, c₄, hb, h₄⟩ := bind_ok h₃
  obtain ⟨n, c₅, hn, h₅⟩ := bind_ok h₄
  cases hn
  obtain ⟨_, c₆, hset, h₆⟩ := bind_ok h₅
  cases hset
  obtain ⟨rfl, rfl⟩ := pure_ok h₆
  obtain ⟨hw', hg, hc, rfl, hne⟩ := loop_begin hl hp hw
  obtain ⟨hg', hc', ht⟩ := emitBlockStmts_spec hb hw' ih
  -- The condition stands in the scope of the body, and the body is closed after it.
  let inner : EmitEnv := EmitEnv.afterAll
    { env with breaks := ⟨l, c.closeCount, env.scope⟩ :: env.breaks } b
  have hinner : height inner.scope = height env.scope + countBlockClose b :=
    EmitEnv.height_afterAll _ b
  have hsuf : env.scope <:+ inner.scope := EmitEnv.suffix_afterAll
    { env with breaks := ⟨l, c.closeCount, env.scope⟩ :: env.breaks } b
  have hrun := hw.running
  have hbase : c₂.closeCount = height env.scope := by rw [hc, hw.closeCount, hw.running]
  have hle := countBlockClose_le b
  have hQ := loopPost_fits I env l (I.holds env.scope) (I.holds env.scope)
  have hQ' := brkPost_fits I env l (I.holds env.scope)
  refine ⟨(hg.trans hg').trans ⟨le_refl _, le_refl _⟩, hc, ?_⟩
  refine Triple.block_last (fun s => I.paused_holds)
    (Triple.loop_last (fun s hs => hQ'.stop s (I.paused_holds hs)) ?_)
  rw [List.append_assoc]
  refine Triple.append (R := I.holds inner.scope)
    (ht.post fun o s => onNext_mono (fun s hs => hs) fun o s hs => ?_) ?_
  · exact loopPost_of_exits (fun _ hs => hs) hne hs
  · refine plain_cons inner hQ rfl (by show height inner.scope ≤ cap; omega) ?_
    refine closeDown_append inner hQ (by omega) ?_
    rw [hbase]
    refine Triple.brIf_cons (fun s hs => hQ.stop s (I.paused_cut hs)) ?_ (Triple.nil ?_)
    · exact fun s hs => loopPost_cont (I.holds_of_cut hsuf hs)
    · exact fun s hs => loopPost_next (I.holds_of_cut hsuf hs)

theorem emitForNum_spec {localIdx : ℕ} {start stop : Expr}
    {step : Option Expr} {body : EmitEnv → EmitM (List WatCode)}
    (h : emitForNum env localIdx start stop step body c = .ok (code, c')) (hw : env.WF c) (hcap : env.running ≤ cap)
    (ih : ∀ env' c₁ l c₂, body env' c₁ = .ok (l, c₂) → env'.WF c₁ → env'.running = env.running →
      BlockSpec I env' c₁ l c₂) : StmtSpec I (.forNum localIdx start stop step b) env c code c' := by
  obtain ⟨l, c₁, hl, h₁⟩ := bind_ok h
  obtain ⟨env', c₂, hp, h₂⟩ := bind_ok h₁
  obtain ⟨hw', hg, hc, rfl, hne⟩ := loop_begin hl hp hw
  have hw'' := hw'.extend (Cg.Grows.refl c₂) [.slot localIdx] rfl
  have hh : height env.scope ≤ cap := hw.running ▸ hcap
  have hQ := loopPost_fits I env l (I.holds env.scope) (I.holds env.scope)
  have hQ' := brkPost_fits I env l (I.holds env.scope)
  have hX := (I.exits_fits env.breaks env.labels).onNext (I.holds env.scope)
  -- The control variable goes out of scope at the end of an iteration.
  have hout : ∀ s, I.holds ([.slot localIdx] ++ env.scope) s → I.holds env.scope s := fun s =>
    I.holds_weaken (List.suffix_append _ _) (le_refl _)
  have hhead {body : List WatCode}
      (hloop : Triple m (I.holds env.scope) body
        (loopPost I env l (I.holds env.scope) (I.holds env.scope))) :
      Triple m (I.holds env.scope) [env.op (.forNumInit localIdx start stop step),
        .block (.brk l) [env.op .forNumSkip, .brIf (.brk l), .loop (.cont l) body]]
        (onNext (I.holds env.scope) (I.exits env.breaks env.labels)) := by
    refine plain_cons _ hX rfl hh (Triple.block_last (fun s => I.paused_holds) ?_)
    refine plain_cons env hQ' rfl hh (Triple.brIf_cons ?_ ?_
      (Triple.loop_last (fun s hs => hQ'.stop s (I.paused_holds hs)) hloop))
    · exact fun s hs => hQ'.stop s (I.paused_holds hs)
    · exact fun s hs => brkPost_brk hs
  have hstop : ∀ s, I.holds env.scope s →
      loopPost I env l (I.holds env.scope) (I.holds env.scope) .stop s :=
    fun s hs => hQ.stop s (I.paused_holds hs)
  have hbrk : ∀ s, I.holds env.scope s →
      loopPost I env l (I.holds env.scope) (I.holds env.scope) (.br (.brk l)) s :=
    fun s hs => loopPost_brk hs
  have hcont : ∀ s, I.holds env.scope s →
      loopPost I env l (I.holds env.scope) (I.holds env.scope) (.br (.cont l)) s :=
    fun s hs => loopPost_cont hs
  split at h₂
  · obtain ⟨bcode, hb, rfl⟩ := bind_pure_ok h₂
    have hbody := ih _ _ _ _ hb hw'' rfl
    refine ⟨hg.trans hbody.1, hbody.2.1.trans hc, hhead ?_⟩
    refine plain_cons env hQ rfl hh (Triple.brIf_cons hstop hbrk ?_)
    refine plain_cons env hQ rfl hh
      (body_in_loop hbody rfl rfl rfl (fun _ hs => hs) hne ?_)
    refine Triple.pre (P := I.holds env.scope) ?_ hout
    refine plain_cons env hQ rfl hh (Triple.brIf_cons hstop hbrk ?_)
    exact plain_cons env hQ rfl hh (Triple.br_last hstop hcont)
  · obtain ⟨bcode, hb, rfl⟩ := bind_pure_ok h₂
    have hbody := ih _ _ _ _ hb hw'' rfl
    refine ⟨hg.trans hbody.1, hbody.2.1.trans hc, hhead ?_⟩
    refine plain_cons env hQ rfl hh
      (body_in_loop hbody rfl rfl rfl (fun _ hs => hs) hne ?_)
    refine Triple.pre (P := I.holds env.scope) ?_ hout
    refine plain_cons env hQ rfl hh (Triple.brIf_cons hstop hbrk ?_)
    refine plain_cons env hQ rfl hh ?_
    refine plain_cons env hQ rfl hh (Triple.brIf_cons hstop hbrk ?_)
    exact Triple.br_last hstop hcont

/-- The loop of a generic `for`. It is left in the scope of the closing value when the iterator ends,
and below it by `break`, so after it the stack is closed down to the scope of the statement. -/
theorem forGenLoop_triple (env loopEnv : EmitEnv) {inner : EmitEnv} {l n : ℕ}
    {localIdxs : List ℕ} {code rest : List WatCode}
    (hsuf : env.scope <:+ loopEnv.scope) (hbody : BlockSpec I inner c code c')
    (hbr : inner.breaks = ⟨l, n, env.scope⟩ :: env.breaks) (hlab : inner.labels = env.labels)
    (hsc : inner.scope = (localIdxs.map .slot).reverse ++ loopEnv.scope)
    (hh : height loopEnv.scope ≤ cap) (hne : ∀ t ∈ env.breaks, t.label ≠ l)
    (hrest : Triple m (I.leaving env.scope (height loopEnv.scope)) rest
      (onNext (I.holds env.scope) (I.exits env.breaks env.labels))) :
    Triple m (I.holds loopEnv.scope) (loopEnv.op (.forGenPre localIdxs) :: .block (.brk l) [.loop (.cont l)
        (loopEnv.op (.forGenNext localIdxs) :: .brIf (.brk l) ::
          loopEnv.op (.forGenBind localIdxs) :: code ++ [.br (.cont l)])] :: rest)
      (onNext (I.holds env.scope) (I.exits env.breaks env.labels)) := by
  let R : σ → Prop := I.leaving env.scope (height loopEnv.scope)
  have hX := I.exits_fits env.breaks env.labels
  have hQ := loopPost_fits I env l (I.holds loopEnv.scope) R
  have hQ' := brkPost_fits I env l R
  have hend : ∀ s, I.holds loopEnv.scope s → R s := fun s => I.leave hsuf
  have hbreak : ∀ s, I.holds env.scope s → R s := fun s hs =>
    I.leaving_mono (height_le_of_suffix hsuf) (I.leave (List.suffix_refl _) hs)
  have hslots : height ((localIdxs.map .slot).reverse ++ loopEnv.scope) =
      height loopEnv.scope := by
    rw [height_append, height_slots]
    omega
  refine plain_cons _ (hX.onNext _) rfl hh (Triple.block_cons (R := R) ?_ ?_ hrest)
  · exact fun s hs => hX.stop s (I.paused_holds hs)
  · refine Triple.loop_last (fun s hs => hQ'.stop s (I.paused_holds hs)) ?_
    refine plain_cons _ hQ rfl hh (Triple.brIf_cons ?_ ?_ ?_)
    · exact fun s hs => hQ.stop s (I.paused_holds hs)
    · exact fun s hs => loopPost_brk (hend s hs)
    · refine plain_cons _ hQ rfl
        (show height ((localIdxs.map .slot).reverse ++ loopEnv.scope) ≤ cap from hslots.le.trans hh)
        ?_
      refine body_in_loop hbody hsc hbr hlab hbreak hne ?_
      have hout : ∀ s, I.holds ((localIdxs.map .slot).reverse ++ loopEnv.scope) s →
          I.holds loopEnv.scope s := fun s =>
        I.holds_weaken (List.suffix_append _ _) hslots.le
      refine Triple.pre (P := I.holds loopEnv.scope) (Triple.br_last ?_ ?_) hout
      · exact fun s hs => hQ.stop s (I.paused_holds hs)
      · exact fun s hs => loopPost_cont hs

theorem emitForGen_spec {localIdxs : List ℕ}
    {exprs : List Expr} {body : EmitEnv → EmitM (List WatCode)}
    (h : emitForGen env localIdxs exprs body c = .ok (code, c'))
    (hw : env.WF c) (hcap : env.running + (forGenHasClosing exprs).toNat ≤ cap)
    (ih : ∀ env' c₁ l c₂, body env' c₁ = .ok (l, c₂) → env'.WF c₁ →
      env'.running = env.running + (forGenHasClosing exprs).toNat → BlockSpec I env' c₁ l c₂) :
    StmtSpec I (.forGen localIdxs exprs b) env c code c' := by
  obtain ⟨l, c₁, hl, h₁⟩ := bind_ok h
  obtain ⟨env', c₂, hp, h₂⟩ := bind_ok h₁
  obtain ⟨base, c₃, hbase, h₃⟩ := bind_ok h₂
  cases hbase
  obtain ⟨⟨push, loopEnv⟩, c₄, hpush, h₄⟩ := bind_ok h₃
  obtain ⟨bcode, c₅, hb, h₅⟩ := bind_ok h₄
  obtain ⟨close, hclose, rfl⟩ := bind_pure_ok h₅
  obtain ⟨hw', hg, hc, rfl, hne⟩ := loop_begin hl hp hw
  have hX := (I.exits_fits env.breaks env.labels).onNext (I.holds env.scope)
  have hrun := hw.running
  have hh : height env.scope ≤ cap := by omega
  have hbase : c₂.closeCount = height env.scope := by rw [hc, hw.closeCount, hrun]
  have hslots : height ((localIdxs.map .slot).reverse) = 0 := height_slots localIdxs
  unfold pushClosing at hpush
  unfold closeClosing at hclose
  -- the fourth value of the loop is closed behind it, if there is one
  by_cases hcl : forGenHasClosing exprs
  · rw [if_pos hcl] at hpush hclose
    cases hpush
    cases hclose
    rw [hcl] at hcap
    have hone : height (.closing localIdxs :: env.scope) = height env.scope + 1 := by
      have h := height_append [.closing localIdxs] env.scope
      have h₁ : height [.closing localIdxs] = 1 := rfl
      rw [List.singleton_append] at h
      omega
    have hcap' : height (.closing localIdxs :: env.scope) ≤ cap := by
      simp only [Bool.toNat_true] at hcap
      omega
    have hg' : Cg.Grows c₂ { c₂ with closeCount := c₂.closeCount + 1 } := ⟨le_refl _, le_refl _⟩
    have hw₁ := hw'.extend hg' [.closing localIdxs] rfl
    have hw₂ := hw₁.extend (Cg.Grows.refl _) ((localIdxs.map .slot).reverse) (by rw [hslots])
    simp only [hslots] at hw₂
    have hbody := ih _ _ _ _ hb hw₂ (by rw [hcl]; rfl)
    refine ⟨(hg.trans ⟨hbody.1.1, hbody.1.2⟩).trans ⟨le_refl _, le_refl _⟩, hc, ?_⟩
    refine plain_cons env hX rfl hh (plain_cons env hX rfl hcap' ?_)
    refine forGenLoop_triple env { env with scope := .closing localIdxs :: env.scope }
      (List.suffix_cons _ _) hbody rfl rfl rfl hcap' hne ?_
    rw [hbase]
    refine op_cons (R := I.holds env.scope) hX (fun _ => I.paused_leaving)
      (fun _ => I.close_leaving) (Triple.nil ?_)
    exact fun s hs => by simpa [onNext] using hs
  · rw [if_neg hcl] at hpush hclose
    cases hpush
    cases hclose
    have hw₂ := hw'.extend (Cg.Grows.refl c₂) ((localIdxs.map .slot).reverse)
      (by rw [hslots, Nat.add_zero])
    simp only [hslots] at hw₂
    have hbody := ih _ _ _ _ hb hw₂ (by simp [hcl])
    refine ⟨hg.trans hbody.1, hbody.2.1.trans hc, ?_⟩
    refine plain_cons env hX rfl hh ?_
    refine forGenLoop_triple env env (List.suffix_refl _) hbody rfl rfl rfl hh hne (Triple.nil ?_)
    intro s hs
    simpa [onNext] using I.holds_of_leaving (le_refl _) hs

/-! ## Conditionals -/

/-- No statement branches to the end of an enclosing `if`. -/
theorem exits_onBr_ifEnd {o : Outcome WatLabel} (h : I.exits env.breaks env.labels o s) :
    onBr (.ifEnd l) R (I.exits env.breaks env.labels) o s := by
  unfold onBr
  split
  · rename_i ho
    rw [ho] at h
    exact absurd h id
  · exact h

/-- The arms of an `if`, before the rest of its block: each ends in a branch to the end. -/
theorem emitArm_triple {cond : Expr}
    {code rest : List WatCode} (hh : height env.scope ≤ cap) (hb : BlockSpec I env c code c')
    (hrest : Triple m (I.holds env.scope) rest (onNext (I.holds env.scope)
      (onBr (.ifEnd l) (I.holds env.scope) (I.exits env.breaks env.labels)))) : Triple m (I.holds env.scope)
      (env.op (.test cond false) :: .ite (code ++ [.br (.ifEnd l)]) [] :: rest) (onNext (I.holds env.scope)
        (onBr (.ifEnd l) (I.holds env.scope) (I.exits env.breaks env.labels))) := by
  have hQ := ((I.exits_fits env.breaks env.labels).onBr (.ifEnd l) (I.holds env.scope)).onNext
    (I.holds env.scope)
  refine plain_cons _ hQ rfl hh (Triple.cons (R := I.holds env.scope) ?_ (TripleOne.ite ?_ ?_) hrest)
  · exact fun s hs => hQ.stop s (I.paused_holds hs)
  · rw [onNext_onNext]
    refine Triple.append (R := I.holds env.scope)
      ((hb.2.2.pre fun s hs => hs.1).post fun o s => onNext_mono (fun _ hs => hs) ?_) ?_
    · intro o s hs
      unfold onNext
      split
      · rename_i ho
        rw [ho] at hs
        exact absurd hs id
      · exact exits_onBr_ifEnd hs
    · refine Triple.br_last (fun s hs => hQ.stop s (I.paused_holds hs)) ?_
      intro s hs
      simpa [onNext, onBr] using hs
  · refine Triple.nil ?_
    intro s hs
    have : I.holds env.scope s := hs.1
    simpa [onNext] using this

/-! ## The induction -/

/-- A statement counts at least its own declarations. -/
theorem Stmt.ownClose_le (s : Stmt) : s.ownClose ≤ s.countClose := by
  cases s <;> simp [Stmt.ownClose, Stmt.countClose]

/-- Code before the first segment. -/
theorem SegsOk.prepend {Q : Outcome WatLabel → σ → Prop} {E P R : σ → Prop}
    {labs : List LabelInfo} {code seg : List WatCode} {segs : List (List WatCode)}
    (h : Triple m P code (onNext R Q)) (hs : SegsOk I Q E R labs (seg :: segs)) :
    SegsOk I Q E P labs ((code ++ seg) :: segs) := by
  cases labs with
  | nil =>
    match segs, hs with
    | [], hs =>
      refine Triple.append (R := R) ?_ (show Triple m R seg (onNext E Q) from hs)
      rw [onNext_onNext]
      exact h
  | cons lab labs =>
    refine ⟨Triple.append (R := R) ?_ hs.1, hs.2⟩
    rw [onNext_onNext]
    exact h

/-- A list of labels is emitted as empty segments; they keep what is known where a block is left. -/
theorem emitSegs_labels {Q : Outcome WatLabel → σ → Prop} {bid : ℕ}
    {outer : LexScope} (b : List Stmt) {segs : List (List WatCode)}
    {k : ℕ} (h : emitSegs b env c = .ok (segs, c')) (hb : b.all Stmt.isLabel) :
    SegsOk I Q (I.atEnd true outer env b) (I.leaving outer (height env.scope))
      (blockLabels bid outer true env k b) segs := by
  induction b generalizing env c segs k with
  | nil =>
    obtain ⟨rfl, rfl⟩ := pure_ok h
    refine Triple.nil fun s hs => ?_
    simpa [onNext, LexInv.atEnd, EmitEnv.afterAll] using hs
  | cons s rest ih =>
    simp only [List.all_cons, Bool.and_eq_true] at hb
    cases s with
    | label name =>
      obtain ⟨code, c₁, hcode, h₁⟩ := bind_ok h
      obtain ⟨segs', hsegs, rfl⟩ := bind_pure_ok h₁
      have hlab : I.atLabel ⟨name, bid, k, env.running, env.scope, outer,
          true && rest.all Stmt.isLabel⟩ = I.leaving outer (height env.scope) := by
        simp [LexInv.atLabel, hb.2]
      refine ⟨Triple.nil fun s hs => ?_, ?_⟩
      · rw [hlab]
        simpa [onNext] using hs
      · rw [hlab]
        exact ih hsegs hb.2
    | _ => exact absurd hb.1 (by simp [Stmt.isLabel])

/-- The segments of a block that begins with a label. -/
theorem emitSegs_label_spec {name : String} {rest : List Stmt} {segs : List (List WatCode)}
    (hrest : emitSegs rest env c = .ok (segs, c'))
    (ih : SegsSpec I rest env c segs c') : SegsSpec I (.label name :: rest) env c ([] :: segs) c' := by
  refine ⟨ih.1, ?_, ?_⟩
  · rw [ih.2.1]
    simp [countBlockClose, Stmt.ownClose]
  · intro bid outer final k ho
    have hok := ih.2.2 bid outer final (k + 1) ho
    by_cases hends : final && rest.all Stmt.isLabel
    · obtain ⟨rfl, hall⟩ : final = true ∧ rest.all Stmt.isLabel = true := by simpa using hends
      have hlab : I.atLabel ⟨name, bid, k, env.running, env.scope, outer,
          true && rest.all Stmt.isLabel⟩ = I.leaving outer (height env.scope) := by
        simp [LexInv.atLabel, hall]
      refine ⟨Triple.nil fun s hs => ?_, ?_⟩
      · rw [hlab]
        simpa [onNext] using I.leave ho hs
      · rw [hlab]
        exact emitSegs_labels rest hrest hall
    · have hlab : I.atLabel ⟨name, bid, k, env.running, env.scope, outer,
          final && rest.all Stmt.isLabel⟩ = I.holds env.scope := by
        simp [LexInv.atLabel, hends]
      refine ⟨Triple.nil fun s hs => ?_, ?_⟩
      · rw [hlab]
        simpa [onNext] using hs
      · rw [hlab]
        exact hok

/-- The segments of a block that begins with another statement. -/
theorem emitSegs_cons_spec {s : Stmt} {rest : List Stmt}
    {c c₁ c' : Cg} {code seg : List WatCode} {segs : List (List WatCode)}
    (hlabel : s.isLabel = false) (hs : StmtSpec I s env c code c₁)
    (ih : SegsSpec I rest (env.after s) c₁ (seg :: segs) c') :
    SegsSpec I (s :: rest) env c ((code ++ seg) :: segs) c' := by
  refine ⟨hs.1.trans ih.1, ?_, ?_⟩
  · rw [ih.2.1, hs.2.1]
    simp [countBlockClose, Nat.add_assoc]
  · intro bid outer final k ho
    have hok := ih.2.2 bid outer final k (ho.trans (List.suffix_append _ _))
    have hlabs : blockLabels bid outer final env k (s :: rest) =
        blockLabels bid outer final (env.after s) k rest := by
      cases s with
      | label name => simp [Stmt.isLabel] at hlabel
      | _ => rfl
    rw [hlabs]
    exact SegsOk.prepend hs.2.2 hok

mutual

/-- Statements keep the invariant. -/
theorem emitStmt_spec (I : LexInv m cap) : ∀ (s : Stmt) {env : EmitEnv} {c c' : Cg}
    {code : List WatCode}, emitStmt s env c = .ok (code, c') → env.WF c →
      env.running + s.countClose ≤ cap → StmtSpec I s env c code c'
  | .localStmt _ _ _, _, _, _, _, h, hw, hcap => emitLocalStmt_spec h hw hcap
  | .assign _ _, _, _, _, _, h, hw, hcap => plain_spec h hw rfl rfl rfl hcap
  | .exprStmt _, _, _, _, _, h, hw, hcap => plain_spec h hw rfl rfl rfl hcap
  | .doStmt body, env, c, c', code, h, hw, hcap => by
    have hb := emitBlock_spec (I := I) (b := body) h hw fun env' c₁ l c₂ hl hw' hr =>
      emitSegs_spec I body hl hw' (by rw [hr]; exact hcap)
    exact hb
  | .returnStmt _, _, _, _, _, h, hw, hcap => emitReturn_spec h hw hcap
  | .whileStmt cond body, env, c, c', code, h, hw, hcap => by
    refine emitWhile_spec h hw (by omega) fun env₁ c₁ l c₂ hl hw₁ hr => ?_
    exact emitBlock_spec hl hw₁ fun env₂ c₃ l' c₄ hl' hw₂ hr' =>
      emitSegs_spec I body hl' hw₂ (by rw [hr', hr]; exact hcap)
  | .repeatStmt body cond, env, c, c', code, h, hw, hcap =>
    emitRepeat_spec h hw hcap fun env₁ c₁ l c₂ hl hw₁ hr =>
      emitSegs_spec I body hl hw₁ (by rw [hr]; exact hcap)
  | .breakStmt, _, _, _, _, h, hw, _ => emitBreak_spec h hw
  | .gotoStmt _, _, _, _, _, h, hw, _ => emitGoto_spec h hw
  | .label _, env, c, c', code, h, hw, hcap => by
    obtain ⟨rfl, rfl⟩ := pure_ok h
    exact ⟨Cg.Grows.refl _, rfl, Triple.nil fun s hs => by simpa [onNext, Stmt.binds] using hs⟩
  | .forNum localIdx start stop step body, env, c, c', code, h, hw, hcap => by
    refine emitForNum_spec h hw (by omega) fun env₁ c₁ l c₂ hl hw₁ hr => ?_
    exact emitBlock_spec hl hw₁ fun env₂ c₃ l' c₄ hl' hw₂ hr' =>
      emitSegs_spec I body hl' hw₂ (by rw [hr', hr]; exact hcap)
  | .forGen localIdxs exprs body, env, c, c', code, h, hw, hcap => by
    rw [emitStmt] at h
    rw [Stmt.countClose] at hcap
    refine emitForGen_spec h hw (by omega) fun env₁ c₁ l c₂ hl hw₁ hr => ?_
    exact emitBlock_spec hl hw₁ fun env₂ c₃ l' c₄ hl' hw₂ hr' =>
      emitSegs_spec I body hl' hw₂ (by rw [hr', hr]; omega)
  | .globalDecl globalIdxs values, env, c, c', code, h, hw, hcap => by
    by_cases hv : values = []
    · obtain ⟨rfl, rfl⟩ := pure_ok h
      rw [if_pos hv]
      exact ⟨Cg.Grows.refl _, rfl, Triple.nil fun s hs => by simpa [onNext, Stmt.binds] using hs⟩
    · simp only [emitStmt, if_neg hv] at h
      exact plain_spec h hw rfl rfl rfl hcap
  | .ifStmt arms hasElse elseBody, env, c, c', code, h, hw, hcap => by
    rw [emitStmt] at h
    rw [Stmt.countClose] at hcap
    obtain ⟨l, c₁, hl, h₁⟩ := bind_ok h
    cases hl
    obtain ⟨acode, c₂, ha, h₂⟩ := bind_ok h₁
    have hg : c.Grows { c with nextLabel := c.nextLabel + 1 } := ⟨Nat.le_succ _, le_refl _⟩
    have hw₁ := hw.grow hg rfl
    -- an arm that ends jumps behind the whole statement
    obtain ⟨hg₂, hc₂, harms⟩ := emitArms_spec I arms ha hw₁ (by omega)
    obtain ⟨ecode, rfl, helse⟩ : ∃ ecode,
        code = [.block (.ifEnd c.nextLabel) (acode ++ ecode)] ∧ BlockSpec I env c₂ ecode c' := by
      cases hasElse with
      | true =>
        simp only [if_true] at h₂
        obtain ⟨ecode, he, rfl⟩ := bind_pure_ok h₂
        exact ⟨ecode, rfl, emitBlock_spec he (hw₁.grow hg₂ hc₂) fun env₂ c₃ l' c₄ hl' hw₂ hr' =>
          emitSegs_spec I elseBody hl' hw₂ (by rw [hr']; omega)⟩
      | false =>
        cases h₂
        exact ⟨[], rfl, Cg.Grows.refl _, rfl, Triple.nil fun s hs => by simpa [onNext] using hs⟩
    refine ⟨(hg.trans hg₂).trans helse.1, helse.2.1.trans hc₂, ?_⟩
    refine Triple.block_last (fun s => I.paused_holds) (Triple.append (R := I.holds env.scope) ?_
      (helse.2.2.post fun o s => onNext_mono (fun _ hs => hs) fun o s => exits_onBr_ifEnd))
    rw [onNext_onNext]
    exact harms
  | .localFunc _ _, _, _, _, _, h, hw, hcap => plain_spec h hw rfl rfl rfl hcap

/-- The statements of a block keep the invariant. -/
theorem emitSegs_spec (I : LexInv m cap) : ∀ (b : List Stmt) {env : EmitEnv} {c c' : Cg}
    {segs : List (List WatCode)}, emitSegs b env c = .ok (segs, c') → env.WF c →
      env.running + countFnClose b ≤ cap → SegsSpec I b env c segs c'
  | [], env, c, c', segs, h, hw, hcap => by
    obtain ⟨rfl, rfl⟩ := pure_ok h
    refine ⟨Cg.Grows.refl _, rfl, fun bid outer final k ho => Triple.nil fun s hs => ?_⟩
    cases final with
    | true => simpa [onNext, LexInv.atEnd, EmitEnv.afterAll] using I.leave ho hs
    | false => simpa [onNext, LexInv.atEnd, EmitEnv.afterAll] using hs
  | s :: rest, env, c, c', segs, h, hw, hcap => by
    simp only [countFnClose] at hcap
    have hown := s.ownClose_le
    obtain ⟨code, c₁, hcode, h₁⟩ := bind_ok h
    obtain ⟨segs', hsegs, rfl⟩ := bind_pure_ok h₁
    have hs := emitStmt_spec I s hcode hw (by omega)
    have hrest := emitSegs_spec I rest hsegs (hw.after s hs.1 hs.2.1) (by
      show env.running + s.ownClose + countFnClose rest ≤ cap
      omega)
    cases hl : s.isLabel with
    | true =>
      cases s with
      | label name =>
        obtain ⟨rfl, rfl⟩ := pure_ok hcode
        exact emitSegs_label_spec hsegs hrest
      | _ => simp [Stmt.isLabel] at hl
    | false =>
      have hlen := (hrest.2.2 0 env.scope true 0 (List.suffix_append _ _)).length
      match segs', hrest with
      | seg :: segs, hrest => exact emitSegs_cons_spec hl hs hrest

/-- The arms of an `if` keep the invariant. -/
theorem emitArms_spec (I : LexInv m cap) : ∀ (arms : List IfArm) {l : ℕ} {env : EmitEnv}
    {c c' : Cg} {code : List WatCode}, emitArms arms l env c = .ok (code, c') → env.WF c →
      env.running + armsCountClose arms ≤ cap → c.Grows c' ∧ c'.closeCount = c.closeCount ∧
        Triple m (I.holds env.scope) code (onNext (I.holds env.scope)
          (onBr (.ifEnd l) (I.holds env.scope) (I.exits env.breaks env.labels)))
  | [], l, env, c, c', code, h, hw, hcap => by
    obtain ⟨rfl, rfl⟩ := pure_ok h
    exact ⟨Cg.Grows.refl _, rfl, Triple.nil fun s hs => by simpa [onNext] using hs⟩
  | .mk cond body :: rest, l, env, c, c', code, h, hw, hcap => by
    simp only [armsCountClose] at hcap
    obtain ⟨bcode, c₁, hb, h₁⟩ := bind_ok h
    obtain ⟨acode, ha, rfl⟩ := bind_pure_ok h₁
    have hblock : BlockSpec I env c bcode c₁ :=
      emitBlock_spec hb hw fun env₂ c₃ l' c₄ hl' hw₂ hr' =>
        emitSegs_spec I body hl' hw₂ (by rw [hr']; omega)
    obtain ⟨hg, hc, ht⟩ := emitArms_spec I rest ha (hw.grow hblock.1 hblock.2.1) (by omega)
    have hrun := hw.running
    exact ⟨hblock.1.trans hg, hc.trans hblock.2.1, emitArm_triple (by omega) hblock ht⟩

end

/-! ## Function bodies -/

/-- How a function body is left: it returns or falls off its end with nothing in scope, or an error
leaves it, after the handler if it has one. -/
def LexInv.bodyPost (I : LexInv m cap) (nClose : ℕ) : Outcome WatLabel → σ → Prop
  | .next, s => I.holds [] s
  | .ret, s => I.holds [] s
  | .err, s => if nClose = 0 then I.failed s else I.aborted s
  | .stop, s => I.paused s
  | _, _ => False

/-- The emitted code of a function body keeps a lexical invariant. -/
theorem emitCloseBody_triple (I : LexInv m cap) {isInt : ℕ → Bool} {body : List Stmt}
    (h : emitCloseBody isInt body c = .ok (code, c'))
    (hcap : countFnClose body ≤ cap) : Triple m (I.holds []) code (I.bodyPost (countFnClose body)) := by
  have hblock {c₁ c₂ : Cg} {code' : List WatCode} (hc : c₁.closeCount = 0)
      (hb : emitBlock { isInt := isInt } body (emitSegs body) c₁ = .ok (code', c₂)) :
      Triple m (I.holds []) code' (onNext (I.holds []) (I.exits [] [])) := by
    have hw : EmitEnv.WF { isInt := isInt } c₁ := ⟨rfl, hc, by simp, by simp⟩
    exact (emitBlock_spec hb hw fun env' c₁ l c₂ hl hw' hr =>
      emitSegs_spec I body hl hw' (by rw [hr]; simpa using hcap)).2.2
  obtain ⟨_, c₁, hset, h₁⟩ := bind_ok h
  cases hset
  split at h₁
  -- nothing is to be closed, so the body stands alone
  · rename_i hzero
    refine (hblock rfl h₁).post fun o s hs => ?_
    cases o with
    | br w => cases w <;> simp [onNext, LexInv.exits] at hs
    | trap => simp [onNext, LexInv.exits] at hs
    | _ => simpa [onNext, LexInv.exits, LexInv.bodyPost, hzero] using hs
  · rename_i hzero
    obtain ⟨l, c₂, hl, h₂⟩ := bind_ok h₁
    cases hl
    obtain ⟨code', hcode, rfl⟩ := bind_pure_ok h₂
    have ht := hblock rfl hcode
    let Q := I.bodyPost (countFnClose body)
    have hQ : Q = onNext (I.holds []) Q := by
      funext o
      cases o <;> rfl
    have hstop : ∀ s, I.paused s → Q .stop s := fun _ hs => hs
    have hstop' : ∀ s, I.paused s →
        onBr (.fncloseDone c.nextLabel) (I.holds []) Q .stop s := fun s hs => by
      simpa [onBr] using hstop s hs
    change Triple m _ _ Q
    rw [hQ]
    refine Triple.block_last (fun s hs => hstop s (I.paused_holds hs))
      (Triple.block_cons (R := I.failed) (fun s hs => hstop' s (I.paused_holds hs)) ?_ ?_)
    · -- The body inside the handler.
      refine Triple.cons (R := I.holds []) ?_ (TripleOne.tryTable (ht.post ?_))
        (Triple.br_last ?_ ?_)
      · exact fun s hs => by simpa [onNext, onBr, Q] using hstop s (I.paused_holds hs)
      · intro o s hs
        cases o with
        | br w => cases w <;> simp [onNext, LexInv.exits] at hs
        | err => simpa [onNext, onBr, Outcome.catching, LexInv.exits] using hs
        | trap => simp [onNext, LexInv.exits] at hs
        | _ => simpa [onNext, onBr, Outcome.catching, LexInv.exits, Q, LexInv.bodyPost] using hs
      · exact fun s hs => by simpa [onNext, onBr, Q] using hstop s (I.paused_holds hs)
      · exact fun s hs => by simpa [onNext, onBr] using hs
    · -- The handler: it closes what is open and does not fall through.
      have hstop'' : ∀ s, I.paused s → onNext (I.holds [])
          (onBr (.fncloseDone c.nextLabel) (I.holds []) Q) .stop s := fun s hs => by
        simpa [onNext] using hstop' s hs
      refine op_cons_of (R := I.failed) (fun _ => False.elim) hstop'' (fun _ => I.paused_failed)
        (fun _ => I.caught) ?_
      refine op_cons_of (R := fun _ => False) (F := I.aborted) ?_ hstop''
        (fun _ => I.paused_failed) (fun _ => I.closeError) ?_
      · intro s hs
        simpa [onNext, onBr, Q, LexInv.bodyPost, hzero] using hs
      · exact Triple.singleton (fun _ => False.elim) (TripleOne.unreachable fun _ hs => hs)

end Lua2wasm
