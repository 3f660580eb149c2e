import Lua2wasm.Scope.Functions

/-!
# The walk over the tree

Every resolving function is a sequence of the steps of `Steps.lean` and of recursive calls, so its
`Post` is put together from theirs, one case for each form of the syntax.
-/

namespace Lua2wasm

open Fallible

/-! ## The number of slots -/

/-- `parse_block` returns what its statements return. -/
theorem resolveBlock_yields {stmts : ResolveM (List Stmt)} {Q : Block → Prop} (h : Yields stmts Q) :
    Yields (resolveBlock stmts) Q :=
  yields_after fun _ => h.bind fun _ hbody => yields_after fun _ => yields_pure hbody

/-- A scope of its own: the mark, what is inside, and the rewind to the mark. -/
theorem nested_ok {α β : Type} {m : ResolveM α} {f : α → ResolveM β} {y : β} {p p' : Parser}
    (h : (frameMark >>= fun mark => m >>= fun x => scopeRewind mark >>= fun _ => f x) p = .ok (y, p')) :
    ∃ x p₁ p₂, m p = .ok (x, p₁) ∧ scopeRewind p.frame.locals.length p₁ = .ok ((), p₂) ∧ f x p₂ = .ok (y, p') := by
  obtain ⟨mark, p₁, hmark, hm⟩ := bind_ok h
  obtain ⟨x, p₂, hx, hrewind⟩ := bind_ok hm
  obtain ⟨u, p₃, hu, hf⟩ := bind_ok hrewind
  cases hmark
  exact ⟨x, p₂, p₃, hx, hu, hf⟩

mutual

/-- A statement's slots are as many as the locals it declares. -/
theorem resolveStmt_slots (b : Bool) :
    ∀ s : RawStmt, Yields (resolveStmt b s) fun st => (stmtsSlots st.toList).length = stmtDecls s
  | .localStmt names values => by
    refine yields_after fun values' => (declareLocals_slots names).bind fun slots hslots => yields_pure ?_
    simp [stmtsSlots, stmtSlots, stmtDecls, hslots]
  | .localFunc name func => yields_after fun slot => yields_after fun k => yields_pure rfl
  | .globalFunc name func => yields_after fun g => yields_after fun u => yields_after fun k => yields_pure rfl
  | .globalAll attrib => yields_after fun u => yields_pure rfl
  | .globalDecl names values =>
    yields_after fun gs => yields_after fun values' => yields_after fun u => yields_pure rfl
  | .functionStmt name path method func => by
    refine yields_after fun base => yields_after fun u => ?_
    exact yields_after fun target => yields_after fun k => yields_pure rfl
  | .assign targets values => yields_after fun targets' => yields_after fun values' => yields_pure rfl
  | .exprStmt e => yields_after fun e' => yields_pure rfl
  | .ifStmt arms hasElse elseBody => by
    refine (resolveArms_slots arms).bind fun arms' harms => yields_after fun mark => ?_
    refine (resolveBlock_yields (resolveStmts_slots false elseBody)).bind fun elseBody' helse => ?_
    refine yields_after fun u => yields_pure ?_
    simp [stmtsSlots, stmtSlots, stmtDecls, harms, helse]
  | .whileStmt cond body => by
    refine yields_after fun cond' => yields_after fun mark => ?_
    refine (resolveBlock_yields (resolveStmts_slots false body)).bind fun body' hbody => ?_
    refine yields_after fun u => yields_pure ?_
    simp [stmtsSlots, stmtSlots, stmtDecls, hbody]
  | .doStmt body => by
    refine yields_after fun mark => ?_
    refine (resolveBlock_yields (resolveStmts_slots false body)).bind fun body' hbody => ?_
    refine yields_after fun u => yields_pure ?_
    simp [stmtsSlots, stmtSlots, stmtDecls, hbody]
  | .returnStmt values => yields_after fun values' => yields_pure rfl
  | .forNum name start stop step body => by
    refine yields_after fun start' => yields_after fun stop' => yields_after fun step' => ?_
    refine yields_after fun mark => yields_after fun slot => ?_
    refine (resolveBlock_yields (resolveStmts_slots false body)).bind fun body' hbody => ?_
    refine yields_after fun u => yields_pure ?_
    simp [stmtsSlots, stmtSlots, stmtDecls, hbody]
  | .forGen names exprs body => by
    refine yields_after fun exprs' => yields_after fun mark => ?_
    -- the first name is read-only, which changes no slot
    refine (declareLocals_slots (forGenNames names)).bind fun slots hslots => ?_
    refine (resolveBlock_yields (resolveStmts_slots false body)).bind fun body' hbody => ?_
    refine yields_after fun u => yields_pure ?_
    simp [stmtsSlots, stmtSlots, stmtDecls, hbody, hslots, forGenNames]
    cases names <;> simp
  | .repeatStmt body cond => by
    refine yields_after fun mark => ?_
    refine (resolveBlock_yields (resolveStmts_slots true body)).bind fun body' hbody => ?_
    refine yields_after fun cond' => yields_after fun u => yields_pure ?_
    simp [stmtsSlots, stmtSlots, stmtDecls, hbody]
  | .breakStmt => yields_pure rfl
  | .gotoStmt name => yields_after fun u => yields_pure rfl
  | .label name => yields_after fun u => yields_pure rfl

/-- A block's slots are as many as the locals it declares. -/
theorem resolveStmts_slots (b : Bool) :
    ∀ ss : List RawStmt, Yields (resolveStmts b ss) fun sts => (stmtsSlots sts).length = stmtsDecls ss
  | [] => yields_pure rfl
  | s :: ss => by
    refine (resolveStmt_slots _ s).bind fun st hst => (resolveStmts_slots b ss).bind fun sts hsts => yields_pure ?_
    cases st <;> simp_all [stmtsSlots, stmtsDecls]

/-- The arms of an `if` declare as many slots as locals. -/
theorem resolveArms_slots :
    ∀ arms : List RawArm, Yields (resolveArms arms) fun arms' => (armsSlots arms').length = armsDecls arms
  | [] => yields_pure rfl
  | .mk cond body :: arms => by
    refine yields_after fun cond' => yields_after fun mark => ?_
    refine (resolveBlock_yields (resolveStmts_slots false body)).bind fun body' hbody => yields_after fun u => ?_
    refine (resolveArms_slots arms).bind fun arms' harms => yields_pure ?_
    simp [armsSlots, armsDecls, hbody, harms]

end

/-! ## The walk -/

theorem exprVars_setParen (e : Expr) : exprVars e.setParen = exprVars e := by
  cases e <;> rfl

theorem exprVars_makeIndex (e : Expr) (path : List String) :
    exprVars (makeIndex e path) = exprVars e := by
  induction path generalizing e with
  | nil => rfl
  | cons name path ih => simp [makeIndex, ih, exprVars]

theorem resolveVararg_ok {e : Expr} {p p' : Parser} (h : resolveVararg p = .ok (e, p')) :
    p' = p ∧ ∃ tab, e = .vararg tab false false := by
  unfold resolveVararg at h
  split at h
  · cases h
    exact ⟨rfl, _, rfl⟩
  · cases h

theorem forGenNames_length (names : List String) : (forGenNames names).length = names.length := by
  cases names <;> simp [forGenNames]

theorem forGenNames_fst (names : List String) : (forGenNames names).map (·.1) = names := by
  cases names <;> simp [forGenNames, Function.comp_def]

/-- A statement alone is a block of one statement. -/
theorem Post.single {ids : List ℕ} {occ : List VarOcc} {occs : List (List VarOcc)} {p p' : Parser}
    {vs : List VarOcc} {slots counts counts' : List ℕ} {s : Stmt}
    {L : ParseResult → Env → Env → Prop} (h : Post ids occ occs p p' vs slots counts L)
    (hvs : stmtVars s = vs) (hslots : stmtSlots s = slots) (hcounts : counts' = counts) :
    Post ids occ occs p p' (stmtsVars (some s).toList) (stmtsSlots (some s).toList) counts' L := by
  have h1 : stmtsVars (some s).toList = vs := by simp [stmtsVars, hvs]
  have h2 : stmtsSlots (some s).toList = slots := by simp [stmtsSlots, hslots]
  rw [h1, h2, hcounts]
  exact h

/-- The relation of a step that leaves the environment. -/
abbrev Same (P : ParseResult → Env → Prop) : ParseResult → Env → Env → Prop :=
  fun F env env' => env' = env ∧ P F env

/-- From a parser in order, `m` does what `Post` says, with what is found in its result. -/
abbrev Resolves {α : Type} (m : ResolveM α) (vs : α → List VarOcc) (slots : α → List ℕ) (counts : List ℕ)
    (L : Option ℕ → α → ParseResult → Env → Env → Prop) : Prop :=
  ∀ {ids occ occs p p' x}, Inv ids (occ :: occs) p → m p = .ok (x, p') →
    Post ids occ occs p p' (vs x) (slots x) counts (L ids.head? x)

theorem Resolves.block {stmts : ResolveM (List Stmt)} {vs : List Stmt → List VarOcc} {slots : List Stmt → List ℕ}
    {counts : List ℕ} {L : Option ℕ → List Stmt → ParseResult → Env → Env → Prop}
    (hs : Resolves stmts vs slots counts L) : Resolves (resolveBlock stmts) vs slots counts L :=
  fun hp h => resolveBlock_post h fun _ _ hsame hq => hs (hsame.inv hp) hq

mutual

/-- An expression is resolved by the scoping rule. -/
theorem resolveExpr_post : ∀ e : RawExpr, Resolves (resolveExpr e) exprVars (fun _ => []) (exprFuncs e)
    fun fn e' => Same fun F env => LexExpr F fn env e e'
  | .nil => fun hp h => by
    obtain ⟨rfl, rfl⟩ := pure_ok h
    exact (Post.rfl' hp).imp fun _ _ _ he => ⟨he, .nil⟩
  | .true => fun hp h => by
    obtain ⟨rfl, rfl⟩ := pure_ok h
    exact (Post.rfl' hp).imp fun _ _ _ he => ⟨he, .true⟩
  | .false => fun hp h => by
    obtain ⟨rfl, rfl⟩ := pure_ok h
    exact (Post.rfl' hp).imp fun _ _ _ he => ⟨he, .false⟩
  | .int i => fun hp h => by
    obtain ⟨rfl, rfl⟩ := pure_ok h
    exact (Post.rfl' hp).imp fun _ _ _ he => ⟨he, .int⟩
  | .float x => fun hp h => by
    obtain ⟨rfl, rfl⟩ := pure_ok h
    exact (Post.rfl' hp).imp fun _ _ _ he => ⟨he, .float⟩
  | .string s => fun hp h => by
    obtain ⟨rfl, rfl⟩ := pure_ok h
    exact (Post.rfl' hp).imp fun _ _ _ he => ⟨he, .string⟩
  | .name name => fun hp h => by
    obtain ⟨kind, idx, ro, rfl, post⟩ := resolveVar_post hp h
    exact post.imp fun _ _ _ ⟨he, hr⟩ => ⟨he, .name hr⟩
  | .paren inner => fun hp h => by
    obtain ⟨e₁, h1, rfl⟩ := bind_pure_ok h
    rw [exprVars_setParen]
    exact (resolveExpr_post inner hp h1).imp fun _ _ _ ⟨he, hi⟩ => ⟨he, .paren hi⟩
  | .vararg => fun hp h => by
    obtain ⟨rfl, tab, rfl⟩ := resolveVararg_ok h
    exact (Post.rfl' hp).imp fun _ _ _ he => ⟨he, .vararg⟩
  | .function func => fun hp h => by
    obtain ⟨k, h1, rfl⟩ := bind_pure_ok h
    exact (resolveFunc_post false func hp h1).imp fun _ _ _ ⟨he, hf⟩ => ⟨he, .function hf⟩
  | .table entries => fun hp h => by
    obtain ⟨entries', h1, rfl⟩ := bind_pure_ok h
    exact (resolveEntries_post entries hp h1).imp fun _ _ _ ⟨he, ht⟩ => ⟨he, .table ht⟩
  | .call callee args => fun hp h => by
    obtain ⟨callee', p₁, h1, h⟩ := bind_ok h
    obtain ⟨args', h2, rfl⟩ := bind_pure_ok h
    -- the environment is the same behind the callee, so the arguments see it too
    have post := resolveExpr_post callee hp h1
    refine (post.trans (resolveExprs_post args post.inv h2)).imp ?_
    rintro F env env' ⟨_, ⟨rfl, hf⟩, rfl, ha⟩
    exact ⟨rfl, .call hf ha⟩
  | .index table key => fun hp h => by
    obtain ⟨table', p₁, h1, h⟩ := bind_ok h
    obtain ⟨key', h2, rfl⟩ := bind_pure_ok h
    have post := resolveExpr_post table hp h1
    refine (post.trans (resolveExpr_post key post.inv h2)).imp ?_
    rintro F env env' ⟨_, ⟨rfl, ht⟩, rfl, hk⟩
    exact ⟨rfl, .index ht hk⟩
  | .methodCall recv method args => fun hp h => by
    obtain ⟨recv', p₁, h1, h⟩ := bind_ok h
    obtain ⟨args', h2, rfl⟩ := bind_pure_ok h
    have post := resolveExpr_post recv hp h1
    refine (post.trans (resolveExprs_post args post.inv h2)).imp ?_
    rintro F env env' ⟨_, ⟨rfl, hr⟩, rfl, ha⟩
    exact ⟨rfl, .methodCall hr ha⟩
  | .unop op operand => fun hp h => by
    obtain ⟨operand', h1, rfl⟩ := bind_pure_ok h
    exact (resolveExpr_post operand hp h1).imp fun _ _ _ ⟨he, ho⟩ => ⟨he, .unop ho⟩
  | .binop op lhs rhs => fun hp h => by
    obtain ⟨lhs', p₁, h1, h⟩ := bind_ok h
    obtain ⟨rhs', h2, rfl⟩ := bind_pure_ok h
    have post := resolveExpr_post lhs hp h1
    refine (post.trans (resolveExpr_post rhs post.inv h2)).imp ?_
    rintro F env env' ⟨_, ⟨rfl, hl⟩, rfl, hr⟩
    exact ⟨rfl, .binop hl hr⟩

/-- A list of expressions is resolved from left to right. -/
theorem resolveExprs_post : ∀ es : List RawExpr, Resolves (resolveExprs es) exprsVars (fun _ => []) (exprsFuncs es)
    fun fn es' => Same fun F env => LexExprs F fn env es es'
  | [] => fun hp h => by
    obtain ⟨rfl, rfl⟩ := pure_ok h
    exact (Post.rfl' hp).imp fun _ _ _ he => ⟨he, .nil⟩
  | e :: es => fun hp h => by
    obtain ⟨e₁, p₁, h1, h⟩ := bind_ok h
    obtain ⟨es₁, h2, rfl⟩ := bind_pure_ok h
    have post := resolveExpr_post e hp h1
    refine (post.trans (resolveExprs_post es post.inv h2)).imp ?_
    rintro F env env' ⟨_, ⟨rfl, he⟩, rfl, hes⟩
    exact ⟨rfl, .cons he hes⟩

/-- The entries of a table constructor. -/
theorem resolveEntries_post :
    ∀ es : List RawEntry, Resolves (resolveEntries es) entriesVars (fun _ => []) (entriesFuncs es)
      fun fn es' => Same fun F env => LexEntries F fn env es es'
  | [] => fun hp h => by
    obtain ⟨rfl, rfl⟩ := pure_ok h
    exact (Post.rfl' hp).imp fun _ _ _ he => ⟨he, .nil⟩
  | .positional v :: es => fun hp h => by
    obtain ⟨v', p₁, h1, h⟩ := bind_ok h
    obtain ⟨es₁, h2, rfl⟩ := bind_pure_ok h
    have post := resolveExpr_post v hp h1
    refine (post.trans (resolveEntries_post es post.inv h2)).imp ?_
    rintro F env env' ⟨_, ⟨rfl, he⟩, rfl, hes⟩
    exact ⟨rfl, .positional he hes⟩
  | .keyExpr k v :: es => fun hp h => by
    obtain ⟨k', p₁, h1, h⟩ := bind_ok h
    obtain ⟨v', p₂, h2, h⟩ := bind_ok h
    obtain ⟨es₁, h3, rfl⟩ := bind_pure_ok h
    have post := resolveExpr_post k hp h1
    have post := post.trans (resolveExpr_post v post.inv h2)
    refine (post.trans (resolveEntries_post es post.inv h3)).imp ?_
    rintro F env env' ⟨_, ⟨_, ⟨rfl, hk⟩, rfl, hv⟩, rfl, hes⟩
    exact ⟨rfl, .keyExpr hk hv hes⟩

/-- A function is resolved under the environment of its parameters. -/
theorem resolveFunc_post (withSelf : Bool) :
    ∀ func : RawFunc, Resolves (resolveFunc withSelf func) (fun _ => []) (fun _ => [])
      (funcDecls withSelf func :: funcFuncs func) fun fn k => Same fun F env => LexFunc F fn env withSelf func k
  | .mk params vararg body => fun hp h => by
    obtain ⟨s, p₁, h1, h⟩ := bind_ok h
    obtain ⟨u2, p₂, h2, h⟩ := bind_ok h
    obtain ⟨u3, p₃, h3, h⟩ := bind_ok h
    obtain ⟨b, p₄, h4, h⟩ := bind_ok h
    obtain ⟨body', p₅, h5, h⟩ := bind_ok h
    obtain ⟨u6, p₆, h6, h⟩ := bind_ok h
    have hstart := started hp h1 h2 h3
    cases h4
    cases h6
    have hslots := resolveBlock_yields (resolveStmts_slots false body) _ _ _ h5
    have hsame : SameTables p₃ { p₃ with
        fnLabels := p₃.labels.length, fnGotos := p₃.gotos.length } :=
      ⟨rfl, rfl, rfl, rfl, rfl, rfl⟩
    have hbody := resolveBlock_post h5 fun q₁ q₂ hs hq =>
      resolveStmts_post false body (hs.inv (hsame.inv hstart.inv)) hq
    have hsame' : SameTables p₅ { p₅ with
        gotos := p₅.gotos.take p₅.fnGotos, fnLabels := p₃.fnLabels, fnGotos := p₃.fnGotos } :=
      ⟨rfl, rfl, rfl, rfl, rfl, rfl⟩
    have hbody := hbody.around hsame hsame'
    obtain ⟨rfl, lf, hparent, hparams, hvararg, hlbody, post⟩ :=
      endFunc_post hp (beginFunc_ok h1).1 hstart hbody h
    rw [hslots] at post
    refine post.imp ?_
    rintro F env env' ⟨rfl, hk, env₁, hl⟩
    exact ⟨rfl, .mk hk hparent hparams hvararg hlbody hl⟩

/-- The statements of a block are resolved in order. -/
theorem resolveStmts_post (b : Bool) :
    ∀ ss : List RawStmt, Resolves (resolveStmts b ss) stmtsVars stmtsSlots (stmtsFuncs ss)
      fun fn sts F env env' => LexStmts F fn env ss sts env'
  | [] => fun hp h => by
    obtain ⟨rfl, rfl⟩ := pure_ok h
    refine (Post.rfl' hp).imp ?_
    rintro F env env' rfl
    exact .nil
  | s :: ss => fun hp h => by
    obtain ⟨st, p₁, h1, h⟩ := bind_ok h
    obtain ⟨sts', h2, rfl⟩ := bind_pure_ok h
    have post := resolveStmt_post _ s hp h1
    have post := post.trans (resolveStmts_post b ss post.inv h2)
    have hvars : stmtsVars (st.toList ++ sts') = stmtsVars st.toList ++ stmtsVars sts' := by
      cases st <;> simp [stmtsVars]
    have hslots : stmtsSlots (st.toList ++ sts') = stmtsSlots st.toList ++ stmtsSlots sts' := by
      cases st <;> simp [stmtsSlots]
    rw [hvars, hslots]
    refine post.imp ?_
    rintro F env env' ⟨env₁, hs, hss⟩
    exact .cons hs hss

/-- A statement is resolved by the scoping rule, and extends the environment of the next one. -/
theorem resolveStmt_post (b : Bool) :
    ∀ s : RawStmt, Resolves (resolveStmt b s) (fun st => stmtsVars st.toList) (fun st => stmtsSlots st.toList)
      (stmtFuncs s) fun fn st F env env' => LexStmt F fn env s st env'
  | .localStmt names values => fun hp h => by
    obtain ⟨values', p₁, h1, h⟩ := bind_ok h
    obtain ⟨slots, h2, rfl⟩ := bind_pure_ok h
    -- the values are resolved before the names are declared
    have post := resolveExprs_post values hp h1
    refine ((post.trans (declareLocals_post post.inv h2)).imp ?_).single (List.append_nil _).symm
      rfl (List.append_nil _).symm
    rintro F env env' ⟨_, ⟨rfl, hv⟩, hlen, rfl⟩
    exact .localStmt hv hlen
  | .localFunc name func => fun hp h => by
    obtain ⟨slot, p₁, h1, h⟩ := bind_ok h
    obtain ⟨k, h2, rfl⟩ := bind_pure_ok h
    -- the name is declared before the function, which can call itself
    have post := declareLocal_post hp h1
    refine (post.trans (resolveFunc_post false func post.inv h2)).imp ?_
    rintro F env env' ⟨_, rfl, rfl, hf⟩
    exact .localFunc hf
  | .globalFunc name func => fun hp h => by
    obtain ⟨g, p₁, h1, h⟩ := bind_ok h
    obtain ⟨u, p₂, h2, h⟩ := bind_ok h
    obtain ⟨k, h3, rfl⟩ := bind_pure_ok h
    have post := declareGlobalIndex_post hp h1
    have post := post.trans (declareGlobal_post post.inv h2)
    refine (post.trans (resolveFunc_post false func post.inv h3)).imp ?_
    rintro F env env' ⟨_, ⟨_, ⟨rfl, hg⟩, rfl⟩, rfl, hf⟩
    exact .globalFunc hg hf
  | .globalAll attrib => fun hp h => by
    obtain ⟨u, h1, rfl⟩ := bind_pure_ok h
    refine (declareGlobal_post hp h1).imp ?_
    rintro F env env' rfl
    exact .globalAll
  | .globalDecl names values => fun hp h => by
    obtain ⟨gs, p₁, h1, h⟩ := bind_ok h
    obtain ⟨values', p₂, h2, h⟩ := bind_ok h
    obtain ⟨u, h3, rfl⟩ := bind_pure_ok h
    -- the values do not see the declaration
    have post := globalIndices_post hp h1
    have post := post.trans (resolveExprs_post values post.inv h2)
    refine ((post.trans (declareGlobals_post post.inv h3)).imp ?_).single
      (by simp [stmtVars]) rfl (by simp [stmtFuncs])
    rintro F env env' ⟨_, ⟨_, ⟨rfl, hg⟩, rfl, hv⟩, rfl⟩
    exact .globalDecl hv hg
  | .functionStmt name path method func => fun hp h => by
    obtain ⟨base, p₁, h1, h⟩ := bind_ok h
    obtain ⟨u, p₂, h2, h⟩ := bind_ok h
    obtain ⟨target, p₃, h3, h⟩ := bind_ok h
    obtain ⟨k, h4, rfl⟩ := bind_pure_ok h
    obtain ⟨kind, idx, ro, rfl, post⟩ := resolveVar_post hp h1
    obtain rfl := checkFunctionName_ok h2
    obtain ⟨rfl, ht, hvars⟩ := exprToTarget_ok h3
    rw [exprVars_makeIndex] at hvars
    refine ((post.trans (resolveFunc_post _ func post.inv h4)).imp ?_).single
      (by simp [stmtVars, hvars, exprsVars, exprVars]) rfl rfl
    rintro F env env' ⟨_, ⟨rfl, hr⟩, rfl, hf⟩
    exact .functionStmt hr ht hf
  | .assign targets values => fun hp h => by
    obtain ⟨targets', p₁, h1, h⟩ := bind_ok h
    obtain ⟨values', h2, rfl⟩ := bind_pure_ok h
    have post := resolveTargets_post targets hp h1
    refine ((post.trans (resolveExprs_post values post.inv h2)).imp ?_).single rfl rfl rfl
    rintro F env env' ⟨_, ⟨rfl, ht⟩, rfl, hv⟩
    exact .assign ht hv
  | .exprStmt e => fun hp h => by
    obtain ⟨e', h1, rfl⟩ := bind_pure_ok h
    refine ((resolveExpr_post e hp h1).imp ?_).single rfl rfl rfl
    rintro F env env' ⟨rfl, he⟩
    exact .exprStmt he
  | .ifStmt arms hasElse elseBody => fun hp h => by
    obtain ⟨arms', p₁, h1, h⟩ := bind_ok h
    obtain ⟨elseBody', p₂, p₃, h3, h4, h⟩ := nested_ok h
    obtain ⟨rfl, rfl⟩ := pure_ok h
    have post := resolveArms_post arms hp h1
    have body := Resolves.block (@resolveStmts_post false elseBody) post.inv h3
    refine ((post.trans (body.rewind h4)).imp ?_).single rfl rfl rfl
    rintro F env env' ⟨_, ⟨rfl, ha⟩, rfl, _, hb⟩
    exact .ifStmt ha hb
  | .whileStmt cond body => fun hp h => by
    obtain ⟨cond', p₁, h1, h⟩ := bind_ok h
    obtain ⟨body', p₂, p₃, h3, h4, h⟩ := nested_ok h
    obtain ⟨rfl, rfl⟩ := pure_ok h
    have post := resolveExpr_post cond hp h1
    have bpost := Resolves.block (@resolveStmts_post false body) post.inv h3
    refine ((post.trans (bpost.rewind h4)).imp ?_).single rfl rfl rfl
    rintro F env env' ⟨_, ⟨rfl, hc⟩, rfl, _, hb⟩
    exact .whileStmt hc hb
  | .doStmt body => fun hp h => by
    obtain ⟨body', p₂, p₃, h3, h4, h⟩ := nested_ok h
    obtain ⟨rfl, rfl⟩ := pure_ok h
    have bpost := Resolves.block (@resolveStmts_post false body) hp h3
    refine ((bpost.rewind h4).imp ?_).single rfl rfl rfl
    rintro F env env' ⟨rfl, _, hb⟩
    exact .doStmt hb
  | .returnStmt values => fun hp h => by
    obtain ⟨values', h1, rfl⟩ := bind_pure_ok h
    refine ((resolveExprs_post values hp h1).imp ?_).single rfl rfl rfl
    rintro F env env' ⟨rfl, hv⟩
    exact .returnStmt hv
  | .forNum name start stop step body => fun hp h => by
    obtain ⟨start', p₁, h1, h⟩ := bind_ok h
    obtain ⟨stop', p₂, h2, h⟩ := bind_ok h
    obtain ⟨step', p₃, h3, h⟩ := bind_ok h
    obtain ⟨mark, p₄, h4, h⟩ := bind_ok h
    obtain ⟨slot, p₅, h5, h⟩ := bind_ok h
    obtain ⟨body', p₆, h6, h⟩ := bind_ok h
    obtain ⟨u, h7, rfl⟩ := bind_pure_ok h
    cases h4
    have post := resolveExpr_post start hp h1
    have post := post.trans (resolveExpr_post stop post.inv h2)
    have post := post.trans (resolveOption_post step post.inv h3)
    have bpost := declareLocal_post post.inv h5
    have bpost := bpost.trans (Resolves.block (@resolveStmts_post false body) bpost.inv h6)
    -- the control variable is in the scope of the body, and the bounds are not
    refine ((post.trans (bpost.rewind h7)).imp ?_).single rfl rfl rfl
    rintro F env env' ⟨_, ⟨_, ⟨_, ⟨rfl, h1⟩, rfl, h2⟩, rfl, h3⟩, rfl, _, _, rfl, hb⟩
    exact .forNum h1 h2 h3 hb
  | .forGen names exprs body => fun hp h => by
    obtain ⟨exprs', p₁, h1, h⟩ := bind_ok h
    obtain ⟨mark, p₂, h2, h⟩ := bind_ok h
    obtain ⟨slots, p₃, h3, h⟩ := bind_ok h
    obtain ⟨body', p₄, h4, h⟩ := bind_ok h
    obtain ⟨u, h5, rfl⟩ := bind_pure_ok h
    cases h2
    have post := resolveExprs_post exprs hp h1
    have bpost := declareLocals_post post.inv h3
    have bpost := bpost.trans (Resolves.block (@resolveStmts_post false body) bpost.inv h4)
    refine ((post.trans (bpost.rewind h5)).imp ?_).single rfl rfl rfl
    rintro F env env' ⟨_, ⟨rfl, he⟩, rfl, _, _, ⟨hlen, rfl⟩, hb⟩
    -- the first name is declared with another attribute, under the same name
    rw [forGenNames_length] at hlen
    rw [forGenNames_fst] at hb
    exact .forGen he hlen hb
  | .repeatStmt body cond => fun hp h => by
    obtain ⟨mark, p₁, h1, h⟩ := bind_ok h
    obtain ⟨body', p₂, h2, h⟩ := bind_ok h
    obtain ⟨cond', p₃, h3, h⟩ := bind_ok h
    obtain ⟨u, h4, rfl⟩ := bind_pure_ok h
    cases h1
    have post := Resolves.block (@resolveStmts_post true body) hp h2
    have post := post.trans (resolveExpr_post cond post.inv h3)
    -- the condition is in the scope of the body, so that the rewind comes after it
    refine ((post.rewind h4).imp ?_).single rfl (List.append_nil _).symm rfl
    rintro F env env' ⟨rfl, _, _, hb, rfl, hc⟩
    exact .repeatStmt hb hc
  | .breakStmt => fun hp h => by
    obtain ⟨rfl, rfl⟩ := pure_ok h
    refine (Post.rfl' hp).imp ?_
    rintro F env env' rfl
    exact .breakStmt
  | .gotoStmt name => fun hp h => by
    obtain ⟨u, h1, rfl⟩ := bind_pure_ok h
    refine ((declareGoto_same h1).post hp).imp ?_
    rintro F env env' rfl
    exact .gotoStmt
  | .label name => fun hp h => by
    obtain ⟨u, h1, rfl⟩ := bind_pure_ok h
    refine ((declareLabel_same h1).post hp).imp ?_
    rintro F env env' rfl
    exact .label

/-- The targets of an assignment. -/
theorem resolveTargets_post :
    ∀ es : List RawExpr, Resolves (resolveTargets es) (·.flatMap targetVars) (fun _ => []) (exprsFuncs es)
      fun fn ts => Same fun F env => LexTargets F fn env es ts
  | [] => fun hp h => by
    obtain ⟨rfl, rfl⟩ := pure_ok h
    exact (Post.rfl' hp).imp fun _ _ _ he => ⟨he, .nil⟩
  | e :: es => fun hp h => by
    obtain ⟨e', p₁, h1, h⟩ := bind_ok h
    obtain ⟨t, p₂, h2, h⟩ := bind_ok h
    obtain ⟨u, p₃, h3, h⟩ := bind_ok h
    obtain ⟨ts', h4, rfl⟩ := bind_pure_ok h
    obtain ⟨rfl, ht, hvars⟩ := exprToTarget_ok h2
    obtain rfl := checkAssignable_ok h3
    have post := resolveExpr_post e hp h1
    dsimp only
    rw [List.flatMap_cons, hvars]
    refine (post.trans (resolveTargets_post es post.inv h4)).imp ?_
    rintro F env env' ⟨_, ⟨rfl, he⟩, rfl, hes⟩
    exact ⟨rfl, .cons he ht hes⟩

/-- An expression that may be absent. -/
theorem resolveOption_post :
    ∀ o : Option RawExpr, Resolves (resolveOption o) optionVars (fun _ => []) (optionFuncs o)
      fun fn o' => Same fun F env => LexOption F fn env o o'
  | none => fun hp h => by
    obtain ⟨rfl, rfl⟩ := pure_ok h
    exact (Post.rfl' hp).imp fun _ _ _ he => ⟨he, .none⟩
  | some e => fun hp h => by
    obtain ⟨e', h1, rfl⟩ := bind_pure_ok h
    exact (resolveExpr_post e hp h1).imp fun _ _ _ ⟨he, hi⟩ => ⟨he, .some hi⟩

/-- The arms of an `if`. -/
theorem resolveArms_post :
    ∀ arms : List RawArm, Resolves (resolveArms arms) armsVars armsSlots (armsFuncs arms)
      fun fn arms' => Same fun F env => LexArms F fn env arms arms'
  | [] => fun hp h => by
    obtain ⟨rfl, rfl⟩ := pure_ok h
    exact (Post.rfl' hp).imp fun _ _ _ he => ⟨he, .nil⟩
  | .mk cond body :: arms => fun hp h => by
    obtain ⟨cond', p₁, h1, h⟩ := bind_ok h
    obtain ⟨body', p₂, p₃, h3, h4, h⟩ := nested_ok h
    obtain ⟨arms'', h5, rfl⟩ := bind_pure_ok h
    have post := resolveExpr_post cond hp h1
    have bpost := Resolves.block (@resolveStmts_post false body) post.inv h3
    have post := post.trans (bpost.rewind h4)
    refine (post.trans (resolveArms_post arms post.inv h5)).imp ?_
    rintro F env env' ⟨_, ⟨_, ⟨rfl, hc⟩, rfl, _, hb⟩, rfl, ha⟩
    exact ⟨rfl, .cons hc hb ha⟩

end

end Lua2wasm
