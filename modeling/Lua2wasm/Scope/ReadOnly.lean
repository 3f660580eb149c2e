import Lua2wasm.Scope.Assignments
import Lua2wasm.Scope.Checks

/-!
# Read-only variables

`check_assignable` refuses assignments to read-only variables. The logged walk over the tree does what the resolver
does, and its checks follow the scan of `Assignments.lean` (`Follows`): as long as it goes on, the scope is that of the
scan and its checks are those of the assignments, and when it ends with an error, of the first ones.

So every assignment that the parser comes to is refused exactly if Lua refuses it, up to the variables that are
declared `<close>`: the check lets assignments to them pass (`readOnly_refused`).
-/

namespace Lua2wasm

open Fallible (ok_inj)

/-! ## Following a scan -/

/-- The message of `check_assignable`. -/
def constMessage (name : String) : String := s!"attempt to assign to const variable '{name}'"

/-- The check that belongs to an assignment: `<const>` variables are refused. -/
structure Check.Of (c : Check) (a : Assignment) : Prop where
  name : c.name = a.name
  refused : c.refused = true ↔ a.attrib = .const

/-- The checks of the assignments; none is refused. -/
def Passed (cs : List Check) (as : List Assignment) : Prop := List.Forall₂ Check.Of cs as ∧ ∀ c ∈ cs, c.refused = false

/-- The checks of the first assignments. One that is refused is the reason for the error. -/
def Stopped (e : String) (cs : List Check) (as : List Assignment) : Prop :=
  ∃ pre post, as = pre ++ post ∧ List.Forall₂ Check.Of cs pre ∧ ∀ c ∈ cs, c.refused = true → e = constMessage c.name

/-- The frames have got declarations, the innermost alone. -/
structure Within (p p' : Parser) : Prop where
  outer : p'.outer.map (·.locals) = p.outer.map (·.locals)
  locals : ∃ ds, p'.frame.locals = ds ++ p.frame.locals

/-- What a computation leaves that has made the checks `cs` on the way. -/
def Leaves {α : Type} (a : Scan) (p : Parser) (cs : List Check) : Except String (α × Parser) → Prop
  | .ok (_, p') => p'.Ok ∧ Within p p' ∧ p'.scope = (a p.scope).2 ∧ Passed cs (a p.scope).1
  | .error e => Stopped e cs (a p.scope).1

/-- The scope behind a computation is that of the scan. -/
def Walks {α : Type} (m : ResolveM α) (a : Scan) : Prop :=
  ∀ p, p.Ok → ∀ x p', m p = .ok (x, p') → p'.Ok ∧ Within p p' ∧ p'.scope = (a p.scope).2

/-- The logged computation does what the other does, and its checks follow the scan. -/
def Follows {α : Type} (m : CheckM α) (m' : ResolveM α) (a : Scan) : Prop :=
  ∀ p log, p.Ok → ∃ cs, m p log = (m' p, log ++ cs) ∧ Leaves a p cs (m' p)

section

variable {α β γ : Type} {m : CheckM α} {m' : ResolveM α} {f : α → CheckM β} {f' : α → ResolveM β} {a b : Scan}
  {p p' p₁ p₂ : Parser} {as bs : List Assignment} {cs ds : List Check} {e : String}

/-- No declarations. -/
theorem Within.refl (p : Parser) : Within p p := ⟨rfl, [], rfl⟩

/-- Declarations behind declarations. -/
theorem Within.trans (h : Within p p₁) (h' : Within p₁ p₂) : Within p p₂ := by
  obtain ⟨ds, hds⟩ := h.locals
  obtain ⟨ds', hds'⟩ := h'.locals
  exact ⟨h'.outer.trans h.outer, ds' ++ ds, by rw [hds', hds, List.append_assoc]⟩

/-- No checks pass. -/
theorem passed_nil : Passed [] [] := ⟨.nil, by simp⟩

/-- Checks that pass, behind others that do. -/
theorem Passed.append (h : Passed cs as) (h' : Passed ds bs) : Passed (cs ++ ds) (as ++ bs) :=
  ⟨List.rel_append h.1 h'.1, List.forall_mem_append.mpr ⟨h.2, h'.2⟩⟩

/-- Nothing has been checked. -/
theorem stopped_nil (e : String) (as : List Assignment) : Stopped e [] as := ⟨[], as, rfl, .nil, by simp⟩

/-- The assignments that the computation does not come to do not count. -/
theorem Stopped.append (h : Stopped e cs as) (bs : List Assignment) : Stopped e cs (as ++ bs) := by
  obtain ⟨pre, post, rfl, hof, hrefused⟩ := h
  exact ⟨pre, post ++ bs, List.append_assoc _ _ _, hof, hrefused⟩

/-- An error behind checks that pass. -/
theorem Passed.stopped (h : Passed cs as) (h' : Stopped e ds bs) : Stopped e (cs ++ ds) (as ++ bs) := by
  obtain ⟨pre, post, rfl, hof, hrefused⟩ := h'
  refine ⟨as ++ pre, post, (List.append_assoc _ _ _).symm, List.rel_append h.1 hof, ?_⟩
  intro c hc href
  rcases List.mem_append.mp hc with hc | hc
  · rw [h.2 c hc] at href
    exact absurd href (by simp)
  · exact hrefused c hc href

/-- Computations one after the other. -/
theorem Walks.bind {f : α → ResolveM β} (h : Walks m' a) (hf : ∀ x, Walks (f x) b) : Walks (m' >>= f) (a.andThen b) := by
  intro p hp y p₂ hrun
  obtain ⟨x, p₁, hm, hfx⟩ := Fallible.bind_ok hrun
  obtain ⟨hok₁, hw₁, hsc₁⟩ := h p hp x p₁ hm
  obtain ⟨hok₂, hw₂, hsc₂⟩ := hf x p₁ hok₁ y p₂ hfx
  rw [hsc₁] at hsc₂
  exact ⟨hok₂, hw₁.trans hw₂, hsc₂⟩

/-- A value by itself. -/
theorem walks_pure (x : α) : Walks (pure x) .skip := by
  intro p hp y p' h
  obtain ⟨-, rfl⟩ := Fallible.pure_ok h
  exact ⟨hp, .refl p, rfl⟩

/-- A computation without checks. -/
theorem Walks.follows (h : Walks m' a) (ha : ∀ sc, (a sc).1 = []) : Follows (Logged.silent m') m' a := by
  intro p log hp
  refine ⟨[], by rw [List.append_nil]; rfl, ?_⟩
  rcases hmp : m' p with e | ⟨x, p'⟩
  · exact stopped_nil _ _
  · obtain ⟨hok, hw, hsc⟩ := h p hp x p' hmp
    refine ⟨hok, hw, hsc, ?_⟩
    rw [ha]
    exact passed_nil

/-- A value by itself checks nothing. -/
theorem follows_pure (x : α) : Follows (pure x) (pure x) .skip :=
  fun p log hp => ⟨[], by rw [List.append_nil]; rfl, hp, .refl p, rfl, passed_nil⟩

/-- Computations one after the other follow scans one after the other, when those do that go on from a result of the
first. -/
theorem Follows.bind_of (h : Follows m m' a) (hf : ∀ x, (∃ p p', m' p = .ok (x, p')) → Follows (f x) (f' x) b) :
    Follows (m >>= f) (m' >>= f') (a.andThen b) := by
  intro p log hp
  obtain ⟨cs, hrun, hm⟩ := h p log hp
  have hbind : (m' >>= f') p = (m' p).bind fun r => f' r.1 r.2 := rfl
  rw [hbind]
  rcases hmp : m' p with e | ⟨x, p₁⟩
  · rw [hmp] at hm hrun
    exact ⟨cs, Logged.bind_of_error hrun, Stopped.append hm _⟩
  · rw [hmp] at hm hrun
    obtain ⟨hok₁, hw₁, hsc₁, hpass⟩ := hm
    obtain ⟨ds, hrun', hfx⟩ := hf x ⟨p, p₁, hmp⟩ p₁ (log ++ cs) hok₁
    refine ⟨cs ++ ds, ?_, ?_⟩
    · rw [Logged.bind_of_ok hrun, hrun', List.append_assoc]
      rfl
    · change Leaves _ _ _ (f' x p₁)
      rcases hfp : f' x p₁ with e | ⟨y, p₂⟩
      · rw [hfp] at hfx
        unfold Leaves at hfx
        rw [hsc₁] at hfx
        exact hpass.stopped hfx
      · rw [hfp] at hfx
        obtain ⟨hok₂, hw₂, hsc₂, hpass₂⟩ := hfx
        rw [hsc₁] at hsc₂ hpass₂
        exact ⟨hok₂, hw₁.trans hw₂, hsc₂, hpass.append hpass₂⟩

/-- The same where the result does not matter. -/
theorem Follows.bind (h : Follows m m' a) (hf : ∀ x, Follows (f x) (f' x) b) :
    Follows (m >>= f) (m' >>= f') (a.andThen b) :=
  h.bind_of fun x _ => hf x

@[simp] theorem Scan.skip_andThen (a : Scan) : Scan.skip.andThen a = a := rfl

@[simp] theorem Scan.andThen_skip (a : Scan) : a.andThen .skip = a := by
  funext sc
  simp [Scan.andThen, Scan.skip]

/-- Scans compose. -/
theorem Scan.andThen_assoc (a b c : Scan) : (a.andThen b).andThen c = a.andThen (b.andThen c) := by
  funext sc
  simp [Scan.andThen]

/-- A value made from a result. -/
theorem Walks.map (h : Walks m' a) (f : α → β) : Walks (m' >>= fun x => pure (f x)) a := by
  rw [← a.andThen_skip]
  exact h.bind fun x => walks_pure (f x)

/-- A computation that ends with a value made from its result. -/
theorem Follows.map (h : Follows m m' a) (f : α → β) : Follows (m >>= fun x => pure (f x)) (m' >>= fun x => pure (f x)) a := by
  rw [← a.andThen_skip]
  exact h.bind fun x => follows_pure (f x)

/-! ## Leaving a scope -/

/-- The scope depends on the declarations only. -/
theorem scopeOf_congr {fs fs' : List FuncFrame} (h : fs'.map (·.locals) = fs.map (·.locals)) :
    scopeOf fs' = scopeOf fs := by
  have hmap : ∀ fs, scopeOf fs = (fs.map (·.locals)).flatMap (List.map LocalSlot.entry) := fun fs => by
    rw [List.flatMap_map]
    rfl
  rw [hmap, hmap, h]

/-- The declarations since the mark go. -/
theorem scopeRewind_spec (h : Within p p') (hp' : p'.Ok) {u : Unit}
    (hr : scopeRewind p.frame.locals.length p' = .ok (u, p₁)) :
    p₁.Ok ∧ Within p p₁ ∧ p₁.scope = p.scope := by
  obtain ⟨ds, hds⟩ := h.locals
  obtain ⟨-, rfl⟩ := ok_inj hr
  have hdrop : p'.frame.locals.drop (p'.frame.locals.length - p.frame.locals.length) = p.frame.locals := by
    rw [hds, List.length_append, Nat.add_sub_cancel]
    exact List.drop_left
  refine ⟨?_, ⟨h.outer, [], hdrop⟩, ?_⟩
  · intro g hg
    rcases List.mem_cons.mp hg with rfl | hg
    · have hframe := hp' p'.frame List.mem_cons_self
      refine ⟨fun d hd => hframe.wf d (List.mem_of_mem_drop hd), ?_⟩
      exact hframe.nodup.sublist ((List.drop_sublist _ _).filterMap _)
    · exact hp' g (List.mem_cons_of_mem _ hg)
  · show (p'.frame.locals.drop _).map LocalSlot.entry ++ scopeOf p'.outer = _
    rw [hdrop, scopeOf_congr h.outer]
    rfl

/-- The declarations of a computation go out of sight. -/
theorem follows_mark (h : Follows m m' a) :
    Follows ((Logged.silent frameMark : CheckM ℕ) >>= fun mark => m >>= fun x => Logged.silent (scopeRewind mark) >>= fun _ => pure x)
      (frameMark >>= fun mark => m' >>= fun x => scopeRewind mark >>= fun _ => pure x) a.inner := by
  intro p log hp
  obtain ⟨cs, hrun, hm⟩ := h p log hp
  change ∃ cs, (m >>= fun x => Logged.silent (scopeRewind p.frame.locals.length) >>= fun _ => pure x) p log =
      ((m' >>= fun x => scopeRewind p.frame.locals.length >>= fun _ => pure x) p, log ++ cs) ∧ _
  refine ⟨cs, ?_, ?_⟩
  · rcases hmp : m' p with e | ⟨x, p₁⟩
    · rw [hmp] at hrun
      rw [Logged.bind_of_error hrun]
      change _ = ((m' p).bind _, _)
      rw [hmp]
      rfl
    · rw [hmp] at hrun
      rw [Logged.bind_of_ok hrun]
      change _ = ((m' p).bind _, _)
      rw [hmp]
      rfl
  · change Leaves _ _ _ ((m' p).bind _)
    rcases hmp : m' p with e | ⟨x, p₁⟩
    · rw [hmp] at hm
      exact hm
    · rw [hmp] at hm
      obtain ⟨hok₁, hw₁, -, hpass⟩ := hm
      obtain ⟨hok₂, hw₂, hsc₂⟩ := scopeRewind_spec hw₁ hok₁ rfl
      exact ⟨hok₂, hw₂, hsc₂, hpass⟩

/-- The locals of a block go out of sight. -/
theorem Follows.block {k : α → CheckM β} {k' : α → ResolveM β} (h : Follows m m' a) (hk : ∀ x, Follows (k x) (k' x) b) :
    Follows ((Logged.silent frameMark : CheckM ℕ) >>= fun mark => m >>= fun x => Logged.silent (scopeRewind mark) >>= fun _ => k x)
      (frameMark >>= fun mark => m' >>= fun x => scopeRewind mark >>= fun _ => k' x) (a.inner.andThen b) := by
  have hblock := (follows_mark h).bind hk
  simp only [bind_assoc, pure_bind] at hblock
  exact hblock

/-- A block that gives a value. -/
theorem Follows.inScope (h : Follows m m' a) (g : α → β) :
    Follows ((Logged.silent frameMark : CheckM ℕ) >>= fun mark => m >>= fun x => Logged.silent (scopeRewind mark) >>= fun _ => pure (g x))
      (frameMark >>= fun mark => m' >>= fun x => scopeRewind mark >>= fun _ => pure (g x)) a.inner := by
  rw [← a.inner.andThen_skip]
  exact h.block fun x => follows_pure (g x)

/-- The same where two computations make the block. -/
theorem Follows.inScope₂ {f : α → CheckM γ} {f' : α → ResolveM γ} (h : Follows m m' a) (hf : ∀ x, Follows (f x) (f' x) b)
    (g : α → γ → β) :
    Follows ((Logged.silent frameMark : CheckM ℕ) >>= fun mark => m >>= fun x => f x >>= fun y =>
        Logged.silent (scopeRewind mark) >>= fun _ => pure (g x y))
      (frameMark >>= fun mark => m' >>= fun x => f' x >>= fun y => scopeRewind mark >>= fun _ => pure (g x y))
      (a.andThen b).inner := by
  have hboth : Follows (m >>= fun x => f x >>= fun y => pure (x, y)) (m' >>= fun x => f' x >>= fun y => pure (x, y))
      (a.andThen b) := h.bind fun x => (hf x).map _
  have hscope := hboth.inScope fun r => g r.1 r.2
  simp only [bind_assoc, pure_bind] at hscope
  exact hscope

/-! ## The steps of the resolver -/

/-- A computation that leaves the frames alone. -/
theorem follows_frames (h : ∀ p x p', m' p = .ok (x, p') → p'.frame = p.frame ∧ p'.outer = p.outer) :
    Follows (Logged.silent m') m' .skip := by
  refine Walks.follows (fun p hp x p' hmp => ?_) fun _ => rfl
  obtain ⟨hframe, houter⟩ := h p x p' hmp
  refine ⟨?_, ⟨by rw [houter], [], by rw [hframe]; rfl⟩, ?_⟩
  · unfold Parser.Ok
    rw [hframe, houter]
    exact hp
  · unfold Parser.scope
    rw [hframe, houter]
    rfl

/-- A computation that changes nothing of a frame but what scopes do not see. -/
theorem frameOk_same {f f' : FuncFrame} (h : SameDecls f f') (hf : FrameOk f) : FrameOk f' := by
  refine ⟨?_, ?_⟩
  · rw [h.locals, h.nextSlot]
    exact hf.wf
  · rw [h.locals]
    exact hf.nodup

/-- The same for all frames. -/
theorem sameDecls_all {fs fs' : List FuncFrame} (h : List.Forall₂ SameDecls fs fs') (hfs : ∀ g ∈ fs, FrameOk g) :
    fs'.map (·.locals) = fs.map (·.locals) ∧ ∀ g ∈ fs', FrameOk g := by
  induction h with
  | nil => exact ⟨rfl, by simp⟩
  | cons hd _ ih =>
    obtain ⟨hmap, hok⟩ := ih fun g hg => hfs g (List.mem_cons_of_mem _ hg)
    refine ⟨by rw [List.map_cons, List.map_cons, hmap, hd.locals], ?_⟩
    exact List.forall_mem_cons.mpr ⟨frameOk_same hd (hfs _ List.mem_cons_self), hok⟩

/-- What a resolved name leaves, and what is known of it. -/
theorem resolveName_spec {name : String} {r : NameRef} (hp : p.Ok) (h : resolveName name p = .ok (r, p')) :
    p'.Ok ∧ Within p p' ∧ p'.scope = p.scope ∧
      (p'.isConst r.kind r.idx r.ro = true ↔ p.scope.attrib name = .const) := by
  obtain ⟨⟨r', f, fs, globals⟩, hr, h⟩ := Fallible.except_bind_ok h
  obtain ⟨rfl, rfl⟩ := ok_inj h
  obtain ⟨hf, hfs, hiff⟩ := isConst_resolved hp hr
  obtain ⟨houter, hframes⟩ := sameDecls_all hfs fun g hg => hp g (List.mem_cons_of_mem _ hg)
  refine ⟨?_, ⟨houter, [], hf.locals⟩, ?_, ?_⟩
  · intro g hg
    rcases List.mem_cons.mp hg with rfl | hg
    · exact frameOk_same hf (hp _ List.mem_cons_self)
    · exact hframes g hg
  · show f.locals.map LocalSlot.entry ++ scopeOf fs = p.frame.locals.map LocalSlot.entry ++ scopeOf p.outer
    rw [hf.locals, scopeOf_congr houter]
  · exact hiff

/-- A variable is resolved. -/
theorem follows_resolveVar (name : String) : Follows (Logged.silent (resolveVar name)) (resolveVar name) .skip := by
  refine Walks.follows (fun p hp x p' h => ?_) fun _ => rfl
  obtain ⟨r, p₁, hr, h⟩ := Fallible.bind_ok h
  obtain ⟨-, rfl⟩ := Fallible.pure_ok h
  obtain ⟨hok, hw, hsc, -⟩ := resolveName_spec hp hr
  exact ⟨hok, hw, hsc⟩

/-- The check of a variable refuses assignments to `<const>` variables. -/
theorem follows_assign (name : String) :
    Follows (Logged.silent (resolveVar name) >>= fun e => logAssignable e >>= fun _ => pure e)
      (resolveVar name >>= fun e => checkAssignable e >>= fun _ => pure e) (.assign name) := by
  intro p log hp
  rcases hr : resolveName name p with e | ⟨r, p'⟩
  · have hrun : (resolveVar name >>= fun e => checkAssignable e >>= fun _ => pure e) p = .error e := by
      change (((resolveName name p).bind _).bind _) = _
      rw [hr]
      rfl
    have hvar : Logged.silent (resolveVar name) p log = (.error e, log) := by
      change ((resolveName name p).bind _, log) = _
      rw [hr]
      rfl
    rw [hrun, Logged.bind_of_error hvar]
    exact ⟨[], by rw [List.append_nil], stopped_nil _ _⟩
  · obtain ⟨hok, hw, hsc, hconst⟩ := resolveName_spec hp hr
    have hrun : (resolveVar name >>= fun e => checkAssignable e >>= fun _ => pure e) p =
        if p'.isConst r.kind r.idx r.ro then .error (constMessage name)
        else .ok (.var name r.kind r.idx r.ro, p') := by
      change (((resolveName name p).bind _).bind _) = _
      rw [hr]
      change (Except.bind (if _ then _ else _) _) = _
      split_ifs
      · rfl
      · rfl
    have hvar : Logged.silent (resolveVar name) p log = (.ok (.var name r.kind r.idx r.ro, p'), log) := by
      change ((resolveName name p).bind _, log) = _
      rw [hr]
      rfl
    rw [hrun, Logged.bind_of_ok hvar]
    refine ⟨[⟨name, p'.isConst r.kind r.idx r.ro, p'.tablesFit⟩], ?_, ?_⟩
    · have hlog : logAssignable (.var name r.kind r.idx r.ro) p' log =
          (if p'.isConst r.kind r.idx r.ro then .error (constMessage name) else .ok ((), p'),
            log ++ [⟨name, p'.isConst r.kind r.idx r.ro, p'.tablesFit⟩]) := rfl
      split_ifs at hlog ⊢
      · exact Logged.bind_of_error hlog
      · exact Logged.bind_of_ok hlog
    · have hof : List.Forall₂ Check.Of [⟨name, p'.isConst r.kind r.idx r.ro, p'.tablesFit⟩] [⟨name, p.scope.attrib name⟩] :=
        .cons ⟨rfl, hconst⟩ .nil
      split_ifs with hc
      · refine ⟨_, [], (List.append_nil _).symm, hof, ?_⟩
        intro c hmem _
        obtain rfl := List.mem_singleton.mp hmem
        rfl
      · refine ⟨hok, hw, hsc, hof, ?_⟩
        intro c hmem
        obtain rfl := List.mem_singleton.mp hmem
        exact Bool.eq_false_iff.mpr hc

/-- A local comes into scope. -/
theorem walks_declareLocal (msg name : String) (attrib : Attrib) :
    Walks (declareLocal msg name attrib) (.declare [(some name, attrib)]) := by
  intro p hp slot p' h
  unfold declareLocal frameDeclare at h
  by_cases hfull : p.frame.locals.length ≥ maxLocalsPerFn
  · rw [if_pos hfull] at h
    cases h
  · rw [if_neg hfull] at h
    have hframe := hp p.frame List.mem_cons_self
    -- whether the attribute is set or not, this is the frame
    have hmark : (if attrib = .none
        then { p.frame with
          locals := { name := some name, slot := some p.frame.nextSlot } :: p.frame.locals
          nextSlot := p.frame.nextSlot + 1 }
        else frameMarkLast { p.frame with
          locals := { name := some name, slot := some p.frame.nextSlot } :: p.frame.locals
          nextSlot := p.frame.nextSlot + 1 } attrib) =
        { p.frame with
          locals := ⟨some name, some p.frame.nextSlot, attrib, .declLocal⟩ :: p.frame.locals
          nextSlot := p.frame.nextSlot + 1 } := by
      split_ifs with h
      · rw [h]
      · rfl
    dsimp only at h
    rw [hmark] at h
    obtain ⟨-, rfl⟩ := ok_inj h
    refine ⟨?_, ⟨rfl, [_], rfl⟩, rfl⟩
    intro g hg
    rcases List.mem_cons.mp hg with rfl | hg
    · constructor
      · intro d hd
        rcases List.mem_cons.mp hd with rfl | hd
        · exact .loc (Nat.lt_succ_self _)
        · exact (hframe.wf d hd).mono (Nat.le_succ _)
      · -- the slot is new
        refine List.nodup_cons.mpr ⟨fun hmem => ?_, hframe.nodup⟩
        obtain ⟨d, hd, hslot⟩ := List.mem_filterMap.mp hmem
        rcases hframe.wf d hd with @⟨n, slot, attrib, hlt⟩ | _ | _
        · obtain rfl : slot = p.frame.nextSlot := Option.some_inj.mp hslot
          exact lt_irrefl _ hlt
        · exact absurd hslot (by simp)
        · exact absurd hslot (by simp)
    · exact hp g (List.mem_cons_of_mem _ hg)

/-- One name is declared in front of the others. -/
theorem declare_cons (d : String × Attrib) (names : List (String × Attrib)) :
    Scan.declare (declarations (d :: names)) =
      (Scan.declare [(some d.1, d.2)]).andThen (.declare (declarations names)) := by
  funext sc
  simp [Scan.declare, Scan.andThen, declarations]

/-- Locals come into scope. -/
theorem walks_declareLocals (names : List (String × Attrib)) :
    Walks (declareLocals names) (.declare (declarations names)) := by
  induction names with
  | nil => exact walks_pure []
  | cons d names ih =>
    rw [declare_cons]
    exact (walks_declareLocal _ d.1 d.2).bind fun slot => ih.map _

/-- A global comes into scope. -/
theorem walks_declareGlobal (name : Option String) (attrib : Attrib) :
    Walks (declareGlobal name attrib) (.declare [(name, attrib)]) := by
  intro p hp u p' h
  unfold declareGlobal frameDeclareGlobal at h
  by_cases hfull : p.frame.locals.length ≥ maxLocalsPerFn
  · rw [if_pos hfull] at h
    cases h
  · rw [if_neg hfull] at h
    obtain ⟨-, rfl⟩ := ok_inj h
    have hframe := hp p.frame List.mem_cons_self
    refine ⟨?_, ⟨rfl, [_], rfl⟩, rfl⟩
    intro g hg
    rcases List.mem_cons.mp hg with rfl | hg
    · constructor
      · intro d hd
        rcases List.mem_cons.mp hd with rfl | hd
        · rcases name with _ | name
          · exact .globAll
          · exact .glob
        · exact hframe.wf d hd
      · exact hframe.nodup
    · exact hp g (List.mem_cons_of_mem _ hg)

/-- Globals come into scope. -/
theorem walks_declareGlobals (names : List (String × Attrib)) :
    Walks (declareGlobals names) (.declare (declarations names)) := by
  induction names with
  | nil => exact walks_pure ()
  | cons d names ih =>
    rw [declare_cons]
    exact (walks_declareGlobal (some d.1) d.2).bind fun _ => ih

/-- A global gets its index outside the frames. -/
theorem declareGlobalIndex_frames {name : String} {g : ℕ} (h : declareGlobalIndex name p = .ok (g, p')) :
    p'.frame = p.frame ∧ p'.outer = p.outer := by
  obtain ⟨⟨g, globals⟩, -, h⟩ := Fallible.except_bind_ok h
  obtain ⟨-, rfl⟩ := ok_inj h
  exact ⟨rfl, rfl⟩

/-- So do all of a statement. -/
theorem globalIndices_frames {names : List (String × Attrib)} {gs : List ℕ} (h : globalIndices names p = .ok (gs, p')) :
    p'.frame = p.frame ∧ p'.outer = p.outer := by
  induction names generalizing p gs with
  | nil =>
    obtain ⟨-, rfl⟩ := Fallible.pure_ok h
    exact ⟨rfl, rfl⟩
  | cons d names ih =>
    obtain ⟨g, p₁, hd, h⟩ := Fallible.bind_ok h
    obtain ⟨gs, p₂, hrest, h⟩ := Fallible.bind_ok h
    obtain ⟨-, rfl⟩ := Fallible.pure_ok h
    obtain ⟨hframe, houter⟩ := ih hrest
    obtain ⟨hframe₁, houter₁⟩ := declareGlobalIndex_frames hd
    exact ⟨hframe.trans hframe₁, houter.trans houter₁⟩

/-- An expression becomes a target. -/
theorem follows_exprToTarget (e : Expr) : Follows (Logged.silent (exprToTarget e)) (exprToTarget e) .skip := by
  apply follows_frames
  intro p target p' h
  cases e <;> cases h <;> exact ⟨rfl, rfl⟩

/-- The statements of a block. -/
theorem follows_block {m : CheckM (List Stmt)} {m' : ResolveM (List Stmt)} (h : Follows m m' a) :
    Follows (checkBlock m) (resolveBlock m') a := by
  have hbegin : Follows (Logged.silent beginBlock) beginBlock .skip := follows_frames fun p x p' h => by
    cases h
    exact ⟨rfl, rfl⟩
  have hend : ∀ s, Follows (Logged.silent (endBlock s)) (endBlock s) .skip := fun s => follows_frames fun p x p' h => by
    cases h
    exact ⟨rfl, rfl⟩
  rw [← a.andThen_skip]
  exact hbegin.bind fun s => h.bind fun items => (hend s).map _

/-- A goto. -/
theorem follows_declareGoto (name : String) : Follows (Logged.silent (declareGoto name)) (declareGoto name) .skip := by
  apply follows_frames
  intro p x p' h
  unfold declareGoto at h
  split_ifs at h
  · cases h
    exact ⟨rfl, rfl⟩
  · cases h
    exact ⟨rfl, rfl⟩

/-- A label. -/
theorem follows_declareLabel (name : String) (endsBlock : Bool) :
    Follows (Logged.silent (declareLabel name endsBlock)) (declareLabel name endsBlock) .skip := by
  apply follows_frames
  intro p x p' h
  obtain ⟨gotos, -, h⟩ := Fallible.except_bind_ok h
  obtain ⟨-, rfl⟩ := ok_inj h
  exact ⟨rfl, rfl⟩

/-- The vararg expression. -/
theorem follows_resolveVararg : Follows (Logged.silent resolveVararg) resolveVararg .skip := by
  apply follows_frames
  intro p x p' h
  unfold resolveVararg at h
  split_ifs at h
  cases h
  exact ⟨rfl, rfl⟩

/-- Parameters come into scope. -/
theorem walks_declareParams (names : List String) :
    Walks (declareParams names) (.declare (declarations (names.map (·, .none)))) := by
  induction names with
  | nil => exact walks_pure ()
  | cons name names ih =>
    rw [List.map_cons, declare_cons]
    exact (walks_declareLocal _ name .none).bind fun slot => ih

/-- A computation that sets flags of the frame. -/
theorem walks_setFrame (g : FuncFrame → FuncFrame) (hg : ∀ f, SameDecls f (g f)) :
    Walks (fun p => .ok ((), { p with frame := g p.frame }) : ResolveM Unit) .skip := by
  intro p hp u p' h
  obtain ⟨-, rfl⟩ := ok_inj h
  refine ⟨?_, ⟨rfl, [], (hg _).locals⟩, ?_⟩
  · intro f hf
    rcases List.mem_cons.mp hf with rfl | hf
    · exact frameOk_same (hg _) (hp _ List.mem_cons_self)
    · exact hp f (List.mem_cons_of_mem _ hf)
  · change (g p.frame).locals.map _ ++ _ = p.frame.locals.map _ ++ _
    rw [(hg _).locals]

/-- Parameters, with the vararg parameter. -/
theorem follows_declareVararg (params : List String) (vararg : RawVararg) :
    Follows (Logged.silent (declareParams params) >>= fun _ => Logged.silent (declareVararg vararg))
      (declareParams params >>= fun _ => declareVararg vararg) (.declare (funcDeclarations params vararg)) := by
  have hparams := (walks_declareParams params).follows fun _ => rfl
  rcases vararg with _ | _ | name
  · rw [← Scan.andThen_skip (.declare _)]
    exact hparams.bind fun _ => (walks_pure ()).follows fun _ => rfl
  · rw [← Scan.andThen_skip (.declare _)]
    exact hparams.bind fun _ =>
      (walks_setFrame (fun f => { f with isVararg := true }) fun f => ⟨rfl, rfl⟩).follows fun _ => rfl
  · have hscan : Scan.declare (funcDeclarations params (.named name)) =
        (Scan.declare (declarations (params.map (·, .none)))).andThen (.declare [(some name, .const)]) := by
      funext sc
      simp [Scan.declare, Scan.andThen, funcDeclarations]
    rw [hscan, ← Scan.andThen_skip (.declare [(some name, .const)])]
    exact hparams.bind fun _ => Walks.follows ((walks_declareLocal _ name .const).bind fun slot =>
      walks_setFrame (fun f => { f with isVararg := true, varargSlot := some slot }) fun f => ⟨rfl, rfl⟩) fun _ => rfl

/-- A function around its parameters and statements. -/
theorem follows_func {n : ℕ} {m : CheckM Block} {m' : ResolveM Block} (h : Follows m m' a) :
    Follows (Logged.silent beginFunc >>= fun s => m >>= fun body => Logged.silent (endFunc s n body))
      (beginFunc >>= fun s => m' >>= fun body => endFunc s n body) a.inner := by
  intro p log hp
  rcases hbegin : beginFunc p with e | ⟨s, p₁⟩
  · have hlog : Logged.silent beginFunc p log = (.error e, log) := congrArg (·, log) hbegin
    refine ⟨[], ?_, ?_⟩
    · rw [Logged.bind_of_error hlog, List.append_nil]
      change _ = ((beginFunc p).bind _, _)
      rw [hbegin]
      rfl
    · change Leaves _ _ _ ((beginFunc p).bind _)
      rw [hbegin]
      exact stopped_nil _ _
  · -- the statements are walked in a frame of their own
    have hlog : Logged.silent beginFunc p log = (.ok (s, p₁), log) := congrArg (·, log) hbegin
    obtain ⟨hframe₁, houter₁⟩ : p₁.frame = {} ∧ p₁.outer = p.frame :: p.outer := by
      unfold beginFunc at hbegin
      split_ifs at hbegin
      obtain ⟨-, rfl⟩ := ok_inj hbegin
      exact ⟨rfl, rfl⟩
    have hok₁ : p₁.Ok := by
      unfold Parser.Ok
      rw [hframe₁, houter₁]
      exact List.forall_mem_cons.mpr ⟨⟨fun d hd => absurd hd List.not_mem_nil, List.nodup_nil⟩, hp⟩
    have hscope : p₁.scope = p.scope := by
      unfold Parser.scope
      rw [hframe₁, houter₁]
      rfl
    obtain ⟨cs, hrun, hm⟩ := h p₁ log hok₁
    have hbind : (beginFunc >>= fun s => m' >>= fun body => endFunc s n body) p =
        (m' p₁).bind fun r => endFunc s n r.1 r.2 := by
      change (beginFunc p).bind _ = _
      rw [hbegin]
      rfl
    rw [hbind]
    refine ⟨cs, ?_, ?_⟩
    · rw [Logged.bind_of_ok hlog]
      rcases hmp : m' p₁ with e | ⟨body, p₂⟩
      · rw [hmp] at hrun
        exact Logged.bind_of_error hrun
      · rw [hmp] at hrun
        exact Logged.bind_of_ok hrun
    · unfold Leaves at hm
      rw [hscope] at hm
      rcases hmp : m' p₁ with e | ⟨body, p₂⟩
      · rw [hmp] at hm
        exact hm
      · rw [hmp] at hm
        obtain ⟨hok₂, hw, -, hpass⟩ := hm
        have houter : p₂.outer.map (·.locals) = p.frame.locals :: p.outer.map (·.locals) := by
          rw [hw.outer, houter₁]
          rfl
        -- the frame that was outer before is the current one again
        rcases hp₂ : p₂.outer with _ | ⟨g, gs⟩
        · rw [hp₂] at houter
          exact absurd houter (by simp)
        · rw [hp₂] at houter
          obtain ⟨hg, hgs⟩ := List.cons.inj houter
          simp only [Except.bind, endFunc, hp₂]
          refine ⟨?_, ⟨hgs, [], hg⟩, ?_, hpass⟩
          · intro f hf
            exact hok₂ f (List.mem_cons_of_mem _ (hp₂ ▸ hf))
          · change g.locals.map LocalSlot.entry ++ scopeOf gs = p.frame.locals.map LocalSlot.entry ++ scopeOf p.outer
            rw [scopeOf_congr hgs]
            exact congrArg (·.map LocalSlot.entry ++ scopeOf p.outer) hg

/-! ## Targets -/

/-- A target that is a name is resolved as the name. -/
theorem resolveExpr_plain {name : String} : ∀ {e : RawExpr}, plainName e = some name →
    resolveExpr e = resolveVar name ∧ checkExpr e = Logged.silent (resolveVar name)
  | .name n, h => by
    obtain rfl := Option.some_inj.mp h
    exact ⟨rfl, rfl⟩
  | .paren inner, h => by
    obtain ⟨hinner, hlogged⟩ := resolveExpr_plain (e := inner) h
    constructor
    · change (resolveExpr inner >>= fun e => pure e.setParen) = _
      rw [hinner]
      funext p
      change ((resolveName name p).bind _).bind _ = (resolveName name p).bind _
      rcases resolveName name p with e | x
      · rfl
      · rfl
    · change (checkExpr inner >>= fun e => pure e.setParen) = _
      rw [hlogged]
      funext p log
      rcases hr : resolveVar name p with e | ⟨e, p'⟩
      · have hvar : Logged.silent (resolveVar name) p log = (.error e, log) := congrArg (·, log) hr
        rw [Logged.bind_of_error hvar, hvar]
      · have hvar : Logged.silent (resolveVar name) p log = (.ok (e, p'), log) := congrArg (·, log) hr
        obtain ⟨r, p₁, -, h⟩ := Fallible.bind_ok hr
        obtain ⟨rfl, rfl⟩ := Fallible.pure_ok h
        rw [Logged.bind_of_ok hvar, hvar]
        rfl

/-- A name assigns nothing. -/
theorem exprScan_plain {name : String} : ∀ {e : RawExpr}, plainName e = some name → exprScan e = .skip
  | .name _, _ => rfl
  | .paren inner, h => exprScan_plain (e := inner) h

/-- Whether an expression is a variable. -/
def isVar : Expr → Bool
  | .var _ _ _ _ => true
  | _ => false

/-- Parentheses do not matter. -/
theorem isVar_setParen (e : Expr) : isVar e.setParen = isVar e := by
  cases e <;> rfl

/-- Any other target has nothing to check. -/
theorem follows_checkAssignable {e : Expr} (h : isVar e = false) : Follows (logAssignable e) (checkAssignable e) .skip := by
  intro p log hp
  refine ⟨[], ?_, ?_⟩
  · cases e with
    | var => exact absurd h (by simp [isVar])
    | _ => rfl
  · cases e with
    | var => exact absurd h (by simp [isVar])
    | _ => exact ⟨hp, .refl p, rfl, passed_nil⟩

/-- An expression that is not a name is not resolved to a variable. -/
theorem resolveExpr_bare {e' : Expr} {e : RawExpr} (hparen : ∀ inner, e ≠ .paren inner) (hn : plainName e = none)
    (h : resolveExpr e p = .ok (e', p')) : isVar e' = false := by
  cases e with
  | paren inner => exact absurd rfl (hparen inner)
  | name name => exact absurd hn (by simp [plainName])
  | vararg =>
    have h : resolveVararg p = .ok (e', p') := h
    unfold resolveVararg at h
    split_ifs at h
    obtain ⟨rfl, -⟩ := ok_inj h
    rfl
  | nil | true | false | int | float | string =>
    obtain ⟨rfl, rfl⟩ := Fallible.pure_ok h
    rfl
  | function | table | unop =>
    obtain ⟨x, p₁, -, h⟩ := Fallible.bind_ok h
    obtain ⟨rfl, rfl⟩ := Fallible.pure_ok h
    rfl
  | call | index | methodCall | binop =>
    obtain ⟨x, p₁, -, h⟩ := Fallible.bind_ok h
    obtain ⟨y, p₂, -, h⟩ := Fallible.bind_ok h
    obtain ⟨rfl, rfl⟩ := Fallible.pure_ok h
    rfl

/-- Nor is one in parentheses. -/
theorem resolveExpr_other {e' : Expr} (e : RawExpr) (hn : plainName e = none) (p p' : Parser)
    (h : resolveExpr e p = .ok (e', p')) : isVar e' = false := by
  match e with
  | .paren inner =>
    obtain ⟨e₁, p₁, h1, h⟩ := Fallible.bind_ok h
    obtain ⟨rfl, rfl⟩ := Fallible.pure_ok h
    rw [isVar_setParen]
    exact resolveExpr_other inner hn p p₁ h1
  | .nil | .true | .false | .int _ | .float _ | .string _ | .name _ | .vararg | .function _ | .table _ | .call _ _
  | .index _ _ | .methodCall _ _ _ | .unop _ _ | .binop _ _ _ => exact resolveExpr_bare (by simp) hn h
termination_by sizeOf e

/-- A name is checked after it has become a target. -/
theorem assign_target {name : String} {k : AssignTarget → ResolveM β} :
    (resolveVar name >>= fun e => exprToTarget e >>= fun target => checkAssignable e >>= fun _ => k target) =
      (resolveVar name >>= fun e => checkAssignable e >>= fun _ => pure e) >>= fun e => exprToTarget e >>= k := by
  funext p
  change ((resolveName name p).bind _).bind _ = (((resolveName name p).bind _).bind _).bind _
  rcases resolveName name p with e | ⟨r, p'⟩
  · rfl
  · change Except.bind (if _ then _ else _) _ = Except.bind (Except.bind (if _ then _ else _) _) _
    split_ifs
    · rfl
    · rfl

/-- The same in the logged walk. -/
theorem assign_target_logged {name : String} {k : AssignTarget → CheckM β} :
    (Logged.silent (resolveVar name) >>= fun e => Logged.silent (exprToTarget e) >>= fun target =>
        logAssignable e >>= fun _ => k target) =
      (Logged.silent (resolveVar name) >>= fun e => logAssignable e >>= fun _ => pure e) >>= fun e =>
        Logged.silent (exprToTarget e) >>= k := by
  funext p log
  rcases hr : resolveVar name p with e | ⟨e, p'⟩
  · have hvar : Logged.silent (resolveVar name) p log = (.error e, log) := congrArg (·, log) hr
    rw [bind_assoc, Logged.bind_of_error hvar, Logged.bind_of_error hvar]
  · have hvar : Logged.silent (resolveVar name) p log = (.ok (e, p'), log) := congrArg (·, log) hr
    obtain ⟨r, p₁, -, h⟩ := Fallible.bind_ok hr
    obtain ⟨rfl, rfl⟩ := Fallible.pure_ok h
    rw [bind_assoc, Logged.bind_of_ok hvar, Logged.bind_of_ok hvar, bind_assoc]
    rfl

/-! ## The walk -/

mutual

/-- An expression. -/
theorem resolveExpr_follows : ∀ e : RawExpr, Follows (checkExpr e) (resolveExpr e) (exprScan e)
  | .nil => follows_pure _
  | .true => follows_pure _
  | .false => follows_pure _
  | .int _ => follows_pure _
  | .float _ => follows_pure _
  | .string _ => follows_pure _
  | .name name => follows_resolveVar name
  | .paren inner => (resolveExpr_follows inner).map _
  | .vararg => follows_resolveVararg
  | .function func => (resolveFunc_follows false func).map _
  | .table entries => (resolveEntries_follows entries).map _
  | .call callee args => (resolveExpr_follows callee).bind fun _ => (resolveExprs_follows args).map _
  | .index table key => (resolveExpr_follows table).bind fun _ => (resolveExpr_follows key).map _
  | .methodCall recv _ args => (resolveExpr_follows recv).bind fun _ => (resolveExprs_follows args).map _
  | .unop _ operand => (resolveExpr_follows operand).map _
  | .binop _ lhs rhs => (resolveExpr_follows lhs).bind fun _ => (resolveExpr_follows rhs).map _

/-- A list of expressions. -/
theorem resolveExprs_follows : ∀ es : List RawExpr, Follows (checkExprs es) (resolveExprs es) (exprsScan es)
  | [] => follows_pure _
  | e :: es => (resolveExpr_follows e).bind fun _ => (resolveExprs_follows es).map _

/-- The entries of a table. -/
theorem resolveEntries_follows : ∀ es : List RawEntry, Follows (checkEntries es) (resolveEntries es) (entriesScan es)
  | [] => follows_pure _
  | .positional v :: es => (resolveExpr_follows v).bind fun _ => (resolveEntries_follows es).map _
  | .keyExpr k v :: es => by
    unfold entriesScan
    rw [Scan.andThen_assoc]
    exact (resolveExpr_follows k).bind fun _ => (resolveExpr_follows v).bind fun _ => (resolveEntries_follows es).map _

/-- A function. -/
theorem resolveFunc_follows (withSelf : Bool) : ∀ f : RawFunc,
    Follows (checkFunc withSelf f) (resolveFunc withSelf f) (funcScan withSelf f)
  | .mk params vararg body => by
    have hbegin : Follows (Logged.silent beginBody) beginBody .skip := follows_frames fun p x p' h => by
      cases h
      exact ⟨rfl, rfl⟩
    have hend : ∀ s, Follows (Logged.silent (endBody s)) (endBody s) .skip := fun s => follows_frames fun p x p' h => by
      cases h
      exact ⟨rfl, rfl⟩
    have hbody := hbegin.bind fun s => (follows_block (resolveStmts_follows false body)).bind fun body =>
      (hend s).map fun _ => body
    have hfunc := follows_func (n := (paramNames withSelf params).length)
      ((follows_declareVararg (paramNames withSelf params) vararg).bind fun _ => hbody)
    simp only [bind_assoc, pure_bind, Scan.skip_andThen, Scan.andThen_skip] at hfunc
    exact hfunc

/-- A list of statements. -/
theorem resolveStmts_follows (isRepeat : Bool) : ∀ ss : List RawStmt,
    Follows (checkStmts isRepeat ss) (resolveStmts isRepeat ss) (stmtsScan ss)
  | [] => follows_pure _
  | s :: ss => (resolveStmt_follows _ s).bind fun _ => (resolveStmts_follows isRepeat ss).map _

/-- A statement, with one case for each kind. -/
theorem resolveStmt_follows (endsBlock : Bool) : ∀ s : RawStmt,
    Follows (checkStmt endsBlock s) (resolveStmt endsBlock s) (stmtScan s)
  | .localStmt names values =>
    (resolveExprs_follows values).bind fun _ => ((walks_declareLocals names).follows fun _ => rfl).map _
  | .localFunc name func =>
    ((walks_declareLocal _ name .none).follows fun _ => rfl).bind fun _ => (resolveFunc_follows false func).map _
  | .globalFunc name func =>
    (follows_frames fun _ _ _ => declareGlobalIndex_frames).bind fun _ =>
      ((walks_declareGlobal (some name) .none).follows fun _ => rfl).bind fun _ => (resolveFunc_follows false func).map _
  | .globalAll attrib => ((walks_declareGlobal none attrib).follows fun _ => rfl).map _
  | .globalDecl names values =>
    (follows_frames fun _ _ _ => globalIndices_frames).bind fun _ => (resolveExprs_follows values).bind fun _ =>
      ((walks_declareGlobals names).follows fun _ => rfl).map _
  | .functionStmt name path method func => by
    unfold stmtScan
    have hfunc := fun target : AssignTarget => (resolveFunc_follows method.isSome func).map fun k =>
      some (Stmt.assign [target] [.function k])
    -- only a plain name is assigned to; a path reads its base
    by_cases hplain : (path.isEmpty && method.isNone) = true
    · rw [if_pos hplain]
      have hname := (follows_assign name).bind fun base =>
        (follows_exprToTarget (makeIndex base (path ++ method.toList))).bind hfunc
      simp only [bind_assoc, pure_bind] at hname
      unfold checkStmt resolveStmt
      rw [hplain]
      exact hname
    · rw [if_neg hplain]
      unfold checkStmt resolveStmt
      rw [Bool.not_eq_true] at hplain
      rw [hplain]
      exact (follows_resolveVar name).bind fun base => (follows_pure ()).bind fun _ =>
        (follows_exprToTarget (makeIndex base (path ++ method.toList))).bind hfunc
  | .assign targets values => (resolveTargets_follows targets).bind fun _ => (resolveExprs_follows values).map _
  | .exprStmt e => (resolveExpr_follows e).map _
  | .ifStmt arms hasElse elseBody =>
    (resolveArms_follows arms).bind fun _ => (follows_block (resolveStmts_follows false elseBody)).inScope _
  | .whileStmt cond body =>
    (resolveExpr_follows cond).bind fun _ => (follows_block (resolveStmts_follows false body)).inScope _
  | .doStmt body => (follows_block (resolveStmts_follows false body)).inScope _
  | .returnStmt values => (resolveExprs_follows values).map _
  | .forNum name start stop step body => by
    unfold stmtScan
    rw [Scan.andThen_assoc, Scan.andThen_assoc]
    exact (resolveExpr_follows start).bind fun _ => (resolveExpr_follows stop).bind fun _ =>
      (resolveOption_follows step).bind fun _ =>
        ((walks_declareLocal _ name .const).follows fun _ => rfl).inScope₂
          (fun _ => follows_block (resolveStmts_follows false body)) _
  | .forGen names exprs body =>
    (resolveExprs_follows exprs).bind fun _ => ((walks_declareLocals (forGenNames names)).follows fun _ => rfl).inScope₂
      (fun _ => follows_block (resolveStmts_follows false body)) _
  | .repeatStmt body cond =>
    (follows_block (resolveStmts_follows true body)).inScope₂ (fun _ => resolveExpr_follows cond) _
  | .breakStmt => follows_pure _
  | .gotoStmt name => (follows_declareGoto name).map _
  | .label name => (follows_declareLabel name endsBlock).map _

/-- The targets of an assignment. -/
theorem resolveTargets_follows : ∀ ts : List RawExpr, Follows (checkTargets ts) (resolveTargets ts) (targetsScan ts)
  | [] => follows_pure _
  | t :: ts => by
    have hrest := fun target : AssignTarget => (resolveTargets_follows ts).map fun targets => target :: targets
    unfold targetsScan
    rw [Scan.andThen_assoc]
    rcases hname : plainName t with _ | name
    · refine (resolveExpr_follows t).bind_of fun e ⟨p, p', he⟩ => (follows_exprToTarget e).bind fun target => ?_
      exact (follows_checkAssignable (resolveExpr_other t hname p p' he)).bind fun _ => hrest target
    · have hskip : exprScan t = .skip := exprScan_plain hname
      rw [hskip, Scan.skip_andThen]
      obtain ⟨hplain, hlogged⟩ := resolveExpr_plain hname
      have hassign := (follows_assign name).bind fun e => (follows_exprToTarget e).bind hrest
      rw [← assign_target, ← assign_target_logged] at hassign
      unfold checkTargets resolveTargets
      rw [hplain, hlogged]
      exact hassign

/-- An expression that may be missing. -/
theorem resolveOption_follows : ∀ e : Option RawExpr, Follows (checkOption e) (resolveOption e) (optionScan e)
  | none => follows_pure _
  | some e => (resolveExpr_follows e).map _

/-- The arms of an `if`. -/
theorem resolveArms_follows : ∀ arms : List RawArm, Follows (checkArms arms) (resolveArms arms) (armsScan arms)
  | [] => follows_pure _
  | .mk cond body :: arms => by
    unfold armsScan
    rw [Scan.andThen_assoc]
    exact (resolveExpr_follows cond).bind fun _ =>
      (follows_block (resolveStmts_follows false body)).block fun _ => (resolveArms_follows arms).map _

end

/-! ## Programs -/

/-- The assignments that the parser comes to are refused exactly if lexical scoping binds their names to read-only
variables. -/
structure RefusesReadOnly (chunk : List RawStmt) : Prop where
  /-- The check that the parser comes to as number `i` is that of assignment `i`, no escape table has been accessed past
  its end before, and it refuses the assignment exactly if the variable is read-only. -/
  exact : ∀ (i : ℕ) (c : Check), (checks chunk)[i]? = some c → c.inBounds = true ∧
    ∃ a, (assignments chunk)[i]? = some a ∧ c.name = a.name ∧ (c.refused = true ↔ a.attrib ≠ .none)
  /-- A refusal is the error that the program is rejected with. -/
  rejects : ∀ c ∈ checks chunk, c.refused = true → resolve chunk = .error (constMessage c.name)
  /-- In a program that is accepted, the parser comes to all assignments. -/
  complete : ∀ F, resolve chunk = .ok F → (checks chunk).length = (assignments chunk).length

/-- The parser starts in order. -/
theorem init_ok : Parser.init.Ok := by
  intro f hf
  obtain rfl := List.mem_singleton.mp hf
  exact ⟨fun d hd => absurd hd List.not_mem_nil, List.nodup_nil⟩

/-- The checks of a program that is accepted, or refused. -/
theorem resolve_follows (chunk : List RawStmt) : match resolve chunk with
    | .ok _ => Passed (checks chunk) (assignments chunk)
    | .error e => Stopped e (checks chunk) (assignments chunk) := by
  obtain ⟨cs, hlog, hwalk⟩ := follows_block (resolveStmts_follows false chunk) Parser.init [] init_ok
  have hcs : checks chunk = cs := congrArg Prod.snd hlog
  rw [hcs]
  rcases hrun : resolveBlock (resolveStmts false chunk) Parser.init with e | ⟨body, p⟩
  · rw [hrun] at hwalk
    have hres : resolve chunk = .error e := by
      unfold resolve
      rw [hrun]
      rfl
    rw [hres]
    exact hwalk
  · rw [hrun] at hwalk
    obtain ⟨F, hres⟩ : ∃ F, resolve chunk = .ok F := by
      unfold resolve
      rw [hrun]
      exact ⟨_, rfl⟩
    rw [hres]
    exact hwalk.2.2.2

/-- Every check that the parser comes to is that of the assignment at its place. -/
theorem checks_of (chunk : List RawStmt) {i : ℕ} {c : Check} (hc : (checks chunk)[i]? = some c) :
    ∃ a, (assignments chunk)[i]? = some a ∧ c.Of a := by
  have hprefix : ∃ pre post, assignments chunk = pre ++ post ∧ List.Forall₂ Check.Of (checks chunk) pre := by
    have hfollows := resolve_follows chunk
    rcases hres : resolve chunk with e | F
    · rw [hres] at hfollows
      obtain ⟨pre, post, has, hof, -⟩ := hfollows
      exact ⟨pre, post, has, hof⟩
    · rw [hres] at hfollows
      exact ⟨_, [], (List.append_nil _).symm, hfollows.1⟩
  obtain ⟨pre, post, has, hof⟩ := hprefix
  obtain ⟨hi, rfl⟩ := List.getElem?_eq_some_iff.mp hc
  have hlt : i < pre.length := hof.length_eq ▸ hi
  refine ⟨pre[i], ?_, hof.get hi hlt⟩
  rw [has, List.getElem?_append_left hlt, List.getElem?_eq_getElem hlt]

/-- All assignments that the parser comes to are treated as lexical scoping has it exactly if no escape table has been
accessed past its end before, and none of them is to a to-be-closed variable. -/
theorem readOnly_refused (chunk : List RawStmt) : RefusesReadOnly chunk ↔
    ∀ (i : ℕ) (c : Check) (a : Assignment), (checks chunk)[i]? = some c → (assignments chunk)[i]? = some a →
      c.inBounds = true ∧ a.attrib ≠ .close := by
  constructor
  · intro h i c a hc ha
    obtain ⟨hin, a', ha', -, hrefused⟩ := h.exact i c hc
    obtain rfl := Option.some_inj.mp (ha.symm.trans ha')
    obtain ⟨a', ha', hof⟩ := checks_of chunk hc
    obtain rfl := Option.some_inj.mp (ha.symm.trans ha')
    refine ⟨hin, fun hclose => ?_⟩
    have hconst := hof.refused.mp (hrefused.mpr (by simp [hclose]))
    rw [hclose] at hconst
    exact absurd hconst (by simp)
  · intro h
    have hfollows := resolve_follows chunk
    constructor
    · intro i c hc
      obtain ⟨a, ha, hof⟩ := checks_of chunk hc
      obtain ⟨hin, hclose⟩ := h i c a hc ha
      refine ⟨hin, a, ha, hof.name, hof.refused.trans ?_⟩
      rcases a with ⟨_, _ | _ | _⟩
      · simp
      · simp
      · exact absurd rfl hclose
    · intro c hc hrefused
      rcases hres : resolve chunk with e | F
      · rw [hres] at hfollows
        obtain ⟨pre, post, -, -, hreason⟩ := hfollows
        rw [hreason c hc hrefused]
      · rw [hres] at hfollows
        rw [hfollows.2 c hc] at hrefused
        exact absurd hrefused (by simp)
    · intro F hres
      rw [hres] at hfollows
      exact hfollows.1.length_eq

/-- In `local x <close> = nil; x = nil` the assignment passes. -/
theorem close_assigned : ¬RefusesReadOnly
    [.localStmt [("x", .close)] [.nil], .assign [.name "x"] [.nil]] := by
  intro h
  obtain ⟨-, a, ha, -, hrefused⟩ := h.exact 0 ⟨"x", false, true⟩ rfl
  obtain rfl : ⟨"x", .close⟩ = a := Option.some_inj.mp ha
  exact absurd (hrefused.mpr (by simp)) (by simp)

end

end Lua2wasm
