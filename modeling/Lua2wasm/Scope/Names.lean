import Lua2wasm.Scope.Invariant

/-!
# Resolving a name

`resolveInFrame` searches the frames from the innermost outwards. It finds the declaration that the
scoping rule prescribes (`resolveInFrame_spec`): the search of one frame is the part of the rule
that looks at this frame's declarations (`frameSearch_some`, `frameSearch_none`), where `FreeNames`
carries what the rule for free names needs to know of the frames already searched. On its way back
it registers an upvalue in every frame between, and these lead to the declaration in every program
that completes the frames.
-/

namespace Lua2wasm

open Fallible

variable {name : String} {i : ℕ} {globals globals' : List String}

/-! ## The search of a frame -/

/-- The rule for free names, after a search that has seen `fn`. -/
def FreeNames.free (fn : FreeNames) (env : Env) (name : String) : Option Binding :=
  if name = "_ENV" then some (.glob false)
  else match fn.collective with
    | .allRw => some (.glob false)
    | .allConst => some (.glob true)
    | .allNone => match env.findSome? Decl.collective with
      | some ro => some (.glob ro)
      | none => if fn.voided || env.any Decl.isGlob then none else some (.glob false)

/-- The scoping rule, after a search that has seen `fn`. -/
def FreeNames.lookup (fn : FreeNames) (env : Env) (name : String) : Option Binding :=
  match env.findSome? (Decl.binds name) with
  | some b => some b
  | none => fn.free env name

/-- At the start of a search this is the scoping rule. -/
theorem FreeNames.lookup_init (env : Env) (name : String) :
    ({} : FreeNames).lookup env name = env.lookup name := rfl

/-- A collective declaration that the search passes decides free names, unless one was passed
before. -/
theorem FreeNames.lookup_globAll (fn : FreeNames) (ro : Bool) (env : Env) (name : String) :
    fn.lookup (.globAll ro :: env) name =
      (if fn.collective = .allNone then
        { fn with collective := if ro then .allConst else .allRw } else fn).lookup env name := by
  obtain ⟨c, v⟩ := fn
  cases c <;> cases ro <;> simp [FreeNames.lookup, FreeNames.free, List.findSome?_cons]

/-- A `global` declaration of another name only voids free names. -/
theorem FreeNames.lookup_glob {fn : FreeNames} {n name : String} (ro : Bool) (env : Env)
    (h : n ≠ name) :
    fn.lookup (.glob n ro :: env) name = ({ fn with voided := true } : FreeNames).lookup env name := by
  simp [FreeNames.lookup, FreeNames.free, List.findSome?_cons, h]

/-- A local of another name is passed. -/
theorem FreeNames.lookup_loc {fn : FreeNames} {n name : String} (g : Option ℕ) (slot : ℕ) (env : Env)
    (h : n ≠ name) : fn.lookup (.loc n g slot :: env) name = fn.lookup env name := by
  simp [FreeNames.lookup, FreeNames.free, List.findSome?_cons, h]

/-- What the search finds in a frame of function `k` is the declaration that the scoping rule
prescribes. -/
theorem frameSearch_some (k : Option ℕ) {next : ℕ} {ds : List LocalSlot}
    (hwf : ∀ d ∈ ds, d.Wf next) {fn fn' : FreeNames} {d : LocalSlot}
    (h : frameSearch name ds fn = (some d, fn')) (env : Env) :
    d ∈ ds ∧ d.kind ≠ .declGlobalAll ∧ d.name = some name ∧
      fn.lookup (ds.map (LocalSlot.decl k) ++ env) name = (d.decl k).binds name := by
  induction ds generalizing fn with
  | nil => simp [frameSearch] at h
  | cons e ds ih =>
    have hwf' : ∀ d ∈ ds, d.Wf next := fun d hd => hwf d (List.mem_cons_of_mem _ hd)
    simp only [frameSearch] at h
    cases hwf e List.mem_cons_self with
    | @loc n slot attrib hs | @glob n attrib =>
      by_cases hn : n = name
      · subst hn
        simp at h
        obtain ⟨rfl, -⟩ := h
        simp [LocalSlot.decl, FreeNames.lookup]
      · simp [hn] at h
        obtain ⟨hd, hkind, hname, hl⟩ := ih hwf' h
        refine ⟨List.mem_cons_of_mem _ hd, hkind, hname, ?_⟩
        rw [← hl]
        first | exact FreeNames.lookup_loc _ _ _ hn | exact FreeNames.lookup_glob _ _ hn
    | @globAll attrib =>
      simp at h
      obtain ⟨hd, hkind, hname, hl⟩ := ih hwf' h
      refine ⟨List.mem_cons_of_mem _ hd, hkind, hname, ?_⟩
      rw [← hl]
      simpa [LocalSlot.decl] using FreeNames.lookup_globAll fn (attrib = .const) _ name

/-- When the search of a frame finds nothing, the scoping rule goes on outside it. -/
theorem frameSearch_none (k : Option ℕ) {next : ℕ} {ds : List LocalSlot}
    (hwf : ∀ d ∈ ds, d.Wf next) {fn fn' : FreeNames} (h : frameSearch name ds fn = (none, fn')) (env : Env) :
    fn.lookup (ds.map (LocalSlot.decl k) ++ env) name = fn'.lookup env name := by
  induction ds generalizing fn with
  | nil =>
    simp [frameSearch] at h
    simp [h]
  | cons e ds ih =>
    have hwf' : ∀ d ∈ ds, d.Wf next := fun d hd => hwf d (List.mem_cons_of_mem _ hd)
    simp only [frameSearch] at h
    cases hwf e List.mem_cons_self with
    | @loc n slot attrib hs | @glob n attrib =>
      by_cases hn : n = name
      · simp [hn] at h
      · simp [hn] at h
        rw [← ih hwf' h]
        first | exact FreeNames.lookup_loc _ _ _ hn | exact FreeNames.lookup_glob _ _ hn
    | @globAll attrib =>
      simp at h
      rw [← ih hwf' h]
      simpa [LocalSlot.decl] using FreeNames.lookup_globAll fn (attrib = .const) _ name

/-! ## Upvalues and globals -/

/-- `frameAddUpvalue` finds the upvalue or appends it. -/
theorem frameAddUpvalue_cases {f f' : FuncFrame} {r : UpvalueRef} (h : frameAddUpvalue f r = some (i, f')) :
    (f' = f ∧ f.upvalues[i]? = some r) ∨ (f' = { f with upvalues := f.upvalues ++ [r] } ∧ i = f.upvalues.length) := by
  unfold frameAddUpvalue at h
  split at h
  · next j hj =>
    obtain ⟨rfl, rfl⟩ : j = i ∧ f = f' := by simpa using h
    obtain ⟨hlt, hr, -⟩ := List.findIdx?_eq_some_iff_getElem.mp hj
    left
    simpa [List.getElem?_eq_getElem hlt] using hr
  · split at h
    · cases h
    · right
      simp at h
      exact ⟨h.2.symm, h.1.symm⟩

/-- What an added upvalue changes: the upvalue list grows, the new entry is at its index, and
nothing else is new. -/
theorem frameAddUpvalue_spec {f f' : FuncFrame} {r : UpvalueRef} (h : frameAddUpvalue f r = some (i, f')) :
    FrameGrows f f' ∧ f'.captured = f.captured ∧ f'.upvalues[i]? = some r ∧
      (∀ x, x ∈ f'.upvalues ↔ x ∈ f.upvalues ∨ x = r) ∧ ∀ j < f'.upvalues.length, j < f.upvalues.length ∨ j = i := by
  rcases frameAddUpvalue_cases h with ⟨rfl, hi⟩ | ⟨rfl, rfl⟩
  · refine ⟨FrameGrows.refl _, rfl, hi, fun x => ⟨Or.inl, ?_⟩, fun j hj => Or.inl hj⟩
    rintro (hx | rfl)
    · exact hx
    · exact List.mem_of_getElem? hi
  · refine ⟨⟨rfl, rfl, rfl, rfl, List.prefix_append _ _⟩, rfl, by simp, by simp, ?_⟩
    intro j hj
    simp at hj
    omega

/-- `globalIndex` returns the index of the name in a table that may have grown. -/
theorem globalIndex_spec {g : ℕ} (h : globalIndex globals name = .ok (g, globals')) :
    globals <+: globals' ∧ globals'[g]? = some name := by
  unfold globalIndex at h
  split at h
  · next j hj =>
    obtain ⟨rfl, rfl⟩ : j = g ∧ globals = globals' := by simpa using h
    obtain ⟨hlt, hr, -⟩ := List.findIdx?_eq_some_iff_getElem.mp hj
    exact ⟨List.prefix_rfl, by simpa [List.getElem?_eq_getElem hlt] using hr⟩
  · split at h
    · cases h
    · obtain ⟨rfl, rfl⟩ : globals.length = g ∧ globals ++ [name] = globals' := by simpa using h
      exact ⟨List.prefix_append _ _, by simp⟩

/-- `resolveGlobal` refers to the global of the name. -/
theorem resolveGlobal_spec {ro : Bool} {r : NameRef} (h : resolveGlobal globals name ro = .ok (r, globals')) :
    globals <+: globals' ∧ r.kind ≠ .varLocal ∧ r.kind ≠ .varUpval ∧
      ∀ (F : ParseResult) (fn : Option ℕ), globals' <+: F.globals →
        Refers F fn name (some (.glob ro)) r.kind r.idx r.ro := by
  unfold resolveGlobal at h
  split at h
  · next b hb =>
    obtain ⟨rfl, rfl⟩ : (⟨.varBuiltin, b, ro⟩ : NameRef) = r ∧ globals = globals' := by
      simpa using h
    exact ⟨List.prefix_rfl, by simp, by simp, fun F fn _ => .builtin hb⟩
  · next hb =>
    obtain ⟨⟨g, gl⟩, hg, h⟩ := map_ok h
    obtain ⟨rfl, rfl⟩ : (⟨.varGlobal, g, ro⟩ : NameRef) = r ∧ gl = globals' := by simpa using h
    obtain ⟨hpre, hget⟩ := globalIndex_spec hg
    refine ⟨hpre, by simp, by simp, fun F fn hF => .global hb ?_⟩
    obtain ⟨rest, hrest⟩ := hF
    rw [← hrest, List.getElem?_append_left (List.getElem?_eq_some_iff.mp hget).1, hget]

/-! ## The tables along the way -/

variable {funcs : List LuaFunc} {ups ups' : List UpvalueRef} {occ occ' : List VarOcc}
  {fn : Option ℕ} {f f' : FuncFrame}

/-- More occurrences do no harm. -/
theorem FrameInv.mono (h : FrameInv funcs ups occ fn f) (hocc : ∀ o ∈ occ, o ∈ occ') :
    FrameInv funcs ups occ' fn f :=
  { h with used := fun i hi => (h.used i hi).imp_left (hocc _) }

/-- An upvalue registered for a variable that occurs here. -/
theorem FrameInv.addUpvalue (h : FrameInv funcs ups occ fn f) {r : UpvalueRef}
    (hadd : frameAddUpvalue f r = some (i, f')) : FrameInv funcs ups ((.varUpval, i) :: occ) fn f' := by
  obtain ⟨hg, hcap, -, -, hnew⟩ := frameAddUpvalue_spec hadd
  refine ⟨?_, ?_, ?_, ?_, ?_, ?_⟩
  · rw [hg.locals, hg.nextSlot]
    exact h.wf
  · rw [hcap]
    exact h.size
  · rw [hcap, hg.nextSlot]
    exact h.inBounds
  · rw [hcap, hg.nextSlot]
    exact h.handedOut
  · rw [hcap]
    exact h.marked
  · intro j hj
    rcases hnew j hj with hlt | rfl
    · exact (h.used j hlt).imp_left (List.mem_cons_of_mem _)
    · exact .inl List.mem_cons_self

/-- An occurrence of an upvalue that a nested function passes on needs no other use. -/
theorem FrameInv.passUpval (h : FrameInv funcs ups ((.varUpval, i) :: occ) fn f)
    (hups : ∀ x, x ∈ ups' ↔ x ∈ ups ∨ x = ⟨.fromUpval, i⟩) : FrameInv funcs ups' occ fn f := by
  refine { h with marked := fun hb s => ?_, used := fun j hj => ?_ }
  · rw [h.marked hb s, hups]
    simp
  · rcases h.used j hj with hocc | hmem | hpass
    · rcases List.mem_cons.mp hocc with heq | hocc
      · obtain rfl : j = i := by simpa using heq
        exact .inr (.inl ((hups _).mpr (.inr rfl)))
      · exact .inl hocc
    · exact .inr (.inl ((hups _).mpr (.inl hmem)))
    · exact .inr (.inr hpass)

/-- An occurrence that is no upvalue is no use of one. -/
theorem FrameInv.dropOcc {kind : VarKind} (h : FrameInv funcs ups ((kind, i) :: occ) fn f)
    (hkind : kind ≠ .varUpval) : FrameInv funcs ups occ fn f := by
  refine { h with used := fun j hj => ?_ }
  rcases h.used j hj with hocc | hrest
  · rcases List.mem_cons.mp hocc with heq | hocc
    · exact absurd (Prod.mk.inj heq).1.symm hkind
    · exact .inl hocc
  · exact .inr hrest

/-- Marking a slot that a nested function captures. -/
theorem FrameInv.passLocal {s : ℕ} (h : FrameInv funcs ups occ fn f) (hs : s < f.nextSlot)
    (hups : ∀ x, x ∈ ups' ↔ x ∈ ups ∨ x = ⟨.fromLocal, s⟩) :
    FrameInv funcs ups' occ fn { f with captured := f.captured.mark s } := by
  have hsize := h.size
  unfold CapturedTable.mark
  split
  next hlt =>
    refine ⟨h.wf, ?_, h.inBounds, ?_, ?_, ?_⟩
    · simpa using hsize
    · intro t ht
      rcases eq_or_ne s t with rfl | hne
      · exact hs
      · exact h.handedOut t (by simpa [List.getElem?_set_ne hne] using ht)
    · intro hb t
      rcases eq_or_ne s t with rfl | hne
      · simp [hups, hsize, hlt]
      · have := h.marked hb t
        simp only [List.getElem?_set_ne hne, this, hups]
        simp [Ne.symm hne]
    · exact fun j hj => (h.used j hj).imp_right (.imp_left fun hmem => (hups _).mpr (.inl hmem))
  next hge =>
    refine ⟨h.wf, hsize, fun hle => ?_, h.handedOut, fun hb => by simp at hb, ?_⟩
    · simp only at hle
      omega
    · exact fun j hj => (h.used j hj).imp_right (.imp_left fun hmem => (hups _).mpr (.inl hmem))

/-! ## The search of all frames -/

/-- What `resolveInFrame` does: the frames keep their meaning, and the reference it returns is one
to what the scoping rule prescribes, in every program that completes them. -/
structure ResolvedIn (funcs : List LuaFunc) (globals : List String) (name : String)
    (ups : List UpvalueRef) (occ : List VarOcc) (occs : List (List VarOcc)) (ids : List ℕ)
    (f : FuncFrame) (outer : List FuncFrame) (fn : FreeNames) (r : NameRef) (f' : FuncFrame)
    (outer' : List FuncFrame) (globals' : List String) : Prop where
  frameGrows : FrameGrows f f'
  outerGrows : List.Forall₂ FrameGrows outer outer'
  globalsGrow : globals <+: globals'
  inv : FramesInv funcs ups (((r.kind, r.idx) :: occ) :: occs) ids (f' :: outer')
  slot : r.kind = .varLocal → r.idx < f.nextSlot
  refers : ∀ F : ParseResult, FramesOk F ids (f' :: outer') → globals' <+: F.globals →
    Refers F ids.head? name (fn.lookup (envOf ids (f :: outer)) name) r.kind r.idx r.ro

theorem forall₂_frameGrows_refl (fs : List FuncFrame) : List.Forall₂ FrameGrows fs fs := by
  induction fs with
  | nil => exact .nil
  | cons f fs ih => exact .cons (.refl f) ih

/-- A local variable denotes itself. -/
theorem Denotes.varLocal {F : ParseResult} {g : Option ℕ} {idx slot : ℕ}
    (h : Denotes F fn .varLocal idx g slot) : fn = g ∧ idx = slot := by
  cases h
  exact ⟨rfl, rfl⟩

/-- A global is the same in every function. -/
theorem Refers.global_of {F : ParseResult} {fn' : Option ℕ} {b : Option Binding}
    {kind : VarKind} {idx : ℕ} {ro : Bool} (h : Refers F fn name b kind idx ro)
    (hl : kind ≠ .varLocal) (hu : kind ≠ .varUpval) : Refers F fn' name b kind idx ro := by
  cases h with
  | loc hd => cases hd <;> simp_all
  | builtin hb => exact .builtin hb
  | global hb hg => exact .global hb hg

/-- Only the upvalues of a frame matter to its completion. -/
theorem FramesOk.congr {F : ParseResult} {ids : List ℕ} {g g' : FuncFrame} {gs : List FuncFrame}
    (h : FramesOk F ids (g :: gs)) (hups : g'.upvalues = g.upvalues) : FramesOk F ids (g' :: gs) := by
  cases ids with
  | nil => cases gs <;> exact h
  | cons k ids =>
    obtain ⟨⟨lf, hlf, hparent, hpre⟩, hrest⟩ := h
    exact ⟨⟨lf, hlf, hparent, hups ▸ hpre⟩, hrest⟩

/-- A variable of the enclosing function becomes an upvalue of the innermost frame, and leads to
the same local. -/
theorem ResolvedIn.upval {occs : List (List VarOcc)} {k : ℕ} {ids : List ℕ} {gs gs' : List FuncFrame}
    {g g' g'' f f' : FuncFrame} {fn fn' : FreeNames} {r : NameRef} {src : UpvalSource} {occ₂ : List VarOcc}
    (ih : ResolvedIn funcs globals name f.upvalues occ₂ occs ids g gs fn' r g' gs' globals')
    (hinv : FrameInv funcs ups occ (some k) f) (hadd : frameAddUpvalue f ⟨src, r.idx⟩ = some (i, f'))
    (hg : FrameGrows g' g'') (hg'' : FrameInv funcs f'.upvalues occ₂ ids.head? g'')
    (hlookup : fn.lookup (envOf (k :: ids) (f :: g :: gs)) name = fn'.lookup (envOf ids (g :: gs)) name)
    (hups : g''.upvalues = g'.upvalues)
    (hsrc : (src = .fromLocal ∧ r.kind = .varLocal) ∨ (src = .fromUpval ∧ r.kind = .varUpval)) :
    ResolvedIn funcs globals name ups occ (occ₂ :: occs) (k :: ids) f (g :: gs) fn
      ⟨.varUpval, i, false⟩ f' (g'' :: gs') globals' := by
  obtain ⟨hgrow, -, hget, -, -⟩ := frameAddUpvalue_spec hadd
  refine ⟨hgrow, .cons (ih.frameGrows.trans hg) ih.outerGrows, ih.globalsGrow, ?_, by simp, ?_⟩
  · refine ⟨hinv.addUpvalue hadd, hg'', ?_⟩
    rw [hups]
    exact ih.inv.2
  · rintro F ⟨⟨lf, hlf, hparent, hpre⟩, hok⟩ hF
    have hok' : FramesOk F ids (g' :: gs') := hok.congr hups.symm
    have hlf' : lf.upvalues[i]? = some ⟨src, r.idx⟩ := by
      obtain ⟨rest, hrest⟩ := hpre
      rw [← hrest, List.getElem?_append_left (List.getElem?_eq_some_iff.mp hget).1, hget]
    have href := ih.refers F hok' hF
    rw [hlookup]
    obtain ⟨kind, idx, ro⟩ := r
    simp only at href hsrc hlf'
    generalize fn'.lookup (envOf ids (g :: gs)) name = b at href ⊢
    -- The enclosing frame's reference is to a local, so the new upvalue denotes that local.
    rcases hsrc with ⟨rfl, rfl⟩ | ⟨rfl, rfl⟩
    · cases href with
      | loc hd =>
        obtain ⟨rfl, rfl⟩ := hd.varLocal
        rw [← hparent]
        exact .loc (.fromLocal hlf hlf')
    · cases href with
      | loc hd => exact .loc (.fromUpval hlf hlf' (hparent ▸ hd))

/-- A name that the innermost frame declares. -/
theorem resolvedIn_found {r : NameRef}
    {outer outer' : List FuncFrame} {fn fn' : FreeNames} {ids : List ℕ} {d : LocalSlot}
    {occs : List (List VarOcc)} (hs : frameSearch name f.locals fn = (some d, fn')) (h : (match d.kind, d.slot with
      | .declLocal, some slot => .ok (⟨.varLocal, slot, false⟩, f, outer, globals)
      | _, _ => (resolveGlobal globals name (d.attrib = .const)).map fun (r, globals) =>
          (r, f, outer, globals) : Except String _) = .ok (r, f', outer', globals'))
    (hinv : FramesInv funcs ups (occ :: occs) ids (f :: outer)) :
    ResolvedIn funcs globals name ups occ occs ids f outer fn r f' outer' globals' := by
  obtain ⟨hd, hall, hname, hl⟩ :=
    frameSearch_some ids.head? hinv.1.wf hs (envOf ids.tail outer)
  cases hinv.1.wf d hd with
  | @loc n slot attrib hslot =>
    obtain ⟨rfl, rfl, rfl, rfl⟩ :
        (⟨.varLocal, slot, false⟩ : NameRef) = r ∧ f = f' ∧ outer = outer' ∧ globals = globals' := by
      simpa using h
    obtain rfl : n = name := by simpa using hname
    refine ⟨.refl _, forall₂_frameGrows_refl _, List.prefix_rfl, ⟨hinv.1.mono ?_, hinv.2⟩,
      fun _ => hslot, fun F _ _ => ?_⟩
    · exact fun o ho => List.mem_cons_of_mem _ ho
    · simp only [envOf, hl, LocalSlot.decl, Decl.binds, if_true]
      exact .loc .here
  | @glob n attrib =>
    obtain ⟨⟨r', gl⟩, hr, h⟩ := map_ok h
    obtain ⟨rfl, rfl, rfl, rfl⟩ : r' = r ∧ f = f' ∧ outer = outer' ∧ gl = globals' := by
      simpa using h
    obtain rfl : n = name := by simpa using hname
    obtain ⟨hpre, hnl, -, href⟩ := resolveGlobal_spec hr
    refine ⟨.refl _, forall₂_frameGrows_refl _, hpre, ⟨hinv.1.mono ?_, hinv.2⟩,
      fun hk => absurd hk hnl, fun F _ hF => ?_⟩
    · exact fun o ho => List.mem_cons_of_mem _ ho
    · simp only [envOf, hl, LocalSlot.decl, Decl.binds, if_true]
      exact href F _ hF
  | globAll => exact absurd rfl hall

/-- `resolveInFrame` follows the scoping rule. -/
theorem resolveInFrame_spec {r : NameRef}
    {outer outer' : List FuncFrame} {f f' : FuncFrame} {fn : FreeNames} {ids : List ℕ} {occs : List (List VarOcc)}
    (h : resolveInFrame name globals f outer fn = .ok (r, f', outer', globals')) (hlen : outer.length = ids.length)
    (hinv : FramesInv funcs ups (occ :: occs) ids (f :: outer)) :
    ResolvedIn funcs globals name ups occ occs ids f outer fn r f' outer' globals' := by
  induction outer generalizing f fn f' outer' r ids occ occs ups globals' with
  -- the outermost frame: what it does not declare is free
  | nil =>
    obtain rfl : ids = [] := List.length_eq_zero_iff.mp hlen.symm
    unfold resolveInFrame at h
    split at h
    · next d fn' hs => exact resolvedIn_found hs h hinv
    · next fn' hs =>
      have hl := frameSearch_none none hinv.1.wf hs []
      simp only at h
      split at h
      · cases h
      · next hfree =>
        obtain ⟨⟨r', gl⟩, hr, h⟩ := map_ok h
        obtain ⟨rfl, rfl, rfl, rfl⟩ : r' = r ∧ f = f' ∧ [] = outer' ∧ gl = globals' := by
          simpa using h
        obtain ⟨hpre, hnl, -, href⟩ := resolveGlobal_spec hr
        refine ⟨.refl _, .nil, hpre, ⟨hinv.1.mono ?_, hinv.2⟩, fun hk => absurd hk hnl,
          fun F _ hF => ?_⟩
        · exact fun o ho => List.mem_cons_of_mem _ ho
        · have hfree' : fn'.lookup [] name =
              some (.glob (!decide (name = "_ENV") && decide (fn'.collective = .allConst))) := by
            obtain ⟨c, v⟩ := fn'
            by_cases hname : name = "_ENV" <;> cases c <;> cases v <;>
              simp_all [FreeNames.lookup, FreeNames.free]
          simp only [envOf, List.head?_nil, hl, hfree']
          exact href F _ hF
  -- a variable of an enclosing function is captured on the way in
  | cons g gs ih =>
    obtain ⟨k, ids, rfl⟩ : ∃ k ids', ids = k :: ids' := by
      cases ids with
      | nil => simp at hlen
      | cons k ids => exact ⟨k, ids, rfl⟩
    obtain ⟨occ₂, occs, rfl⟩ : ∃ o os, occs = o :: os := by
      cases occs with
      | nil => exact absurd hinv.2 (by simp [FramesInv])
      | cons o os => exact ⟨o, os, rfl⟩
    unfold resolveInFrame at h
    split at h
    · next d fn' hs => exact resolvedIn_found hs h hinv
    · next fn' hs =>
      obtain ⟨hf, hgs⟩ := hinv
      have hl := frameSearch_none (some k) hf.wf hs (envOf ids (g :: gs))
      obtain ⟨⟨r₁, g₁, gs₁, gl₁⟩, hrec, h⟩ := except_bind_ok h
      have hin := ih hrec (by simpa using hlen) hgs
      have hin_inv := hin.inv
      obtain ⟨kind, idx, ro⟩ := r₁
      cases kind with
      | varBuiltin | varGlobal =>
        obtain ⟨rfl, rfl, rfl, rfl⟩ := by simpa using h
        refine ⟨.refl _, .cons hin.frameGrows hin.outerGrows, hin.globalsGrow,
          ⟨hf.mono fun o ho => List.mem_cons_of_mem _ ho, hin_inv.1.dropOcc (by simp), hin_inv.2⟩,
          by simp, ?_⟩
        rintro F ⟨-, hok⟩ hF
        change Refers F _ name (fn.lookup (f.locals.map _ ++ envOf ids (g :: gs)) name) _ _ _
        rw [List.head?_cons, hl]
        exact (hin.refers F hok hF).global_of (by simp) (by simp)
      | varLocal =>
        simp only at h
        split at h
        · next i f₁ hadd =>
          obtain ⟨rfl, rfl, rfl, rfl⟩ := by simpa using h
          obtain ⟨-, -, -, hmem, -⟩ := frameAddUpvalue_spec hadd
          refine hin.upval hf hadd ⟨rfl, rfl, rfl, rfl, List.prefix_rfl⟩ ?_ hl rfl (.inl ⟨rfl, rfl⟩)
          have hlt := hin.slot rfl
          rw [← hin.frameGrows.nextSlot] at hlt
          exact (hin_inv.1.dropOcc (by simp)).passLocal hlt hmem
        · cases h
      | varUpval =>
        simp only at h
        split at h
        · next i f₁ hadd =>
          obtain ⟨rfl, rfl, rfl, rfl⟩ := by simpa using h
          obtain ⟨-, -, -, hmem, -⟩ := frameAddUpvalue_spec hadd
          exact hin.upval hf hadd (.refl _) (hin_inv.1.passUpval hmem) hl rfl (.inr ⟨rfl, rfl⟩)
        · cases h

end Lua2wasm
