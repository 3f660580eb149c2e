import Lua2wasm.Scope.Steps

/-!
# Opening and closing a function

`resolveFunc` pushes a frame, declares the parameters, walks the body and fills in the function's
record from the frame. The record that `beginFunc` appends to the function table is empty and stands
for the open function. What is known of the frame when the function closes (`FrameInv`) is then known
of the record (`ClosedInv`), and what the frame's upvalues meant to the enclosing frame, the record
now means to it (`uses_set`).
-/

namespace Lua2wasm

open Fallible

variable {ids : List ℕ} {occ : List VarOcc} {occs : List (List VarOcc)}
  {p p' p₁ p₂ p₃ : Parser} {funcs : List LuaFunc} {k : ℕ} {lf : LuaFunc}

/-! ## The function table -/

/-- An empty record uses nothing. -/
theorem uses_append (fn fn' : Option ℕ) (r : UpvalueRef) :
    Uses (funcs ++ [{ parentIdx := fn' }]) fn r ↔ Uses funcs fn r := by
  constructor
  · rintro ⟨lf, hlf, hparent, hr⟩
    rcases List.mem_append.mp hlf with hlf | hlf
    · exact ⟨lf, hlf, hparent, hr⟩
    · obtain rfl := List.mem_singleton.mp hlf
      cases hr
  · rintro ⟨lf, hlf, hparent, hr⟩
    exact ⟨lf, List.mem_append_left _ hlf, hparent, hr⟩

/-- When an empty record is filled in, what it uses is new. -/
theorem uses_set (lf : LuaFunc) {fn' : Option ℕ} (hk : funcs[k]? = some { parentIdx := fn' }) (fn : Option ℕ)
    (r : UpvalueRef) : Uses (funcs.set k lf) fn r ↔
      Uses funcs fn r ∨ (lf.parentIdx = fn ∧ r ∈ lf.upvalues) := by
  obtain ⟨hlt, hget⟩ := List.getElem?_eq_some_iff.mp hk
  constructor
  · rintro ⟨g, hg, hparent, hr⟩
    rcases List.mem_or_eq_of_mem_set hg with hg | rfl
    · exact .inl ⟨g, hg, hparent, hr⟩
    · exact .inr ⟨hparent, hr⟩
  · rintro (⟨g, hg, hparent, hr⟩ | ⟨hparent, hr⟩)
    · obtain ⟨j, hj⟩ := List.mem_iff_getElem?.mp hg
      have hne : k ≠ j := by
        rintro rfl
        rw [hk] at hj
        cases hj
        cases hr
      exact ⟨g, List.mem_iff_getElem?.mpr ⟨j, by rw [List.getElem?_set_ne hne, hj]⟩, hparent, hr⟩
    · exact ⟨lf, List.mem_set hlt lf, hparent, hr⟩

theorem Open.lt (h : Open funcs ids) : ∀ k ∈ ids, k < funcs.length := by
  induction ids with
  | nil => simp
  | cons j ids ih =>
    obtain ⟨hj, -, hrest⟩ := h
    intro k hk
    rcases List.mem_cons.mp hk with rfl | hk
    · exact (List.getElem?_eq_some_iff.mp hj).1
    · exact ih hrest k hk

/-- Only the records of the open functions matter to them. -/
theorem Open.congr {funcs' : List LuaFunc} (h : Open funcs ids)
    (hget : ∀ k ∈ ids, funcs'[k]? = funcs[k]?) : Open funcs' ids := by
  induction ids with
  | nil => trivial
  | cons j ids ih =>
    obtain ⟨hj, hnotin, hrest⟩ := h
    refine ⟨?_, hnotin, ih hrest fun k hk => hget k (List.mem_cons_of_mem _ hk)⟩
    rw [hget j List.mem_cons_self, hj]

/-- The open functions stand in distinct functions. -/
theorem Open.head?_ne (h : Open funcs (k :: ids)) {js : List ℕ} (hjs : js <:+ ids) :
    js.head? ≠ some k := by
  intro heq
  have hmem : k ∈ js := List.mem_of_mem_head? heq
  exact h.2.1 (hjs.mem hmem)

/-- The tables of the frames, when the function table changes in a way that they do not see. -/
theorem FramesInv.congr {funcs' : List LuaFunc} {ups : List UpvalueRef} {fs : List FuncFrame}
    (h : FramesInv funcs ups occs ids fs)
    (huses : ∀ js, js <:+ ids → ∀ r, Uses funcs' js.head? r ↔ Uses funcs js.head? r) :
    FramesInv funcs' ups occs ids fs := by
  induction fs generalizing ups occs ids with
  | nil => cases occs <;> exact h
  | cons f fs ih =>
    cases occs with
    | nil => exact h
    | cons occ occs =>
      obtain ⟨hf, hfs⟩ := h
      refine ⟨{ hf with marked := fun hb s => ?_, used := fun i hi => ?_ }, ih hfs ?_⟩
      · rw [hf.marked hb s, huses ids List.suffix_rfl]
      · rw [huses ids List.suffix_rfl]
        exact hf.used i hi
      · exact fun js hjs => huses js (hjs.trans (List.tail_suffix _))

/-! ## A function begins -/

/-- The state in which a new function's parameters are declared. -/
theorem beginFunc_ok {s : FuncSave} (h : beginFunc p = .ok (s, p')) :
    s = ⟨p.funcs.length, p.curFn⟩ ∧ p' = { p with
      funcs := p.funcs ++ [{ parentIdx := p.curFn }]
      curFn := some p.funcs.length
      frame := {}
      outer := p.frame :: p.outer } := by
  unfold beginFunc at h
  split at h
  · cases h
  · split at h
    · cases h
    · cases h
      exact ⟨rfl, rfl⟩

/-- A fresh frame of a function that nothing stands in yet. -/
theorem frameInv_init {fn : Option ℕ} (h : ∀ r, ¬ Uses funcs fn r) : FrameInv funcs [] [] fn {} where
  wf := by simp
  size := by simp [CapturedTable.init]
  inBounds _ := rfl
  handedOut s hs := by
    have hs : (List.replicate maxLocalsPerFn false)[s]? = some true := hs
    rw [List.getElem?_replicate] at hs
    split at hs <;> cases hs
  marked _ s := by
    change (List.replicate maxLocalsPerFn false)[s]? = some true ↔ _
    rw [List.getElem?_replicate]
    split <;> simp [h]
  used := by simp

/-- The invariant when a function begins. -/
theorem beginFunc_inv {s : FuncSave} (hp : Inv ids (occ :: occs) p)
    (h : beginFunc p = .ok (s, p')) : Inv (p.funcs.length :: ids) ([] :: occ :: occs) p' := by
  obtain ⟨-, rfl⟩ := beginFunc_ok h
  have hlt := hp.opened.lt
  have hget : ∀ k < p.funcs.length, (p.funcs ++ [{ parentIdx := p.curFn }])[k]? = p.funcs[k]? :=
    fun k hk => List.getElem?_append_left hk
  have hfresh : ∀ r, ¬ Uses (p.funcs ++ [{ parentIdx := p.curFn }]) (some p.funcs.length) r := by
    intro r hr
    obtain ⟨lf, hlf, hparent, -⟩ := (uses_append _ _ _).mp hr
    obtain ⟨j, hj⟩ := List.mem_iff_getElem?.mp hlf
    have hjlt := (List.getElem?_eq_some_iff.mp hj).1
    have := hp.parents j lf hj _ hparent
    omega
  refine ⟨rfl, ⟨?_, ?_, ?_⟩, ?_, ?_, ⟨frameInv_init hfresh, ?_⟩, ?_, ?_⟩
  · simp [hp.curFn]
  · exact fun hmem => Nat.lt_irrefl _ (hlt _ hmem)
  · exact hp.opened.congr fun k hk => hget k (hlt k hk)
  · simp [hp.depth]
  · intro k lf hk j hj
    rcases Nat.lt_or_ge k p.funcs.length with hklt | hkge
    · rw [hget k hklt] at hk
      exact hp.parents k lf hk j hj
    · have hk' := (List.getElem?_eq_some_iff.mp hk).1
      simp at hk'
      obtain rfl : k = p.funcs.length := by omega
      simp at hk
      subst hk
      rw [hp.curFn] at hj
      exact hlt j (List.mem_of_mem_head? hj)
  · exact hp.frames.congr fun js _ r => uses_append _ _ _
  · intro k lf hk hnotin
    have hk' := (List.getElem?_eq_some_iff.mp hk).1
    simp only [List.length_append, List.length_singleton] at hk'
    have hne : k ≠ p.funcs.length := fun h => hnotin (h ▸ List.mem_cons_self)
    rw [hget k (by omega)] at hk
    have hc := hp.closed k lf hk fun hmem => hnotin (List.mem_cons_of_mem _ hmem)
    exact ⟨hc.slots, fun hle s => by rw [hc.captured hle s, uses_append],
      fun i hi => by rw [uses_append]; exact hc.used i hi⟩
  · rw [hp.inBounds]
    simp only [List.forall_mem_append, List.forall_mem_singleton]
    exact ⟨fun hall => ⟨hall, Nat.zero_le _⟩, And.left⟩

/-- The declarations of the locals `names` in `slots`, innermost first. -/
def localSlots (names : List String) (slots : List ℕ) : List LocalSlot :=
  ((names.zip slots).map fun (name, slot) =>
    ({ name := some name, slot := some slot } : LocalSlot)).reverse

/-- These declarations as an environment. -/
theorem map_decl_localSlots (names : List String) (slots : List ℕ) (fn : Option ℕ)
    (ds : List LocalSlot) (env : Env) :
    (localSlots names slots ++ ds).map (LocalSlot.decl fn) ++ env =
      Env.declareLocals (ds.map (LocalSlot.decl fn) ++ env) fn names slots := by
  simp [localSlots, Env.declareLocals, LocalSlot.decl, Function.comp_def]

/-- The parameters are declared in the first slots, and nothing else changes. -/
theorem declareParams_ok {names : List String} {u : Unit}
    (h : declareParams names p = .ok (u, p')) :
    p' = { p with frame := { p.frame with
      locals := localSlots names (List.range' p.frame.nextSlot names.length) ++ p.frame.locals
      nextSlot := p.frame.nextSlot + names.length } } := by
  induction names generalizing p with
  | nil =>
    obtain ⟨rfl, rfl⟩ := pure_ok h
    rfl
  | cons name names ih =>
    obtain ⟨slot, p₁, h1, h⟩ := bind_ok h
    obtain ⟨rfl, rfl⟩ := declareLocal_ok h1
    rw [ih h]
    simp [localSlots, List.range'_succ, Nat.add_comm, Nat.add_left_comm]

/-- Locals that were handed out are well formed. -/
theorem localSlots_wf {names : List String} {next : ℕ} {d : LocalSlot}
    (h : d ∈ localSlots names (List.range' next names.length)) : d.Wf (next + names.length) := by
  simp only [localSlots, List.mem_reverse, List.mem_map] at h
  obtain ⟨⟨name, slot⟩, hmem, rfl⟩ := h
  have hslot := (List.of_mem_zip hmem).2
  rw [List.mem_range'_1] at hslot
  exact .loc hslot.2

/-- The state in which the statements of a function begin. -/
structure Started (ids : List ℕ) (occ : List VarOcc) (occs : List (List VarOcc)) (p p' : Parser)
    (params : List String) (vararg : RawVararg) : Prop where
  inv : Inv (p.funcs.length :: ids) ([] :: occ :: occs) p'
  env : p'.env (p.funcs.length :: ids) =
    (p.env ids).declareParams (some p.funcs.length) params vararg
  state : p' = { p with
    funcs := p.funcs ++ [{ parentIdx := p.curFn }], curFn := some p.funcs.length
    frame := p'.frame, outer := p.frame :: p.outer }
  nextSlot : p'.frame.nextSlot = params.length + (varargSlotOf params vararg).toList.length
  upvalues : p'.frame.upvalues = []
  isVararg : p'.frame.isVararg = (vararg != .none)
  varargSlot : p'.frame.varargSlot = varargSlotOf params vararg

/-- The parameter list of a function declares its first slots. -/
theorem started {s : FuncSave} {params : List String} {vararg : RawVararg} {u u' : Unit}
    (hp : Inv ids (occ :: occs) p) (h1 : beginFunc p = .ok (s, p₁))
    (h2 : declareParams params p₁ = .ok (u, p₂)) (h3 : declareVararg vararg p₂ = .ok (u', p₃)) :
    Started ids occ occs p p₃ params vararg := by
  have hinv := beginFunc_inv hp h1
  have hstate := declareParams_ok h2
  obtain ⟨rfl, rfl⟩ := beginFunc_ok h1
  simp only [Nat.zero_add, List.append_nil, ← List.range_eq_range'] at hstate
  have hwf : ∀ d ∈ localSlots params (List.range params.length), d.Wf params.length := by
    intro d hd
    rw [List.range_eq_range'] at hd
    simpa using localSlots_wf hd
  have hinv₂ : ∀ va vs, Inv (p.funcs.length :: ids) ([] :: occ :: occs)
      { p₂ with frame := { p₂.frame with isVararg := va, varargSlot := vs } } := by
    intro va vs
    rw [hstate]
    exact hinv.setFrame hwf (Nat.zero_le _) rfl rfl
  have henv : p₂.env (p.funcs.length :: ids) = (p.env ids).declareLocals (some p.funcs.length)
      params (List.range params.length) := by
    rw [hstate]
    have h := map_decl_localSlots params (List.range params.length) (some p.funcs.length) []
      (p.env ids)
    rw [List.append_nil] at h
    exact h
  cases vararg with
  | none =>
    obtain ⟨-, rfl⟩ := pure_ok h3
    refine ⟨?_, henv, ?_, ?_, ?_, ?_, ?_⟩ <;> simp [hstate, varargSlotOf]
    simpa [hstate] using hinv₂ false none
  | anon =>
    cases h3
    refine ⟨hinv₂ true p₂.frame.varargSlot, henv, ?_, ?_, ?_, ?_, ?_⟩ <;>
      simp [hstate, varargSlotOf]
  | named name =>
    obtain ⟨slot, p₄, h4, h3⟩ := bind_ok h3
    obtain ⟨rfl, rfl⟩ := declareLocal_ok h4
    cases h3
    have hnext : p₂.frame.nextSlot = params.length := by rw [hstate]
    refine ⟨(hinv₂ true (some p₂.frame.nextSlot)).setFrame ?_ (Nat.le_succ _) rfl rfl, ?_, ?_, ?_, ?_,
      ?_, ?_⟩
    · rintro d hd
      rcases List.mem_cons.mp hd with rfl | hd
      · exact .loc (Nat.lt_succ_self _)
      · rw [hstate] at hd
        exact (hwf d hd).mono (by simp [hnext])
    · change Decl.loc name _ _ :: p₂.env _ = _
      rw [henv, hnext]
      rfl
    all_goals simp [hstate, varargSlotOf]

/-! ## A function ends -/

/-- Copying the flags of the slots stays in bounds exactly if the slots fit the table. -/
theorem FrameInv.copy_inBounds {ups : List UpvalueRef} {fn : Option ℕ} {f : FuncFrame}
    (h : FrameInv funcs ups occ fn f) :
    (f.captured.copy f.nextSlot).2 = true ↔ f.nextSlot ≤ maxLocalsPerFn := by
  simp only [CapturedTable.copy, Bool.and_eq_true, decide_eq_true_eq]
  exact ⟨fun hb => hb.2, fun hle => ⟨h.inBounds hle, hle⟩⟩

/-- The record of a function, filled in from its frame. -/
structure Record (ids : List ℕ) (occ : List VarOcc) (f : FuncFrame) (lf : LuaFunc) : Prop where
  parentIdx : lf.parentIdx = ids.head?
  nLocals : lf.nLocals = f.nextSlot
  upvalues : lf.upvalues = f.upvalues
  captured : lf.captured = f.captured.flags.take f.nextSlot
  slots : lf.slots = List.range f.nextSlot
  vars : ∀ o ∈ occ, o ∈ stmtsVars lf.body

/-- A frame that knows what its function table says knows it of the record too. -/
theorem Record.closedInv {f : FuncFrame} {funcs' : List LuaFunc} (h : Record ids occ f lf)
    (hf : FrameInv funcs [] occ (some k) f)
    (huses : ∀ r, Uses funcs' (some k) r ↔ Uses funcs (some k) r) : ClosedInv funcs' k lf := by
  refine ⟨by rw [h.slots, h.nLocals], fun hle s => ?_, fun i hi => ?_⟩
  · rw [h.nLocals] at hle
    have hmarked := hf.marked (hf.inBounds hle) s
    rw [huses, h.captured, List.getElem?_take]
    split
    · simpa using hmarked
    · next hge =>
      -- Slots that were never handed out are not marked.
      have hno : ¬ Uses funcs (some k) ⟨.fromLocal, s⟩ := fun hu =>
        hge (hf.handedOut s (hmarked.mpr (.inl hu)))
      simp [hno]
  · rw [h.upvalues] at hi
    rw [huses]
    rcases hf.used i hi with hocc | hmem | hu
    · exact .inl (h.vars _ hocc)
    · cases hmem
    · exact .inr hu

/-- What a record uses does not concern the functions other than its parent. -/
theorem uses_set_ne (lf : LuaFunc) (hk : funcs[k]? = some { parentIdx := ids.head? })
    (hparent : lf.parentIdx = ids.head?) {fn : Option ℕ} (hne : ids.head? ≠ fn) (r : UpvalueRef) :
    Uses (funcs.set k lf) fn r ↔ Uses funcs fn r := by
  rw [uses_set lf hk]
  exact ⟨fun h => h.resolve_right fun hr => hne (hparent ▸ hr.1), .inl⟩

/-- The tables of the enclosing frames when a function closes: what its frame meant to its parent,
its record now means. -/
theorem Record.framesInv {f g : FuncFrame} {gs : List FuncFrame} {vs : List VarOcc}
    (h : Record ids vs f lf) (hopen : Open funcs (k :: ids)) (hlen : gs.length = ids.length)
    (hframes : FramesInv funcs f.upvalues (occ :: occs) ids (g :: gs)) :
    FramesInv (funcs.set k lf) [] (occ :: occs) ids (g :: gs) := by
  obtain ⟨hg, hgs⟩ := hframes
  have huses := fun fn r => uses_set lf hopen.1 fn r
  refine ⟨{ hg with marked := fun hb s => ?_, used := fun i hi => ?_ }, ?_⟩
  · rw [hg.marked hb s, huses, h.parentIdx, h.upvalues]
    simp
  · rw [huses, h.parentIdx, h.upvalues]
    rcases hg.used i hi with hocc | hmem | hu
    · exact .inl hocc
    · exact .inr (.inr (.inr ⟨rfl, hmem⟩))
    · exact .inr (.inr (.inl hu))
  · cases ids with
    | nil =>
      obtain rfl := List.length_eq_zero_iff.mp hlen
      cases occs <;> exact hgs
    | cons j ids =>
      refine hgs.congr fun js hjs r => uses_set_ne lf hopen.1 h.parentIdx ?_ r
      exact fun heq => hopen.2.2.head?_ne hjs heq.symm

/-- The invariant when a function closes. -/
theorem Record.inv {g : FuncFrame} {gs : List FuncFrame} {vs : List VarOcc} {ib : Bool}
    (h : Record ids vs p.frame lf) (hp : Inv (k :: ids) (vs :: occ :: occs) p)
    (houter : p.outer = g :: gs) (hlt : ∀ j ∈ ids, j < k)
    (hib : ib = true ↔ p.frame.nextSlot ≤ maxLocalsPerFn) :
    Inv ids (occ :: occs) { p with
      funcs := p.funcs.set k lf, curFn := ids.head?, frame := g, outer := gs
      inBounds := p.inBounds && ib } := by
  have hopen := hp.opened
  have hklt := (List.getElem?_eq_some_iff.mp hopen.1).1
  have hdepth := hp.depth
  rw [houter] at hdepth
  have hframes := hp.frames
  rw [houter] at hframes
  have hget : ∀ j, j ≠ k → (p.funcs.set k lf)[j]? = p.funcs[j]? :=
    fun j hj => List.getElem?_set_ne (Ne.symm hj)
  have hgetk : (p.funcs.set k lf)[k]? = some lf := by simp [hklt]
  refine ⟨rfl, ?_, by simpa using hdepth, ?_, ?_, ?_, ?_⟩
  · refine hopen.2.2.congr fun j hj => hget j ?_
    rintro rfl
    exact hopen.2.1 hj
  · intro j lf' hj i hi
    by_cases hjk : j = k
    · subst hjk
      rw [hgetk] at hj
      cases hj
      rw [h.parentIdx] at hi
      exact hlt i (List.mem_of_mem_head? hi)
    · rw [hget j hjk] at hj
      exact hp.parents j lf' hj i hi
  · exact h.framesInv hopen (by simpa using hdepth) hframes.2
  · intro j lf' hj hnotin
    have hne : ids.head? ≠ some j := fun heq => hnotin (List.mem_of_mem_head? heq)
    -- the closing function captures from its parent only
    have huses := uses_set_ne lf hopen.1 h.parentIdx hne
    by_cases hjk : j = k
    · subst hjk
      rw [hgetk] at hj
      cases hj
      exact h.closedInv hframes.1 huses
    · rw [hget j hjk] at hj
      have hc := hp.closed j lf' hj fun hmem => (List.mem_cons.mp hmem).elim hjk hnotin
      exact ⟨hc.slots, fun hle s => by rw [huses]; exact hc.captured hle s,
        fun i hi => by rw [huses]; exact hc.used i hi⟩
  -- the flag gathers the bounds of all closed functions
  · rw [Bool.and_eq_true, hp.inBounds, hib, ← h.nLocals]
    constructor
    · rintro ⟨hall, hk⟩ lf' hlf'
      rcases List.mem_or_eq_of_mem_set hlf' with hlf' | rfl
      · exact hall lf' hlf'
      · exact hk
    · intro hall
      refine ⟨fun lf' hlf' => ?_, hall lf (List.mem_set hklt lf)⟩
      obtain ⟨j, hj⟩ := List.mem_iff_getElem?.mp hlf'
      by_cases hjk : j = k
      · subst hjk
        rw [hopen.1] at hj
        cases hj
        exact Nat.zero_le _
      · exact hall lf' (List.mem_iff_getElem?.mpr ⟨j, by rw [hget j hjk, hj]⟩)

theorem stmtsSlots_prepend (slot : Option ℕ) (body : Block) :
    stmtsSlots (prependVarargDecl slot body) = slot.toList ++ stmtsSlots body := by
  cases slot <;> rfl

theorem stmtsVars_prepend (slot : Option ℕ) (body : Block) :
    stmtsVars (prependVarargDecl slot body) = stmtsVars body := by
  cases slot <;> rfl

/-- The parameters, the name of the vararg table and `n` further locals take the first slots. -/
theorem range_params (params : List String) (vararg : RawVararg) (n : ℕ) :
    List.range params.length ++ (varargSlotOf params vararg).toList ++
      List.range' (params.length + (varargSlotOf params vararg).toList.length) n =
    List.range (params.length + (varargSlotOf params vararg).toList.length + n) := by
  have h (a b : ℕ) : List.range a ++ List.range' a b = List.range (a + b) := by
    rw [List.range_eq_range', List.range_eq_range', ← List.range'_append_1, Nat.zero_add]
  cases vararg with
  | none | anon => simpa [varargSlotOf] using h params.length n
  | named name =>
    simp only [varargSlotOf, Option.toList_some, List.length_singleton]
    rw [← List.range_succ, h]

/-- `endFunc` fills in a function's record from its frame. -/
theorem endFunc_post {s : FuncSave} {params : List String} {vararg : RawVararg} {body : Block}
    {i : ℕ} {counts : List ℕ} {L : ParseResult → Env → Env → Prop}
    (hp : Inv ids (occ :: occs) p) (hs : s = ⟨p.funcs.length, p.curFn⟩)
    (hstart : Started ids occ occs p p₁ params vararg)
    (hbody : Post (p.funcs.length :: ids) [] (occ :: occs) p₁ p₂ (stmtsVars body)
      (stmtsSlots body) counts L)
    (h : endFunc s params.length body p₂ = .ok (i, p')) :
    i = p.funcs.length ∧ ∃ lf : LuaFunc, lf.parentIdx = ids.head? ∧ lf.nParams = params.length ∧
      lf.isVararg = (vararg != .none) ∧
      lf.body = prependVarargDecl (varargSlotOf params vararg) body ∧
      Post ids occ occs p p' [] [] ((params.length +
        (varargSlotOf params vararg).toList.length + (stmtsSlots body).length) :: counts)
        (fun F e e' => e' = e ∧ F.funcs[i]? = some lf ∧ ∃ e₁,
          L F (e.declareParams (some i) params vararg) e₁) := by
  subst hs
  have hg := hbody.grows
  have houter := hg.outer
  have hfuncs := hg.funcs
  have hglobals := hg.globals
  rw [hstart.state] at houter hfuncs hglobals
  obtain ⟨g, gs, hgrow, hgrows, houter₂⟩ := List.forall₂_cons_left_iff.mp houter
  unfold endFunc at h
  rw [houter₂] at h
  obtain ⟨rfl, rfl⟩ : p.funcs.length = i ∧ _ = p' := by simpa using h
  have hvar : p₂.frame.varargSlot = varargSlotOf params vararg :=
    hg.varargSlot.trans hstart.varargSlot
  have hnext : p₂.frame.nextSlot = params.length + (varargSlotOf params vararg).toList.length +
      (stmtsSlots body).length := by
    rw [hbody.next, hstart.nextSlot]
  have hrec : Record ids (stmtsVars body) p₂.frame (p₂.frame.toFunc p.curFn params.length body) := by
    refine ⟨hp.curFn, rfl, rfl, rfl, ?_, ?_⟩
    · have hslots := hbody.slotsEq
      rw [hstart.nextSlot] at hslots
      simp only [LuaFunc.slots, FuncFrame.toFunc, hvar]
      rw [hnext, stmtsSlots_prepend, ← List.append_assoc, hslots]
      simpa using range_params params vararg _
    · intro o ho
      simp only [FuncFrame.toFunc]
      rw [stmtsVars_prepend]
      exact ho
  have hbodyInv := hbody.inv
  rw [List.append_nil] at hbodyInv
  have hinv := hrec.inv hbodyInv houter₂ hp.opened.lt hbodyInv.frames.1.copy_inBounds
  rw [← hp.curFn] at hinv
  -- The new record takes the place of the empty one.
  obtain ⟨rest, hrest⟩ := hfuncs
  have hset : p₂.funcs.set p.funcs.length (p₂.frame.toFunc p.curFn params.length body) =
      p.funcs ++ p₂.frame.toFunc p.curFn params.length body :: rest := by
    rw [← hrest, List.append_assoc, List.set_append_right _ _ (Nat.le_refl _)]
    simp
  refine ⟨rfl, p₂.frame.toFunc p.curFn params.length body, hp.curFn, rfl,
    hg.isVararg.trans hstart.isVararg, ?_, hinv, ?_, rfl, ?_, ?_, ?_⟩
  · simp [FuncFrame.toFunc, hvar]
  · refine ⟨rfl, ?_, hglobals, hgrows, hgrow.locals ▸ List.suffix_rfl, hgrow.upvalues,
      hgrow.isVararg, hgrow.varargSlot⟩
    simp only [hset]
    exact List.prefix_append _ _
  · exact hgrow.nextSlot
  · have hcounts := hbody.countsEq
    rw [hstart.state, ← hrest] at hcounts
    simp only [hset]
    simp at hcounts ⊢
    refine ⟨?_, hcounts⟩
    simp [FuncFrame.toFunc, hnext]
  · intro F hF
    have hklt := (List.getElem?_eq_some_iff.mp hbody.inv.opened.1).1
    have hk : F.funcs[p.funcs.length]? = some (p₂.frame.toFunc p.curFn params.length body) :=
      hF.closed _ _ (by simp [hklt]) hbody.inv.opened.2.1
    have hF₂ : Completes F (p.funcs.length :: ids) p₂ := by
      refine ⟨fun j lf hj hnotin => hF.closed j lf ?_ ?_, ?_, hF.globals⟩
      · have hne : p.funcs.length ≠ j := fun heq => hnotin (heq ▸ List.mem_cons_self)
        simpa [List.getElem?_set_ne hne] using hj
      · exact fun hmem => hnotin (List.mem_cons_of_mem _ hmem)
      · rw [houter₂]
        exact ⟨⟨_, hk, hp.curFn, List.prefix_rfl⟩, hF.frames⟩
    refine ⟨envOf_congr hgrow.locals hgrows, hk, p₂.env (p.funcs.length :: ids), ?_⟩
    rw [← hstart.env]
    exact hbody.lex F hF₂

end Lua2wasm
