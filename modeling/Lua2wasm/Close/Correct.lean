import Lua2wasm.Close.Trace
import Lua2wasm.Codegen.LexWalk
import Lua2wasm.Resolve

/-!
# To-be-closed values are closed in order

The compiler keeps a static count of the to-be-closed values in scope, and the run time a stack. The
invariant is that the stack holds exactly what the scope says (`OpenAt`); it is lexical, so it
holds wherever a statement executes. A goto into the scope of a to-be-closed variable breaks it: the
stack is then lower than the count, and later closes stop too early. The bound on the stack needs no
such condition.
-/

namespace Lua2wasm

open Structured

/-- The truthy entries of the stack. -/
def truthyItems (items : List (Binder × Bool)) : List Binder :=
  (items.filter (·.2)).map (·.1)

/-- The trace agrees with the stack, if its gotos stay out of the scopes of to-be-closed variables;
then `P` holds of the entries too. -/
def Agrees (s : TbcState) (P : List Binder → Prop) : Prop :=
  JumpsStayOut s.trace →
    openAfter s.trace = some (truthyItems s.items) ∧ P (s.items.map (·.1))

/-- At most `bound` entries, within the array, of which `P` holds. -/
structure StackAt (cap bound : ℕ) (P : List Binder → Prop) (s : TbcState) : Prop where
  size : s.size = cap
  room : s.items.length ≤ cap
  bound : s.items.length ≤ bound
  agrees : Agrees s P

/-- The invariant where a scope is current: the entries are those of the scope. -/
def OpenAt (cap : ℕ) (scope : LexScope) : TbcState → Prop :=
  StackAt cap (height scope) (· = closers scope)

/-- The stack of a scope, cut down to a height. -/
def CutAt (cap : ℕ) (scope : LexScope) (k : ℕ) : TbcState → Prop :=
  StackAt cap k (· = (closers scope).drop (height scope - k))

/-- The stack where a block is left: the entries of the scope outside it are at the bottom. -/
def LeavingAt (cap : ℕ) (outer : LexScope) (k : ℕ) : TbcState → Prop :=
  StackAt cap k (closers outer <:+ ·)

/-- The stack after an error: whatever is open. -/
def FailedAt (cap : ℕ) : TbcState → Prop := StackAt cap cap fun _ => True

/-- The trace kept the rules. -/
def TraceOk (s : TbcState) : Prop := JumpsStayOut s.trace → (openAfter s.trace).isSome

theorem Agrees.mono {s : TbcState} {P P' : List Binder → Prop} (h : Agrees s P)
    (hP : ∀ l, P l → P' l) : Agrees s P' :=
  fun hj => ⟨(h hj).1, hP _ (h hj).2⟩

theorem Agrees.traceOk {s : TbcState} {P : List Binder → Prop} (h : Agrees s P) : TraceOk s :=
  fun hj => by rw [(h hj).1]; rfl

/-- A trace that grew by something other than a bad goto had only good gotos before. -/
theorem JumpsStayOut.tail {e : Event} {trace : List Event} (h : JumpsStayOut (e :: trace)) :
    JumpsStayOut trace :=
  fun scope target hm => h scope target (List.mem_cons_of_mem _ hm)

/-- The truthy entries are among the entries, in order. -/
theorem truthyItems_sublist (items : List (Binder × Bool)) :
    (truthyItems items).Sublist (items.map (·.1)) :=
  List.filter_sublist.map _

/-! ## The instructions -/

/-- `$close_upto` pops down to the target, closing the truthy entries it pops, unless the run stops
on the way; with an error pending it raises. -/
theorem closeLoop_spec (target : ℕ) (items : List (Binder × Bool)) (pending : Bool)
    (choices : List Choice) (trace : List Event) :
    let r := closeLoop target items pending choices trace
    (JumpsStayOut r.2.2.2 → JumpsStayOut trace) ∧
      (openAfter trace = some (truthyItems items) →
        openAfter r.2.2.2 = some (truthyItems r.2.1)) ∧
      r.1 ≠ .trap ∧ (pending → r.1 ≠ .ok) ∧
      (r.1 ≠ .stop → r.2.1 = items.drop (items.length - target)) := by
  induction items generalizing pending choices trace with
  | nil =>
    cases pending <;> simp [closeLoop]
  | cons item items ih =>
    obtain ⟨b, truthy⟩ := item
    unfold closeLoop
    split
    · rename_i hle
      have : items.length + 1 - target = 0 := by omega
      cases pending <;> simp [this]
    · rename_i hgt
      have hdrop : items.length + 1 - target = items.length - target + 1 := by omega
      split
      · rename_i htruthy
        have hpop (h : openAfter trace = some (truthyItems ((b, truthy) :: items))) :
            openAfter (.closed b :: trace) = some (truthyItems items) := by
          simp [openAfter, h, truthyItems, htruthy]
        cases choices with
        | nil =>
          refine ⟨JumpsStayOut.tail, hpop, by simp, by simp, by simp⟩
        | cons c choices =>
          obtain ⟨h₁, h₂, h₃, h₄, h₅⟩ := ih (pending || c.raises) choices (.closed b :: trace)
          refine ⟨fun h => (h₁ h).tail, fun h => h₂ (hpop h), h₃, ?_, ?_⟩
          · intro hp
            exact h₄ (by simp [hp])
          · simpa [hdrop] using h₅
      · rename_i htruthy
        obtain ⟨h₁, h₂, h₃, h₄, h₅⟩ := ih pending choices trace
        refine ⟨h₁, fun h => h₂ ?_, h₃, h₄, by simpa [hdrop] using h₅⟩
        simpa [truthyItems, htruthy] using h

/-- What `$close_upto` does to a state in which the trace agrees with the stack. -/
theorem closeUpto_ends {cap bound target : ℕ} {pending : Bool} {s : TbcState}
    {P : List Binder → Prop} (h : StackAt cap bound P s) :
    Ends (fun s' => pending = false ∧
        StackAt cap target (fun l => ∃ l₀, P l₀ ∧ l = l₀.drop (l₀.length - target)) s')
      (fun s' => FailedAt cap s' ∧ s'.items.length ≤ target) TraceOk
      (closeUpto target pending s) := by
  obtain ⟨h₁, h₂, h₃, h₄, h₅⟩ := closeLoop_spec target s.items pending s.choices s.trace
  have hroom := h.room
  unfold closeUpto
  generalize closeLoop target s.items pending s.choices s.trace = r at h₁ h₂ h₃ h₄ h₅
  obtain ⟨sig, items, choices, trace⟩ := r
  dsimp only at h₁ h₂ h₃ h₄ h₅ ⊢
  have hagree : Agrees { s with items, choices, trace } fun _ => True :=
    fun hj => ⟨h₂ (h.agrees (h₁ hj)).1, trivial⟩
  have hlen (hs : sig ≠ .stop) : items.length ≤ cap ∧ items.length ≤ target := by
    rw [h₅ hs, List.length_drop]
    omega
  unfold Ends
  cases sig with
  | ok =>
    obtain ⟨hc, ht⟩ := hlen (by simp)
    refine ⟨by cases pending <;> simp_all, h.size, hc, ht, fun hj => ⟨(hagree hj).1, ?_⟩⟩
    refine ⟨s.items.map (·.1), (h.agrees (h₁ hj)).2, ?_⟩
    simp [h₅, List.map_drop]
  | err =>
    obtain ⟨hc, ht⟩ := hlen (by simp)
    exact ⟨⟨h.size, hc, hc, hagree⟩, ht⟩
  | trap => exact h₃ rfl
  | stop => exact hagree.traceOk

/-- Only a registration adds a to-be-closed value to the scope. -/
theorem Act.closers_binds {a : Act} (h : ∀ b, a ≠ .tbcPush b) (scope : LexScope) :
    closers (a.binds ++ scope) = closers scope := by
  have hslots (l : List ℕ) : closers ((l.map Binder.slot).reverse) = [] := by
    simp [closers, Binder.isClose, List.filter_reverse, List.filter_eq_nil_iff]
  have hnil : closers a.binds = [] := by
    cases a with
    | tbcPush b => exact absurd rfl (h b)
    | localStores localIdxs values => exact hslots localIdxs
    | forGenBind localIdxs => exact hslots localIdxs
    | _ => rfl
  unfold closers at hnil ⊢
  rw [List.filter_append, hnil, List.nil_append]

/-- A statement's instruction only adds itself to the trace. -/
theorem execStmt_ends {cap : ℕ} {scope : LexScope} {a : Act} {s : TbcState}
    (ha : ∀ b, a ≠ .tbcPush b) (h : OpenAt cap scope s) :
    Ends (OpenAt cap (a.binds ++ scope)) (FailedAt cap) TraceOk (execStmt scope s) := by
  have hclosers := Act.closers_binds ha scope
  have hheight : height (a.binds ++ scope) = height scope := by
    unfold height
    rw [hclosers]
  unfold execStmt
  cases hc : s.choices with
  | nil => exact h.agrees.traceOk
  | cons c choices =>
    have hagree : Agrees { s with flag := c.flag, choices, trace := .stmt scope :: s.trace }
        (· = closers scope) := by
      intro hj
      obtain ⟨ho, hl⟩ := h.agrees hj.tail
      have hsub : (truthyItems s.items).isSublist (closers scope) := by
        rw [List.isSublist_iff_sublist, ← hl]
        exact truthyItems_sublist s.items
      exact ⟨by simp [openAfter, ho, hsub], hl⟩
    unfold Ends
    by_cases hr : c.raises
    · simp only [hr, if_true]
      exact ⟨h.size, h.room, h.room, hagree.mono fun _ _ => trivial⟩
    · simp only [hr, Bool.false_eq_true, if_false]
      exact ⟨h.size, h.room, hheight ▸ h.bound, hclosers ▸ hagree⟩

/-- A registration adds an entry, within the bound of the array. -/
theorem tbcPush_ends {cap : ℕ} {scope : LexScope} {b : Binder} {s : TbcState} (hb : b.isClose)
    (hcap : height (b :: scope) ≤ cap) (h : OpenAt cap scope s) :
    Ends (OpenAt cap (b :: scope)) (FailedAt cap) TraceOk (tbcPush b s) := by
  have hclosers : closers (b :: scope) = b :: closers scope := by
    simp [closers, hb]
  have hheight : height (b :: scope) = height scope + 1 := by
    simp [height, hclosers]
  have hbound := h.bound
  unfold tbcPush
  cases hc : s.choices with
  | nil => exact h.agrees.traceOk
  | cons c choices =>
    dsimp only
    by_cases hr : c.raises
    · rw [if_pos hr]
      exact ⟨h.size, h.room, h.room, h.agrees.mono fun _ _ => trivial⟩
    · rw [if_neg hr, if_pos (by rw [h.size]; omega)]
      refine ⟨h.size, ?_, ?_, ?_⟩
      · show s.items.length + 1 ≤ cap
        omega
      · show s.items.length + 1 ≤ height (b :: scope)
        omega
      · intro hj
        cases hf : c.flag with
        | true =>
          simp only [hf, if_true] at hj ⊢
          obtain ⟨ho, hl⟩ := h.agrees hj.tail
          refine ⟨?_, by simp [hl, hclosers]⟩
          simp [openAfter, ho, truthyItems]
        | false =>
          simp only [hf, Bool.false_eq_true, if_false] at hj ⊢
          obtain ⟨ho, hl⟩ := h.agrees hj
          exact ⟨by simp [ho, truthyItems], by simp [hl, hclosers]⟩

/-- A goto that stays out of the scopes of to-be-closed variables finds the stack of its label. -/
theorem jump_ends {cap : ℕ} {scope : LexScope} {lab : LabelInfo} {s : TbcState}
    (ho : lab.outer <:+ scope) (ho' : lab.outer <:+ lab.scope)
    (hb : lab.closeBase = height lab.scope) (h : CutAt cap scope lab.closeBase s) :
    let s' : TbcState := { s with
      next := Function.update s.next lab.blockDispatchId lab.segmentIdx
      trace := .jump scope lab :: s.trace }
    if lab.endsBlock then LeavingAt cap lab.outer (height lab.scope) s'
    else OpenAt cap lab.scope s' := by
  intro s'
  have hsuf : closers lab.outer <:+ (closers scope).drop (height scope - lab.closeBase) := by
    refine List.suffix_of_suffix_length_le (List.IsSuffix.filter _ ho) (List.drop_suffix _ _) ?_
    have h₁ : height lab.outer ≤ height scope := (List.IsSuffix.filter _ ho).length_le
    have h₂ : height lab.outer ≤ height lab.scope := (List.IsSuffix.filter _ ho').length_le
    rw [List.length_drop]
    unfold height at h₁ h₂ hb ⊢
    omega
  have hstep : ∀ P : List Binder → Prop,
      (JumpStaysOut scope lab → P ((closers scope).drop (height scope - lab.closeBase))) →
      StackAt cap (height lab.scope) P s' := by
    intro P hP
    refine ⟨h.size, h.room, hb ▸ h.bound, fun hj => ?_⟩
    obtain ⟨hopen, hl⟩ := h.agrees hj.tail
    refine ⟨hopen, ?_⟩
    show P (s.items.map (·.1))
    rw [hl]
    exact hP (hj scope lab List.mem_cons_self)
  split
  · exact hstep _ fun _ => hsuf
  · rename_i hends
    refine hstep _ fun hout => ?_
    have hlab : closers lab.scope <:+ closers scope := hout.resolve_left hends
    rw [hb]
    exact (List.suffix_iff_eq_drop.mp hlab).symm

/-- Closing preserves the invariant, so the compiler's static count and the stack agree. -/
def tbcInv (cap : ℕ) : LexInv tbcMachine cap where
  holds := OpenAt cap
  cut := CutAt cap
  leaving := LeavingAt cap
  failed := FailedAt cap
  aborted s := s.items = [] ∧ Agrees s fun _ => True
  paused := TraceOk
  paused_holds h := h.agrees.traceOk
  paused_cut h := h.agrees.traceOk
  paused_leaving h := h.agrees.traceOk
  paused_failed h := h.agrees.traceOk
  plain {sc a s} ha hcap h := by
    cases a with
    | tbcPush b => exact tbcPush_ends ha hcap h
    | closeUpto | setNext | jump | caught | closeError => exact absurd ha (by simp [Act.isPlain])
    | _ => exact execStmt_ends (by simp) h
  close {sc sc' k s} h := by
    refine (closeUpto_ends h).mono (fun s' hs' => ?_) fun _ => And.left
    obtain ⟨-, hs'⟩ := hs'
    refine ⟨hs'.size, hs'.room, hs'.bound, hs'.agrees.mono ?_⟩
    rintro l ⟨l₀, rfl, rfl⟩
    rfl
  cut_of_le {sc k s} hle h := by
    refine ⟨h.size, h.room, h.bound.trans hle, h.agrees.mono fun l hl => ?_⟩
    have : height sc - k = 0 := by omega
    rw [this, List.drop_zero]
    exact hl
  holds_of_cut {sc sc' s} hsuf h := by
    refine ⟨h.size, h.room, h.bound, h.agrees.mono fun l hl => ?_⟩
    rw [hl]
    exact (List.suffix_iff_eq_drop.mp (List.IsSuffix.filter _ hsuf)).symm
  jump ho ho' hb h := show _ ∧ _ from ⟨by simp [tbcMachine], jump_ends ho ho' hb h⟩
  leave {sc outer s} hsuf h := by
    refine ⟨h.size, h.room, h.bound, h.agrees.mono fun l hl => ?_⟩
    rw [hl]
    exact List.IsSuffix.filter _ hsuf
  leaving_mono hle h := ⟨h.size, h.room, h.bound.trans hle, h.agrees⟩
  close_leaving {sc outer k s} h := by
    refine (closeUpto_ends h).mono (fun s' hs' => ?_) fun _ => And.left
    obtain ⟨-, hs'⟩ := hs'
    refine ⟨hs'.size, hs'.room, hs'.bound, hs'.agrees.mono ?_⟩
    rintro l ⟨l₀, hsuf, rfl⟩
    exact (List.suffix_iff_eq_drop.mp hsuf).symm
  holds_of_leaving {outer k s} hle h := by
    refine ⟨h.size, h.room, h.bound.trans hle, fun hj => ⟨(h.agrees hj).1, ?_⟩⟩
    have hlen : (s.items.map (·.1)).length ≤ (closers outer).length := by
      rw [List.length_map]
      exact h.bound.trans hle
    exact ((h.agrees hj).2.eq_of_length_le hlen).symm
  setNext_holds h := ⟨by simp [tbcMachine], h.size, h.room, h.bound, h.agrees⟩
  setNext_leaving h := ⟨by simp [tbcMachine], h.size, h.room, h.bound, h.agrees⟩
  caught h := h
  closeError {sc s} h := by
    refine (closeUpto_ends h).mono (fun s' hs' => ?_) fun s' hs' => ?_
    · exact absurd hs'.1 (by simp)
    · exact ⟨List.length_eq_zero_iff.mp (by omega), hs'.1.agrees⟩

/-! ## Every run -/

/-- The emitted code of a function body, on every run: the stack is never written past its end. If
no goto of the run enters the scope of a to-be-closed variable, the values registered are closed
each once, the last one first, each before a statement outside its scope executes; and when
the body is left, all are closed. -/
theorem emitCloseBody_closes {isInt : ℕ → Bool} {body : List Stmt} {c c' : Cg}
    {code : List WatCode} (h : emitCloseBody isInt body c = .ok (code, c')) (n : ℕ)
    (choices : List Choice) :
    let r := run tbcMachine n code (TbcState.init (countFnClose body) choices)
    r.1 ≠ .trap ∧ (JumpsStayOut r.2.trace →
      ∃ opened, openAfter r.2.trace = some opened ∧ (r.1 ≠ .stop → opened = [])) := by
  intro r
  have hinit : OpenAt (countFnClose body) [] (TbcState.init (countFnClose body) choices) := by
    refine ⟨rfl, Nat.zero_le _, Nat.zero_le _, fun _ => ⟨rfl, rfl⟩⟩
  have hpost := emitCloseBody_triple (tbcInv (countFnClose body)) h (le_refl _) n _ hinit
  change (tbcInv _).bodyPost _ r.1 r.2 at hpost
  -- An empty stack means that nothing is open.
  have hempty {P : List Binder → Prop} (hs : Agrees r.2 P) (hi : r.2.items = [])
      (hj : JumpsStayOut r.2.trace) :
      ∃ opened, openAfter r.2.trace = some opened ∧ (r.1 ≠ .stop → opened = []) :=
    ⟨[], by rw [(hs hj).1, hi]; rfl, fun _ => rfl⟩
  have hopen (hs : OpenAt (countFnClose body) [] r.2) (hj : JumpsStayOut r.2.trace) :
      ∃ opened, openAfter r.2.trace = some opened ∧ (r.1 ≠ .stop → opened = []) :=
    hempty hs.agrees (List.length_eq_zero_iff.mp (Nat.le_zero.mp hs.bound)) hj
  cases ho : r.1 with
  | trap =>
    rw [ho] at hpost
    exact absurd hpost id
  | br l =>
    rw [ho] at hpost
    exact absurd hpost id
  | next =>
    rw [ho] at hpost hopen
    exact ⟨by simp, hopen hpost⟩
  | ret =>
    rw [ho] at hpost hopen
    exact ⟨by simp, hopen hpost⟩
  | stop =>
    rw [ho] at hpost
    refine ⟨by simp, fun hj => ?_⟩
    obtain ⟨opened, hopened⟩ := Option.isSome_iff_exists.mp (hpost hj)
    exact ⟨opened, hopened, fun hs => absurd rfl hs⟩
  | err =>
    rw [ho] at hpost hempty
    refine ⟨by simp, ?_⟩
    simp only [LexInv.bodyPost] at hpost
    split at hpost
    · rename_i hzero
      have hf : FailedAt (countFnClose body) r.2 := hpost
      exact hempty hf.agrees (List.length_eq_zero_iff.mp (by have := hf.room; omega))
    · exact hempty hpost.2 hpost.1

/-- The theorem at `while x do local a <close> = x; goto l end ::l::`, with a goto that leaves the
scope of `a`. -/
theorem emitCloseBody_closes_goto : ∃ code c',
    emitCloseBody (fun _ => false)
      [.whileStmt (.var "x" .varGlobal 0 false)
        [.localStmt [0] [.close] [.var "x" .varGlobal 0 false], .gotoStmt "l"], .label "l"] {} =
      .ok (code, c') ∧
    let r := run tbcMachine 20 code (TbcState.init 1 (List.replicate 9 ⟨false, true⟩))
    r.1 ≠ .trap ∧ (JumpsStayOut r.2.trace →
      ∃ opened, openAfter r.2.trace = some opened ∧ (r.1 ≠ .stop → opened = [])) := by
  obtain ⟨⟨code, c'⟩, h⟩ := Fallible.toBool_ok (show (emitCloseBody (fun _ => false)
      [.whileStmt (.var "x" .varGlobal 0 false)
        [.localStmt [0] [.close] [.var "x" .varGlobal 0 false], .gotoStmt "l"], .label "l"]
      {}).toBool = true by decide)
  exact ⟨code, c', h, emitCloseBody_closes h 20 (List.replicate 9 ⟨false, true⟩)⟩

/-- A goto to a label of a name that an enclosing block has before it is taken for a jump back to that
label, so no check keeps it out of a scope. Emission takes it to the label of its own block:
`::l:: do goto l; local a <close> = nil; ::l:: do local b <close> = x end; x() end`. There the count of
open values is one more than the stack has, and `x()` executes before `b` is closed. -/
theorem emitCloseBody_not_closed :
    ¬ ∀ (chunk : List RawStmt) (F : ParseResult) (ib : Bool), resolve chunk = .ok (F, ib) →
      ∀ isInt c code c', emitCloseBody isInt F.mainBody c = .ok (code, c') →
      ∀ n choices, (openAfter (run tbcMachine n code
        (TbcState.init (countFnClose F.mainBody) choices)).2.trace).isSome := by
  intro h
  have hrun : (resolve [.label "l", .doStmt [.gotoStmt "l", .localStmt [("a", .close)] [.nil],
      .label "l", .doStmt [.localStmt [("b", .close)] [.name "x"]],
      .exprStmt (.call (.name "x") [])]]).toOption.map (fun r =>
        (emitCloseBody (fun _ => false) r.1.mainBody {}).toOption.map fun e =>
          (openAfter (run tbcMachine 30 e.1 (TbcState.init (countFnClose r.1.mainBody)
            (List.replicate 9 ⟨false, true⟩))).2.trace).isSome) = some (some false) := by
    decide +kernel
  obtain ⟨⟨F, ib⟩, hr, hF⟩ := Fallible.toOption_map_some hrun
  obtain ⟨⟨code, c'⟩, he, hopen⟩ := Fallible.toOption_map_some hF
  exact absurd ((h _ F ib hr _ _ code c' he 30 _).symm.trans hopen) (by decide)

end Lua2wasm
