import Lua2wasm.Scope.Lexical
import Lua2wasm.Lib.Fallible

/-!
# The invariant of name resolution

The functions that are open at a point of the parse are listed innermost first by their indices
(`ids`); under them lies the main chunk. Each has a frame, and the frames read as an environment
(`envOf`). `FrameInv` says what a frame's tables mean: which slots its escape table marks, and why
each of its upvalues was registered. `Inv` collects this over all frames, together with what holds
of the functions already closed.

A parse only ever extends the parser's tables (`Grows`), and a finished program `F` completes a
state of the parse (`Completes`) when it extends the tables of that state. So a fact about `F` that
the tables of one state justify stays justified for every program that completes a later state.
-/

namespace Lua2wasm

/-! ## Frames as environments -/

/-- A declaration of a frame is one of the three forms. -/
inductive LocalSlot.Wf (next : ℕ) : LocalSlot → Prop
  | loc {name slot attrib} (h : slot < next) : Wf next ⟨some name, some slot, attrib, .declLocal⟩
  | glob {name attrib} : Wf next ⟨some name, none, attrib, .declGlobal⟩
  | globAll {attrib} : Wf next ⟨none, none, attrib, .declGlobalAll⟩

/-- A declaration of a frame of function `fn`, as a declaration in scope. -/
def LocalSlot.decl (fn : Option ℕ) (d : LocalSlot) : Decl :=
  match d.kind, d.name, d.slot with
  | .declLocal, some name, some slot => .loc name fn slot
  | .declGlobal, some name, _ => .glob name (d.attrib = .const)
  | _, _, _ => .globAll (d.attrib = .const)

/-- The environment that the frames of the open functions `ids` make up. -/
def envOf : List ℕ → List FuncFrame → Env
  | _, [] => []
  | ids, f :: fs => f.locals.map (LocalSlot.decl ids.head?) ++ envOf ids.tail fs

/-- The environment at a state of the parse. -/
def Parser.env (p : Parser) (ids : List ℕ) : Env := envOf ids (p.frame :: p.outer)

/-! ## What the tables mean -/

/-- Some function that stands directly in function `fn` has the upvalue `r`. -/
def Uses (funcs : List LuaFunc) (fn : Option ℕ) (r : UpvalueRef) : Prop :=
  ∃ lf ∈ funcs, lf.parentIdx = fn ∧ r ∈ lf.upvalues

/-- The tables of a frame of function `fn`. The list `ups` has the upvalues of the function that
stands open directly in it, and `occ` the variables that occur in it so far. -/
structure FrameInv (funcs : List LuaFunc) (ups : List UpvalueRef) (occ : List VarOcc)
    (fn : Option ℕ) (f : FuncFrame) : Prop where
  /-- Every declaration is well formed, and its slot was handed out. -/
  wf : ∀ d ∈ f.locals, d.Wf f.nextSlot
  /-- The escape table has its fixed size. -/
  size : f.captured.flags.length = maxLocalsPerFn
  /-- As long as the slots fit the table, so do the accesses. -/
  inBounds : f.nextSlot ≤ maxLocalsPerFn → f.captured.inBounds = true
  /-- Only slots that were handed out are marked. -/
  handedOut : ∀ s, f.captured.flags[s]? = some true → s < f.nextSlot
  /-- The table marks what nested functions capture. -/
  marked : f.captured.inBounds = true → ∀ s,
    (f.captured.flags[s]? = some true ↔ Uses funcs fn ⟨.fromLocal, s⟩ ∨ ⟨.fromLocal, s⟩ ∈ ups)
  /-- Every upvalue has a use: here, or in a nested function. -/
  used : ∀ i < f.upvalues.length,
    (.varUpval, i) ∈ occ ∨ ⟨.fromUpval, i⟩ ∈ ups ∨ Uses funcs fn ⟨.fromUpval, i⟩

/-- The tables of all open frames, from the innermost outwards. -/
def FramesInv (funcs : List LuaFunc) :
    List UpvalueRef → List (List VarOcc) → List ℕ → List FuncFrame → Prop
  | _, [], _, [] => True
  | ups, occ :: occs, ids, f :: fs =>
    FrameInv funcs ups occ ids.head? f ∧ FramesInv funcs f.upvalues occs ids.tail fs
  | _, _, _, _ => False

/-- The record of a closed function `k`. -/
structure ClosedInv (funcs : List LuaFunc) (k : ℕ) (lf : LuaFunc) : Prop where
  /-- Its slots are declared once each. -/
  slots : lf.slots = List.range lf.nLocals
  /-- Its escape table marks what nested functions capture. -/
  captured : lf.nLocals ≤ maxLocalsPerFn → ∀ s,
    (lf.captured[s]? = some true ↔ Uses funcs (some k) ⟨.fromLocal, s⟩)
  /-- Every upvalue has a use. -/
  used : ∀ i < lf.upvalues.length,
    (.varUpval, i) ∈ stmtsVars lf.body ∨ Uses funcs (some k) ⟨.fromUpval, i⟩

/-- The functions `ids` are open, each in the next one, and their records are still empty. -/
def Open (funcs : List LuaFunc) : List ℕ → Prop
  | [] => True
  | k :: ids => funcs[k]? = some { parentIdx := ids.head? } ∧ k ∉ ids ∧ Open funcs ids

/-- The invariant of the parse inside the functions `ids`, where the variables `occs` occur in them
so far. -/
structure Inv (ids : List ℕ) (occs : List (List VarOcc)) (p : Parser) : Prop where
  /-- The function being parsed is the innermost open one. -/
  curFn : p.curFn = ids.head?
  /-- The open functions have empty records. -/
  opened : Open p.funcs ids
  /-- There is a frame for each open function, and one for the main chunk. -/
  depth : p.outer.length = ids.length
  /-- Every function stands in one that was begun before it. -/
  parents : ∀ (k : ℕ) (lf : LuaFunc), p.funcs[k]? = some lf → ∀ j, lf.parentIdx = some j → j < k
  /-- The tables of the open frames. -/
  frames : FramesInv p.funcs [] occs ids (p.frame :: p.outer)
  /-- The records of the closed functions. -/
  closed : ∀ k lf, p.funcs[k]? = some lf → k ∉ ids → ClosedInv p.funcs k lf
  /-- The accesses were in bounds exactly if the slots of every closed function fit the escape
  table. -/
  inBounds : p.inBounds = true ↔ ∀ lf ∈ p.funcs, lf.nLocals ≤ maxLocalsPerFn

/-! ## Growth and completion -/

/-- A frame after name resolution has passed through it: only its upvalues and its escape table may
have changed. -/
structure FrameGrows (f f' : FuncFrame) : Prop where
  locals : f'.locals = f.locals
  nextSlot : f'.nextSlot = f.nextSlot
  isVararg : f'.isVararg = f.isVararg
  varargSlot : f'.varargSlot = f.varargSlot
  upvalues : f.upvalues <+: f'.upvalues

/-- The tables of a later state of the parse in the same function. -/
structure Grows (p p' : Parser) : Prop where
  curFn : p'.curFn = p.curFn
  funcs : p.funcs <+: p'.funcs
  globals : p.globals <+: p'.globals
  outer : List.Forall₂ FrameGrows p.outer p'.outer
  locals : p.frame.locals <:+ p'.frame.locals
  upvalues : p.frame.upvalues <+: p'.frame.upvalues
  isVararg : p'.frame.isVararg = p.frame.isVararg
  varargSlot : p'.frame.varargSlot = p.frame.varargSlot

/-- The records that `F` has for the open functions extend their frames. -/
def FramesOk (F : ParseResult) : List ℕ → List FuncFrame → Prop
  | [], [_] => True
  | k :: ids, f :: fs =>
    (∃ lf, F.funcs[k]? = some lf ∧ lf.parentIdx = ids.head? ∧ f.upvalues <+: lf.upvalues) ∧
      FramesOk F ids fs
  | _, _ => False

/-- The program `F` completes a state of the parse. -/
structure Completes (F : ParseResult) (ids : List ℕ) (p : Parser) : Prop where
  /-- It has the functions closed so far. -/
  closed : ∀ k lf, p.funcs[k]? = some lf → k ∉ ids → F.funcs[k]? = some lf
  /-- It extends the open ones. -/
  frames : FramesOk F ids (p.frame :: p.outer)
  /-- It extends the globals table. -/
  globals : p.globals <+: F.globals

@[refl] theorem FrameGrows.refl (f : FuncFrame) : FrameGrows f f :=
  ⟨rfl, rfl, rfl, rfl, List.prefix_rfl⟩

theorem FrameGrows.trans {f g h : FuncFrame} (h1 : FrameGrows f g) (h2 : FrameGrows g h) :
    FrameGrows f h :=
  ⟨h2.locals.trans h1.locals, h2.nextSlot.trans h1.nextSlot, h2.isVararg.trans h1.isVararg,
    h2.varargSlot.trans h1.varargSlot, h1.upvalues.trans h2.upvalues⟩

end Lua2wasm
