import Lua2wasm.Raw

/-!
# Name resolution

The scope half of `parser.c`: function frames, declarations, upvalues, labels and gotos, and the
walk over the tree that calls them in the order of the parsing functions.

A frame's declarations are kept innermost first, so its `local_count` is their number and leaving a
block drops from the front. The parser's frame array is split into the innermost frame
(`cur_frame`) and the enclosing ones, innermost first. The table `captured` remembers whether every
access so far was inside its bounds: the source checks none of them.

An error carries the message of the source without its `line N:` prefix.
-/

namespace Lua2wasm

/-- The most declarations a function has in scope at once, and the size of `captured`. -/
def maxLocalsPerFn : ℕ := 256

/-- The most upvalues of a function. -/
def maxUpvalsPerFn : ℕ := 64

/-- The number of frames. -/
def maxFrameDepth : ℕ := 32

/-- The most functions of a program. -/
def maxFuncs : ℕ := 256

/-- The most names in the globals table. -/
def maxGlobals : ℕ := 256

/-! ## The tables of the parser -/

/-- The kind of a declaration in scope. -/
inductive DeclKind
  | declLocal
  | declGlobal
  | declGlobalAll
  deriving DecidableEq, Repr

/-- An active declaration of a frame. -/
structure LocalSlot where
  /-- The declared name; `none` for `global *`. -/
  name : Option String
  /-- The local slot; `none` for a global. -/
  slot : Option ℕ
  /-- Its attribute. -/
  attrib : Attrib := .none
  /-- Whether it declares a local, a global or all globals. -/
  kind : DeclKind := .declLocal
  deriving DecidableEq, Repr

/-- The escape table of a frame, with whether it was only accessed inside its bounds. -/
structure CapturedTable where
  /-- One flag for each of `maxLocalsPerFn` slots. -/
  flags : List Bool
  /-- Cleared by an access past the end of the table. -/
  inBounds : Bool
  deriving DecidableEq, Repr

/-- The table that `frame_init` clears. -/
def CapturedTable.init : CapturedTable := ⟨List.replicate maxLocalsPerFn false, true⟩

/-- The write `captured[s] = 1`. Past the end of the table it lands in what the parser keeps behind it, the tables of
another frame. What becomes of them is left open, so that nothing is said of a parse after an access out of bounds:
`inBounds` remembers that there was one. -/
def CapturedTable.mark (c : CapturedTable) (s : ℕ) : CapturedTable :=
  if s < maxLocalsPerFn then { c with flags := c.flags.set s true } else { c with inBounds := false }

/-- The final `memcpy` of `n` flags: the copy, and whether every access was inside the table. -/
def CapturedTable.copy (c : CapturedTable) (n : ℕ) : List Bool × Bool :=
  (c.flags.take n, c.inBounds && decide (n ≤ maxLocalsPerFn))

/-- The scope tables of one function while it is parsed. -/
structure FuncFrame where
  /-- The active declarations, innermost first. -/
  locals : List LocalSlot := []
  /-- The next local slot. It never goes down. -/
  nextSlot : ℕ := 0
  /-- The upvalues registered so far. -/
  upvalues : List UpvalueRef := []
  /-- Whether `...` is bound here. -/
  isVararg : Bool := false
  /-- The slot of the named vararg table. -/
  varargSlot : Option ℕ := none
  /-- The escape table. -/
  captured : CapturedTable := .init
  deriving DecidableEq, Repr

/-- A goto that stood before any label of its name, with the number of declarations active at it. -/
structure GotoRec where
  /-- The label it names. -/
  name : String
  /-- The number of active declarations. -/
  nactvar : ℕ
  /-- Whether a label has taken it. -/
  resolved : Bool := false
  deriving DecidableEq, Repr

/-- The scope state of the parser. -/
structure Parser where
  /-- The innermost frame. -/
  frame : FuncFrame
  /-- The enclosing frames, innermost first; the last one is the main chunk's. -/
  outer : List FuncFrame
  /-- The functions begun so far. -/
  funcs : List LuaFunc
  /-- The function being parsed. -/
  curFn : Option ℕ
  /-- The globals table. -/
  globals : List String
  /-- The labels seen in the open blocks, outermost first. -/
  labels : List String
  /-- The gotos that await a label. -/
  gotos : List GotoRec
  /-- The current function's first label. -/
  fnLabels : ℕ
  /-- The current function's first pending goto. -/
  fnGotos : ℕ
  /-- The current block's first pending goto. -/
  blkGotos : ℕ
  /-- The number of active declarations where the current block began. -/
  blkNactvar : ℕ
  /-- Whether every closed frame's escape table was only accessed inside its bounds. -/
  inBounds : Bool

/-- A computation on the scope state that may fail with a message. -/
abbrev ResolveM := StateT Parser (Except String)

/-! ## Frame operations -/

/-- `frame_declare`: a new local of the frame, with its slot. -/
def frameDeclare (f : FuncFrame) (name : String) : Option (ℕ × FuncFrame) :=
  if f.locals.length ≥ maxLocalsPerFn then none
  else some (f.nextSlot, { f with
    locals := { name := some name, slot := some f.nextSlot } :: f.locals
    nextSlot := f.nextSlot + 1 })

/-- `frame_declare_global`: a global declaration of `name`, or of all names for `none`. -/
def frameDeclareGlobal (f : FuncFrame) (name : Option String) (attrib : Attrib) :
    Option FuncFrame :=
  if f.locals.length ≥ maxLocalsPerFn then none
  else some { f with
    locals := { name, slot := none, attrib
                kind := if name.isSome then .declGlobal else .declGlobalAll } :: f.locals }

/-- The attribute of the latest declaration is set. -/
def frameMarkLast (f : FuncFrame) (attrib : Attrib) : FuncFrame :=
  match f.locals with
  | [] => f
  | d :: ds => { f with locals := { d with attrib } :: ds }

/-- `frame_rewind`: only the `mark` outermost declarations stay. -/
def frameRewind (f : FuncFrame) (mark : ℕ) : FuncFrame :=
  { f with locals := f.locals.drop (f.locals.length - mark) }

/-- `frame_local_attrib_by_slot`: the attribute of the active local in `slot`. -/
def frameLocalAttribBySlot (f : FuncFrame) (slot : ℕ) : Option Attrib :=
  (f.locals.find? fun d => d.slot = some slot).map (·.attrib)

/-- `frame_add_upvalue`: the index of an upvalue, which is registered on first use. -/
def frameAddUpvalue (f : FuncFrame) (r : UpvalueRef) : Option (ℕ × FuncFrame) :=
  match f.upvalues.findIdx? (· = r) with
  | some i => some (i, f)
  | none =>
    if f.upvalues.length ≥ maxUpvalsPerFn then none
    else some (f.upvalues.length, { f with upvalues := f.upvalues ++ [r] })

/-- `upval_is_const`: whether an upvalue of the innermost of `frames` captures a `<const>` local.
It is followed outwards through the frames. -/
def upvalIsConst (uv : ℕ) : List FuncFrame → Bool
  | f :: g :: fs =>
    match f.upvalues[uv]? with
    | some ⟨.fromLocal, idx⟩ => frameLocalAttribBySlot g idx = some .const
    | some ⟨.fromUpval, idx⟩ => upvalIsConst idx (g :: fs)
    | none => false
  | _ => false

/-! ## Resolving a name -/

/-- The collective declaration that decides free names. -/
inductive Collective
  | allNone
  | allRw
  | allConst
  deriving DecidableEq, Repr

/-- What the search has passed on its way out. -/
structure FreeNames where
  /-- The innermost `global *`. -/
  collective : Collective := .allNone
  /-- A `global name` declaration is in scope. -/
  voided : Bool := false

/-- `frame_search`: the innermost declaration of `name` in a frame. -/
def frameSearch (name : String) : List LocalSlot → FreeNames → Option LocalSlot × FreeNames
  | [], fn => (none, fn)
  | d :: ds, fn =>
    if d.kind = .declGlobalAll then
      frameSearch name ds <|
        if fn.collective = .allNone then
          { fn with collective := if d.attrib = .const then .allConst else .allRw }
        else fn
    else if d.name = some name then (some d, fn)
    else frameSearch name ds (if d.kind = .declGlobal then { fn with voided := true } else fn)

/-- The builtins that a program can name, at their index in the builtins table. The two iterator
helpers are in the table but cannot be named. -/
def topLevelBuiltins : List String :=
  ["print", "error", "pcall", "xpcall", "warn", "type", "tostring", "tonumber", "ipairs", "pairs",
    "next", "setmetatable", "getmetatable", "assert", "select", "rawequal", "rawlen", "rawget",
    "rawset", "_ipairs_iter", "_utf8_codes_iter", "require", "collectgarbage", "load"]

/-- `lookup_builtin`. -/
def lookupBuiltin (name : String) : Option ℕ :=
  if name = "_ipairs_iter" ∨ name = "_utf8_codes_iter" then none
  else topLevelBuiltins.findIdx? (· = name)

/-- `global_index`: the index of `name` in the globals table, which gets it on first use. -/
def globalIndex (globals : List String) (name : String) : Except String (ℕ × List String) :=
  match globals.findIdx? (· = name) with
  | some g => .ok (g, globals)
  | none =>
    if globals.length ≥ maxGlobals then .error "too many globals"
    else .ok (globals.length, globals ++ [name])

/-- What a name resolves to. -/
structure NameRef where
  /-- The kind of variable. -/
  kind : VarKind
  /-- Its index among those of its kind. -/
  idx : ℕ
  /-- Whether it is a read-only global. -/
  ro : Bool
  deriving DecidableEq, Repr

/-- `resolve_global`: a builtin, or an entry of the globals table. -/
def resolveGlobal (globals : List String) (name : String) (ro : Bool) :
    Except String (NameRef × List String) :=
  match lookupBuiltin name with
  | some b => .ok (⟨.varBuiltin, b, ro⟩, globals)
  | none => (globalIndex globals name).map fun (g, globals) => (⟨.varGlobal, g, ro⟩, globals)

/-- `resolve_in_frame`, over the frames from the one that uses the name outwards. A local that is
found in an enclosing frame becomes an upvalue of every frame between. -/
def resolveInFrame (name : String) (globals : List String) :
    FuncFrame → List FuncFrame → FreeNames →
      Except String (NameRef × FuncFrame × List FuncFrame × List String)
  | f, outer, fn =>
    match frameSearch name f.locals fn with
    | (some d, _) =>
      match d.kind, d.slot with
      | .declLocal, some slot => .ok (⟨.varLocal, slot, false⟩, f, outer, globals)
      | _, _ => (resolveGlobal globals name (d.attrib = .const)).map fun (r, globals) =>
          (r, f, outer, globals)
    | (none, fn) =>
      match outer with
      | [] =>
        let env : Bool := name = "_ENV"
        if !env && fn.collective = .allNone && fn.voided then
          .error s!"variable '{name}' not declared"
        else
          (resolveGlobal globals name (!env && fn.collective = .allConst)).map fun (r, globals) =>
            (r, f, [], globals)
      | g :: gs => do
        let (r, g, gs, globals) ← resolveInFrame name globals g gs fn
        match r.kind with
        | .varBuiltin | .varGlobal => .ok (r, f, g :: gs, globals)
        | .varLocal =>
          let g := { g with captured := g.captured.mark r.idx }
          match frameAddUpvalue f ⟨.fromLocal, r.idx⟩ with
          | some (i, f) => .ok (⟨.varUpval, i, false⟩, f, g :: gs, globals)
          | none => .error "too many upvalues"
        | .varUpval =>
          match frameAddUpvalue f ⟨.fromUpval, r.idx⟩ with
          | some (i, f) => .ok (⟨.varUpval, i, false⟩, f, g :: gs, globals)
          | none => .error "too many upvalues"
termination_by structural _ outer => outer

/-- `resolve_name`. -/
def resolveName (name : String) : ResolveM NameRef := fun p => do
  let (r, frame, outer, globals) ← resolveInFrame name p.globals p.frame p.outer {}
  .ok (r, { p with frame, outer, globals })

/-- A global name that a declaration introduces. -/
def declareGlobalIndex (name : String) : ResolveM ℕ := fun p => do
  let (g, globals) ← globalIndex p.globals name
  .ok (g, { p with globals })

/-! ## Scopes and declarations -/

/-- A new local with an attribute, or the message `msg` when the frame is full. -/
def declareLocal (msg : String) (name : String) (attrib : Attrib) : ResolveM ℕ := fun p =>
  match frameDeclare p.frame name with
  | some (slot, frame) =>
    .ok (slot, { p with frame := if attrib = .none then frame else frameMarkLast frame attrib })
  | none => .error msg

/-- The locals of a declaration, in order. -/
def declareLocals : List (String × Attrib) → ResolveM (List ℕ)
  | [] => pure []
  | (name, attrib) :: names => do
    let slot ← declareLocal "too many locals" name attrib
    let slots ← declareLocals names
    pure (slot :: slots)

/-- A global declaration comes into scope. -/
def declareGlobal (name : Option String) (attrib : Attrib) : ResolveM Unit := fun p =>
  match frameDeclareGlobal p.frame name attrib with
  | some frame => .ok ((), { p with frame })
  | none => .error "too many declarations"

/-- The global declarations of one statement, in order. -/
def declareGlobals : List (String × Attrib) → ResolveM Unit
  | [] => pure ()
  | (name, attrib) :: names => do
    declareGlobal (some name) attrib
    declareGlobals names

/-- The globals table gets the names of a statement, in order. -/
def globalIndices : List (String × Attrib) → ResolveM (List ℕ)
  | [] => pure []
  | (name, _) :: names => do
    let g ← declareGlobalIndex name
    let gs ← globalIndices names
    pure (g :: gs)

/-- `frame_mark`. -/
def frameMark : ResolveM ℕ := fun p => .ok (p.frame.locals.length, p)

/-- `scope_rewind`: the declarations since `mark` go out of sight, and the gotos that are pending
inside the scope now stand where it began. -/
def scopeRewind (mark : ℕ) : ResolveM Unit := fun p =>
  .ok ((), { p with
    frame := frameRewind p.frame mark
    gotos := p.gotos.take p.fnGotos ++ (p.gotos.drop p.fnGotos).map fun g =>
      if g.nactvar > mark then { g with nactvar := mark } else g })

/-! ## Labels and gotos -/

/-- The goto of `parse_goto`. It waits for its label unless a label of the name is visible. -/
def declareGoto (name : String) : ResolveM Unit := fun p =>
  if name ∈ p.labels.drop p.fnLabels then .ok ((), p)
  else .ok ((), { p with gotos := p.gotos ++ [{ name, nactvar := p.frame.locals.length }] })

/-- The loop of `parse_label` over the gotos that are pending in the block: the label `name`, with
`nactvar` declarations active, takes those of its name. A goto with fewer would enter the scope of
one of `locals` (outermost first). -/
def takeGotos (name : String) (nactvar : ℕ) (locals : List LocalSlot) :
    List GotoRec → Except String (List GotoRec)
  | [] => .ok []
  | g :: gs =>
    if g.resolved ∨ g.name ≠ name then (takeGotos name nactvar locals gs).map (g :: ·)
    else if g.nactvar < nactvar then
      let d := ((locals[g.nactvar]?).bind (·.name)).getD "*"
      .error s!"<goto {name}> jumps into the scope of '{d}'"
    else (takeGotos name nactvar locals gs).map ({ g with resolved := true } :: ·)

/-- The label of `parse_label`; `endsBlock` is the result of `label_ends_block`. -/
def declareLabel (name : String) (endsBlock : Bool) : ResolveM Unit := fun p => do
  let nactvar := if endsBlock then p.blkNactvar else p.frame.locals.length
  let gotos ← takeGotos name nactvar p.frame.locals.reverse (p.gotos.drop p.blkGotos)
  .ok ((), { p with gotos := p.gotos.take p.blkGotos ++ gotos, labels := p.labels ++ [name] })

/-- What `parse_block` saves when a block begins. -/
structure BlockSave where
  /-- The number of labels. -/
  outerLabels : ℕ
  /-- The enclosing block's first pending goto. -/
  outerGotos : ℕ
  /-- The declarations active where the enclosing block began. -/
  outerNactvar : ℕ

/-- A block begins. -/
def beginBlock : ResolveM BlockSave := fun p =>
  .ok (⟨p.labels.length, p.blkGotos, p.blkNactvar⟩,
    { p with blkGotos := p.gotos.length, blkNactvar := p.frame.locals.length })

/-- A block ends: its labels are no longer visible. -/
def endBlock (s : BlockSave) : ResolveM Unit := fun p =>
  .ok ((), { p with
    labels := p.labels.take s.outerLabels
    blkGotos := s.outerGotos
    blkNactvar := s.outerNactvar })

/-- `parse_block` around the statements of a block. -/
def resolveBlock (stmts : ResolveM (List Stmt)) : ResolveM Block := do
  let s ← beginBlock
  let items ← stmts
  endBlock s
  pure items

/-! ## Functions -/

/-- What `parse_function_body_ex` saves when a function begins. -/
structure FuncSave where
  /-- The index of the new function. -/
  funcIdx : ℕ
  /-- The enclosing function. -/
  prevFn : Option ℕ

/-- A function begins: it gets its index and a fresh frame. -/
def beginFunc : ResolveM FuncSave := fun p =>
  if p.funcs.length ≥ maxFuncs then .error "too many functions"
  else if p.outer.length + 2 > maxFrameDepth then .error "function nesting too deep"
  else .ok (⟨p.funcs.length, p.curFn⟩, { p with
    funcs := p.funcs ++ [{ parentIdx := p.curFn }]
    curFn := some p.funcs.length
    frame := {}
    outer := p.frame :: p.outer })

/-- The parameters, in order. -/
def declareParams : List String → ResolveM Unit
  | [] => pure ()
  | name :: names => do
    let _ ← declareLocal "too many params" name .none
    declareParams names

/-- The `...` of a parameter list. A named one declares a read-only local. -/
def declareVararg : RawVararg → ResolveM Unit
  | .none => pure ()
  | .anon => fun p => .ok ((), { p with frame := { p.frame with isVararg := true } })
  | .named name => do
    let slot ← declareLocal "too many locals" name .const
    fun p => .ok ((), { p with frame := { p.frame with isVararg := true, varargSlot := some slot } })

/-- What `parse_function_body_ex` saves before the statements of a function. -/
structure BodySave where
  /-- The enclosing function's first label. -/
  outerFnLabels : ℕ
  /-- The enclosing function's first pending goto. -/
  outerFnGotos : ℕ

/-- The statements of a function begin. -/
def beginBody : ResolveM BodySave := fun p =>
  .ok (⟨p.fnLabels, p.fnGotos⟩,
    { p with fnLabels := p.labels.length, fnGotos := p.gotos.length })

/-- The statements of a function end. Its pending gotos are dropped. -/
def endBody (s : BodySave) : ResolveM Unit := fun p =>
  .ok ((), { p with
    gotos := p.gotos.take p.fnGotos
    fnLabels := s.outerFnLabels
    fnGotos := s.outerFnGotos })

/-- `prepend_vararg_decl`: the declaration that fills a named vararg table. -/
def prependVarargDecl (slot : Option ℕ) (body : Block) : Block :=
  match slot with
  | none => body
  | some slot => .localStmt [slot] [.const] [.vararg none true false] :: body

/-- The record of a function, from its frame. -/
def FuncFrame.toFunc (f : FuncFrame) (parentIdx : Option ℕ) (nParams : ℕ) (body : Block) :
    LuaFunc :=
  { parentIdx, nParams, nLocals := f.nextSlot, upvalues := f.upvalues
    body := prependVarargDecl f.varargSlot body, isVararg := f.isVararg
    captured := (f.captured.copy f.nextSlot).1 }

/-- A function ends: its record is filled in from its frame, which is left. -/
def endFunc (s : FuncSave) (nParams : ℕ) (body : Block) : ResolveM ℕ := fun p =>
  match p.outer with
  | [] => .error "function nesting too deep"
  | g :: gs => .ok (s.funcIdx, { p with
      funcs := p.funcs.set s.funcIdx (p.frame.toFunc s.prevFn nParams body)
      curFn := s.prevFn
      frame := g
      outer := gs
      inBounds := p.inBounds && (p.frame.captured.copy p.frame.nextSlot).2 })

/-! ## The walk over the tree -/

/-- Parentheses set the flag of the node they enclose. -/
def Expr.setParen : Expr → Expr
  | .call callee args _ => .call callee args Bool.true
  | .binop op lhs rhs _ => .binop op lhs rhs Bool.true
  | .methodCall recv method args _ => .methodCall recv method args Bool.true
  | .vararg tab pack _ => .vararg tab pack Bool.true
  | e => e

/-- `make_index` along a dotted path. -/
def makeIndex (base : Expr) : List String → Expr
  | [] => base
  | name :: path => makeIndex (.index base (.string name)) path

/-- Whether a variable is a `<const>` local, a captured one, or a read-only global. -/
def Parser.isConst (p : Parser) (kind : VarKind) (idx : ℕ) (ro : Bool) : Bool :=
  match kind with
  | .varLocal => frameLocalAttribBySlot p.frame idx = some .const
  | .varUpval => upvalIsConst idx (p.frame :: p.outer)
  | _ => ro

/-- `check_assignable`: a read-only variable is no target. -/
def checkAssignable (e : Expr) : ResolveM Unit := fun p =>
  match e with
  | .var name kind idx ro =>
    if p.isConst kind idx ro then .error s!"attempt to assign to const variable '{name}'"
    else .ok ((), p)
  | _ => .ok ((), p)

/-- The check of `parse_function_stmt`: `function f()` assigns `f` itself, while `function t.m()`
only reads `t`. -/
def checkFunctionName (plain : Bool) (base : Expr) : ResolveM Unit :=
  if plain then checkAssignable base else pure ()

/-- `expr_to_target`, with the check of `parse_ident_stmt` before it. -/
def exprToTarget : Expr → ResolveM AssignTarget
  | .var _ kind idx _ => pure (.var kind idx)
  | .index table key => pure (.index table key)
  | _ => throw "invalid assignment target"

/-- The variables of a generic `for`: only the first one is read-only. -/
def forGenNames : List String → List (String × Attrib)
  | [] => []
  | name :: names => (name, .const) :: names.map (·, .none)

/-- `...` as an expression. -/
def resolveVararg : ResolveM Expr := fun p =>
  if p.frame.isVararg then .ok (.vararg p.frame.varargSlot false false, p)
  else .error "cannot use `...` outside a vararg function"

/-- A variable as an expression. -/
def resolveVar (name : String) : ResolveM Expr := do
  let r ← resolveName name
  pure (.var name r.kind r.idx r.ro)

mutual

/-- The expression a raw expression resolves to. -/
def resolveExpr : RawExpr → ResolveM Expr
  | .nil => pure .nil
  | .true => pure .true
  | .false => pure .false
  | .int i => pure (.int i)
  | .float x => pure (.float x)
  | .string s => pure (.string s)
  | .name name => resolveVar name
  | .paren inner => do
    let e ← resolveExpr inner
    pure e.setParen
  | .vararg => resolveVararg
  | .function func => do
    let k ← resolveFunc false func
    pure (.function k)
  | .table entries => do
    let entries ← resolveEntries entries
    pure (.table entries)
  | .call callee args => do
    let callee ← resolveExpr callee
    let args ← resolveExprs args
    pure (.call callee args false)
  | .index table key => do
    let table ← resolveExpr table
    let key ← resolveExpr key
    pure (.index table key)
  | .methodCall recv method args => do
    let recv ← resolveExpr recv
    let args ← resolveExprs args
    pure (.methodCall recv method args false)
  | .unop op operand => do
    let operand ← resolveExpr operand
    pure (.unop op operand)
  | .binop op lhs rhs => do
    let lhs ← resolveExpr lhs
    let rhs ← resolveExpr rhs
    pure (.binop op lhs rhs false)
termination_by structural e => e

/-- A list of expressions, from left to right. -/
def resolveExprs : List RawExpr → ResolveM (List Expr)
  | [] => pure []
  | e :: es => do
    let e ← resolveExpr e
    let es ← resolveExprs es
    pure (e :: es)

/-- The entries of a table constructor. -/
def resolveEntries : List RawEntry → ResolveM (List TableEntry)
  | [] => pure []
  | .positional v :: es => do
    let v ← resolveExpr v
    let es ← resolveEntries es
    pure (.positional v :: es)
  | .keyExpr k v :: es => do
    let k ← resolveExpr k
    let v ← resolveExpr v
    let es ← resolveEntries es
    pure (.keyExpr k v :: es)

/-- `parse_function_body_ex`; `withSelf` declares the parameter `self` first. -/
def resolveFunc (withSelf : Bool) : RawFunc → ResolveM ℕ
  | .mk params vararg body => do
    let s ← beginFunc
    let params := if withSelf then "self" :: params else params
    declareParams params
    declareVararg vararg
    let b ← beginBody
    let body ← resolveBlock (resolveStmts false body)
    endBody b
    endFunc s params.length body

/-- The statements of a block; `isRepeat` says that it is the body of a `repeat`. A label ends its
block when only labels follow it, unless the block's end is the `until` of a `repeat`. -/
def resolveStmts (isRepeat : Bool) : List RawStmt → ResolveM (List Stmt)
  | [] => pure []
  | s :: rest => do
    let st ← resolveStmt (!isRepeat && rest.all RawStmt.isLabel) s
    let sts ← resolveStmts isRepeat rest
    pure (st.toList ++ sts)

/-- `parse_stmt`. A declaration of all globals leaves no statement. -/
def resolveStmt (endsBlock : Bool) : RawStmt → ResolveM (Option Stmt)
  | .localStmt names values => do
    let values ← resolveExprs values
    let slots ← declareLocals names
    pure (some (.localStmt slots (names.map (·.2)) values))
  | .localFunc name func => do
    let slot ← declareLocal "too many locals" name .none
    let k ← resolveFunc false func
    pure (some (.localFunc slot k))
  | .globalFunc name func => do
    let g ← declareGlobalIndex name
    declareGlobal (some name) .none
    let k ← resolveFunc false func
    pure (some (.globalDecl [g] [.function k]))
  | .globalAll attrib => do
    declareGlobal none attrib
    pure none
  | .globalDecl names values => do
    let gs ← globalIndices names
    let values ← resolveExprs values
    declareGlobals names
    pure (some (.globalDecl gs values))
  | .functionStmt name path method func => do
    let base ← resolveVar name
    checkFunctionName (path.isEmpty && method.isNone) base
    let target ← exprToTarget (makeIndex base (path ++ method.toList))
    let k ← resolveFunc method.isSome func
    pure (some (.assign [target] [.function k]))
  | .assign targets values => do
    let targets ← resolveTargets targets
    let values ← resolveExprs values
    pure (some (.assign targets values))
  | .exprStmt e => do
    let e ← resolveExpr e
    pure (some (.exprStmt e))
  | .ifStmt arms hasElse elseBody => do
    let arms ← resolveArms arms
    let mark ← frameMark
    let elseBody ← resolveBlock (resolveStmts false elseBody)
    scopeRewind mark
    pure (some (.ifStmt arms hasElse elseBody))
  | .whileStmt cond body => do
    let cond ← resolveExpr cond
    let mark ← frameMark
    let body ← resolveBlock (resolveStmts false body)
    scopeRewind mark
    pure (some (.whileStmt cond body))
  | .doStmt body => do
    let mark ← frameMark
    let body ← resolveBlock (resolveStmts false body)
    scopeRewind mark
    pure (some (.doStmt body))
  | .returnStmt values => do
    let values ← resolveExprs values
    pure (some (.returnStmt values))
  | .forNum name start stop step body => do
    let start ← resolveExpr start
    let stop ← resolveExpr stop
    let step ← resolveOption step
    let mark ← frameMark
    let slot ← declareLocal "too many locals" name .const
    let body ← resolveBlock (resolveStmts false body)
    scopeRewind mark
    pure (some (.forNum slot start stop step body))
  | .forGen names exprs body => do
    let exprs ← resolveExprs exprs
    let mark ← frameMark
    let slots ← declareLocals (forGenNames names)
    let body ← resolveBlock (resolveStmts false body)
    scopeRewind mark
    pure (some (.forGen slots exprs body))
  | .repeatStmt body cond => do
    let mark ← frameMark
    let body ← resolveBlock (resolveStmts true body)
    let cond ← resolveExpr cond
    scopeRewind mark
    pure (some (.repeatStmt body cond))
  | .breakStmt => pure (some .breakStmt)
  | .gotoStmt name => do
    declareGoto name
    pure (some (.gotoStmt name))
  | .label name => do
    declareLabel name endsBlock
    pure (some (.label name))

/-- The targets of an assignment, each checked before the next one is read. -/
def resolveTargets : List RawExpr → ResolveM (List AssignTarget)
  | [] => pure []
  | t :: ts => do
    let e ← resolveExpr t
    let target ← exprToTarget e
    checkAssignable e
    let targets ← resolveTargets ts
    pure (target :: targets)

/-- The step of a numeric `for`. -/
def resolveOption : Option RawExpr → ResolveM (Option Expr)
  | none => pure none
  | some e => do
    let e ← resolveExpr e
    pure (some e)

/-- The conditions and blocks of an `if`. -/
def resolveArms : List RawArm → ResolveM (List IfArm)
  | [] => pure []
  | .mk cond body :: arms => do
    let cond ← resolveExpr cond
    let mark ← frameMark
    let body ← resolveBlock (resolveStmts false body)
    scopeRewind mark
    let arms ← resolveArms arms
    pure (.mk cond body :: arms)

end

/-- The names that every program's globals table begins with. -/
def initialGlobals : List String :=
  ["math", "string", "io", "table", "utf8", "debug", "package", "os", "coroutine", "_VERSION", "_G"]

/-- The state in which `parse` begins. -/
def Parser.init : Parser :=
  { frame := {}, outer := [], funcs := [], curFn := none, globals := initialGlobals
    labels := [], gotos := [], fnLabels := 0, fnGotos := 0, blkGotos := 0, blkNactvar := 0
    inBounds := true }

/-- The scope half of `parse`: the resolved program, and whether every access to an escape table
was inside its bounds. -/
def resolve (chunk : List RawStmt) : Except String (ParseResult × Bool) := do
  let (body, p) ← resolveBlock (resolveStmts false chunk) Parser.init
  let (captured, inBounds) := p.frame.captured.copy p.frame.nextSlot
  .ok (⟨body, p.frame.nextSlot, captured, p.funcs, p.globals⟩, p.inBounds && inBounds)

end Lua2wasm
