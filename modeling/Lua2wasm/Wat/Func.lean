import Lua2wasm.Wat.Sexpr

/-!
# Functions of the assembler

`wat2wasm.c`: the parts of a `(func ...)` before its body, the table of its parameters and locals, and the entry of the
code section. Positions in the table are natural numbers.
-/

namespace Lua2wasm.Wat

open Leb128

/-- `Local`: an entry of the table. -/
structure Local where
  /-- The name. -/
  name : Option String
  /-- The encoded type. -/
  type : List UInt8
deriving DecidableEq

/-- `FuncSig`: the encoded types of a signature, and how many they are. -/
structure FuncSig where
  params : List UInt8
  nParams : ℕ
  results : List UInt8
  nResults : ℕ

/-- `Func`, with the table of its `FuncCtx`. -/
structure Func where
  /-- The name. -/
  name : Option String
  /-- The name that it is exported by. -/
  exportName : Option String
  /-- The declared type that it refers to. -/
  typeRef : Option ℕ
  /-- The signature that is written in it. -/
  sig : FuncSig
  /-- The table: `fc.locals`. -/
  locals : List Local
  /-- How many of the table are parameters: `fc.n_params`. -/
  nParams : ℕ
  /-- The instructions. -/
  body : List SExpr

/-- The state that `parse_func` begins with. -/
def Func.empty : Func where
  name := none
  exportName := none
  typeRef := none
  sig := ⟨[], 0, [], 0⟩
  locals := []
  nParams := 0
  body := []

/-- `resolve_local`. -/
def resolveLocal (f : Func) (n : SExpr) : Except String ℕ :=
  match n.atom? with
  | none => throw "expected local index"
  | some s =>
    if s.toList.head? = some '$' then
      match f.locals.findIdx? fun l => l.name = some s with
      | some i => pure i
      | none => throw ("unknown local '" ++ s ++ "'")
    else do
      let v ← parseUint s
      pure (v.toNat % 2^32)

/-- The loop of `collect_group`: entries without names. -/
def collectUnnamed (c : Ctx) : List SExpr → Except String (List Local)
  | [] => pure []
  | k :: ks => do
    let t ← valtypeBytes c (some k)
    let rest ← collectUnnamed c ks
    pure (⟨none, t⟩ :: rest)

/-- `collect_group`, from after the keyword. -/
def collectGroup (c : Ctx) : List SExpr → Except String (List Local)
  | [] => pure []
  | k :: ks =>
    match k.ident with
    | some s => do
      -- what follows the type is not looked at
      let t ← valtypeBytes c ks.head?
      pure [⟨some s, t⟩]
    | none => collectUnnamed c (k :: ks)

/-- `(param ...)`. -/
def Func.addParams (out : Func) (ls : List Local) : Func :=
  { out with
    sig := { out.sig with
      params := out.sig.params ++ ls.flatMap Local.type
      nParams := out.sig.nParams + ls.length }
    locals := out.locals ++ ls
    nParams := out.nParams + ls.length }

/-- `(result ...)`. -/
def Func.addResults (out : Func) (ls : List Local) : Func :=
  { out with
    sig := { out.sig with
      results := out.sig.results ++ ls.flatMap Local.type
      nResults := out.sig.nResults + ls.length } }

/-- `(local ...)`. -/
def Func.addLocals (out : Func) (ls : List Local) : Func := { out with locals := out.locals ++ ls }

/-- A turn of the loop of `parse_func`, unless the node is the first of the body. -/
def headerNode (c : Ctx) (k : SExpr) (out : Func) : Option (Except String Func) :=
  match k.ident with
  | some s => some (pure { out with name := some s })
  | none =>
    match k.head with
    | some "export" =>
      match k.args with
      | .atom s true :: _ => some (pure { out with exportName := some s })
      | _ => some (throw "(export ...) needs a name string")
    | some "type" => some do
      let r ← resolveType c k.args.head?
      pure { out with typeRef := some r }
    | some "param" => some do
      let ls ← collectGroup c k.args
      pure (out.addParams ls)
    | some "result" => some do
      let ls ← collectGroup c k.args
      pure (out.addResults ls)
    | some "local" => some do
      let ls ← collectGroup c k.args
      pure (out.addLocals ls)
    | _ => none

/-- The loop of `parse_func`. -/
def parseHeader (c : Ctx) : List SExpr → Func → Except String Func
  | [], out => pure out
  | k :: ks, out =>
    match headerNode c k out with
    | some r => do
      let out ← r
      parseHeader c ks out
    | none => pure { out with body := k :: ks }

/-- The parameters that a group declares. -/
def groupSize : List SExpr → ℕ
  | [] => 0
  | k :: ks => if k.ident.isSome then 1 else (k :: ks).length

/-- `count_comptype_params`. -/
def countComptypeParams (func : SExpr) : ℕ :=
  (func.args.map fun k => if k.head = some "param" then groupSize k.args else 0).sum

/-- The parameters that the declared type `r` has, if it is the type of functions. -/
def declaredParams (c : Ctx) (r : ℕ) : ℕ :=
  match c.decls[r]? with
  | some d => if d.comptype.head = some "func" then countComptypeParams d.comptype else 0
  | none => 0

/-- The end of `parse_func`: the entries for the parameters of a type that is only referred to. Their types are not
emitted. -/
def Func.recoverParams (c : Ctx) (out : Func) : Func :=
  match out.typeRef with
  | some r =>
    if out.sig.nParams = 0 then
      { out with
        locals := out.locals ++ List.replicate (declaredParams c r) ⟨none, [0x7f]⟩
        nParams := out.nParams + declaredParams c r }
    else out
  | none => out

/-- `parse_func`. -/
def parseFunc (c : Ctx) (fn : SExpr) : Except String Func := do
  let out ← parseHeader c fn.args Func.empty
  pure (out.recoverParams c)

/-- The runs of equal types in `encode_code`. -/
def groupRuns : List Local → List (ℕ × List UInt8)
  | [] => []
  | l :: ls =>
    let same := ls.takeWhile fun m => m.type = l.type
    (same.length + 1, l.type) :: groupRuns (ls.drop same.length)
termination_by ls => ls.length

/-- `encode_code`, given what has been emitted for the instructions. -/
def encodeCode (fn : Func) (body : List UInt8) : List UInt8 :=
  let runs := groupRuns (fn.locals.drop fn.nParams)
  let entry := uleb runs.length ++ runs.flatMap (fun r => uleb r.1 ++ r.2) ++ body
  uleb entry.length ++ entry

/-! ## The binary format -/

/-- A value type at the front of the bytes. -/
def readValtype : List UInt8 → Option (List UInt8 × List UInt8)
  | [] => none
  | b :: bs =>
    if b = 0x63 ∨ b = 0x64 then do
      let (h, rest) ← readGroup bs
      some (b :: h, rest)
    else some ([b], bs)

/-- So many runs of locals: their types, one for each local. -/
def readRuns : ℕ → List UInt8 → Option (List (List UInt8) × List UInt8)
  | 0, bs => some ([], bs)
  | groups + 1, bs => do
    let (n, bs) ← readUleb bs
    let (t, bs) ← readValtype bs
    let (ts, bs) ← readRuns groups bs
    some (List.replicate n t ++ ts, bs)

/-- An entry of the code section: the types of its locals and its instructions. -/
def readCode (bs : List UInt8) : Option (List (List UInt8) × List UInt8) := do
  let (len, bs) ← readUleb bs
  if bs.length = len then do
    let (groups, bs) ← readUleb bs
    readRuns groups bs
  else none

end Lua2wasm.Wat
