import Lua2wasm.Lib.Leb128

/-!
# Expressions and types of the assembler

`wat2wasm.c`: the tree that the reader makes of the text of a module, integer literals, and the encoding of value
types. An atom is a C string; strings end at their first NUL for all that reads them here. A failure has the text of
the error.
-/

namespace Lua2wasm.Wat

open Leb128

/-- `SExpr`. -/
inductive SExpr where
  /-- A token, or the contents of a string. -/
  | atom (text : String) (isString : Bool)
  /-- A list in parentheses. -/
  | list (kids : List SExpr)

/-- The node is an atom, with this text. `is_atom`. -/
def SExpr.atom? : SExpr → Option String
  | .atom s _ => some s
  | .list _ => none

/-- `head`: the keyword of a list. -/
def SExpr.head : SExpr → Option String
  | .list (.atom s false :: _) => some s
  | _ => none

/-- What follows the first node of a list. -/
def SExpr.args : SExpr → List SExpr
  | .list (_ :: kids) => kids
  | _ => []

/-- The name of an identifier, that is an atom that begins with a dollar sign. -/
def SExpr.ident : SExpr → Option String
  | .atom s _ => if s.toList.head? = some '$' then some s else none
  | .list _ => none

/-! ## Integers -/

/-- `hexval`. -/
def hexval (ch : Char) : Option ℕ :=
  if '0' ≤ ch ∧ ch ≤ '9' then some (ch.toNat - '0'.toNat)
  else if 'a' ≤ ch ∧ ch ≤ 'f' then some (ch.toNat - 'a'.toNat + 10)
  else if 'A' ≤ ch ∧ ch ≤ 'F' then some (ch.toNat - 'A'.toNat + 10)
  else none

/-- The digits of a hexadecimal literal. -/
def hexDigits : List Char → UInt64 → Except String UInt64
  | [], v => pure v
  | ch :: s, v =>
    if ch = '_' then hexDigits s v
    else match hexval ch with
      | none => throw ("bad hex digit in '" ++ String.ofList (ch :: s) ++ "'")
      | some h => hexDigits s (v * 16 + UInt64.ofNat h)

/-- The digits of a decimal literal. -/
def decDigits : List Char → UInt64 → Except String UInt64
  | [], v => pure v
  | ch :: s, v =>
    if ch = '_' then decDigits s v
    else if ch < '0' ∨ '9' < ch then throw ("bad digit in integer '" ++ String.ofList (ch :: s) ++ "'")
    else decDigits s (v * 10 + UInt64.ofNat (ch.toNat - '0'.toNat))

/-- The part of `parse_uint` after the sign. -/
def parseMagnitude (s : List Char) : Except String UInt64 :=
  match s with
  | '0' :: x :: s =>
    if x = 'x' ∨ x = 'X' then
      if s = [] then throw "bad hex integer" else hexDigits s 0
    else decDigits ('0' :: x :: s) 0
  | s => if s = [] then throw "empty integer" else decDigits s 0

/-- `parse_uint`. -/
def parseUint (s : String) : Except String UInt64 :=
  match s.toList with
  | '+' :: s => parseMagnitude s
  | '-' :: s => do
    let v ← parseMagnitude s
    pure (0 - v)
  | s => parseMagnitude s

/-! ## Types -/

/-- `DeclType`: a declared type, as far as functions look at it. -/
structure DeclType where
  /-- The name. -/
  name : Option String
  /-- The definition, without its supertypes. -/
  comptype : SExpr

/-- `Ctx`: the declared types. -/
structure Ctx where
  /-- The declared types. -/
  decls : List DeclType

/-- `resolve_type`. -/
def resolveType (c : Ctx) (n : Option SExpr) : Except String ℕ :=
  match n.bind SExpr.atom? with
  | none => throw "expected a type"
  | some s =>
    if s.toList.head? = some '$' then
      match c.decls.findIdx? fun d => d.name = some s with
      | some i => pure i
      | none => throw ("unknown type '" ++ s ++ "'")
    else do
      let v ← parseUint s
      pure (v.toNat % 2^32)

/-- `abstract_heaptype`. -/
def abstractHeaptype : String → Option UInt8
  | "func" => some 0x70
  | "extern" => some 0x6f
  | "any" => some 0x6e
  | "eq" => some 0x6d
  | "i31" => some 0x6c
  | "struct" => some 0x6b
  | "array" => some 0x6a
  | "none" => some 0x71
  | "nofunc" => some 0x73
  | "noextern" => some 0x72
  | "exn" => some 0x69
  | "noexn" => some 0x74
  | _ => none

/-- `emit_heaptype`. -/
def emitHeaptype (c : Ctx) (n : SExpr) : Except String (List UInt8) :=
  match n.atom? with
  | none => throw "expected a heap type"
  | some s =>
    match if s.toList.head? = some '$' then none else abstractHeaptype s with
    | some b => pure [b]
    | none => do
      let i ← resolveType c (some n)
      pure (sleb i)

/-- `abstract_reftype`. -/
def abstractReftype : String → Option UInt8
  | "funcref" => some 0x70
  | "externref" => some 0x6f
  | "anyref" => some 0x6e
  | "eqref" => some 0x6d
  | "i31ref" => some 0x6c
  | "structref" => some 0x6b
  | "arrayref" => some 0x6a
  | "nullref" => some 0x71
  | "nullfuncref" => some 0x73
  | "nullexternref" => some 0x72
  | "exnref" => some 0x69
  | "nullexnref" => some 0x74
  | _ => none

/-- The value types that are atoms. -/
def atomValtype : String → Option UInt8
  | "i32" => some 0x7f
  | "i64" => some 0x7e
  | "f32" => some 0x7d
  | "f64" => some 0x7c
  | s => abstractReftype s

/-- `(ref [null] heaptype)`, from after the keyword. -/
def emitRef (c : Ctx) : List SExpr → Except String (List UInt8)
  | .atom "null" false :: k :: _ => do
    let h ← emitHeaptype c k
    pure (0x63 :: h)
  | [.atom "null" false] => throw "(ref ...) needs a heap type"
  | k :: _ => do
    let h ← emitHeaptype c k
    pure (0x64 :: h)
  | [] => throw "(ref ...) needs a heap type"

/-- `valtype_bytes`, and `emit_valtype`. -/
def valtypeBytes (c : Ctx) : Option SExpr → Except String (List UInt8)
  | none => throw "expected a value type"
  | some n =>
    match n.atom? with
    | some s =>
      match atomValtype s with
      | some b => pure [b]
      | none => throw ("unsupported value type '" ++ s ++ "'")
    | none => if n.head = some "ref" then emitRef c n.args else throw "expected a value type"

end Lua2wasm.Wat
