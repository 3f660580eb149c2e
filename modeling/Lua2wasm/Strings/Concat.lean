import Lua2wasm.Strings.Lazy

/-!
# Concatenation

The `..` operator of `runtime/prelude/tostring.wat` on strings and numbers: `$lua_concat`,
`$lua_concat3` and `$lua_concat4`. An operand that is neither has no metamethods to be called here
(`$arith_mm`), so `Operand` has strings and numbers only.

A history is a list of the calls that a program makes on its strings (`StrOp`), with what came of
each, and `StrRun` is what they lead to.
-/

namespace Lua2wasm.Strings

open Table (Fault strHash)

/-- A value that `$is_concatable` holds of. -/
inductive Operand
  /-- A string. -/
  | str (s : ℕ)
  /-- An integer. -/
  | int (v : Int64)
  /-- A float. -/
  | float (f : F64)
  deriving DecidableEq, Repr

/-- `$float_to_bytes`. -/
def floatToBytes (host : HostFmt) (f : F64) : StrM ℕ := newArr (host.bytes f)

/-- `$concat_piece`: the bytes of an operand, if there are any yet, and their number. -/
def concatPiece (host : HostFmt) : Operand → StrM (Option ℕ × ℕ)
  | .str s => do
    let o ← strOf s
    let n ← strLength s
    pure (o.bytes, n)
  | .int v => pure (none, intLen v)
  | .float f => do
    let r ← floatToBytes host f
    let a ← arrOf r
    pure (some r, a.length)

/-- `$concat_put`. -/
def concatPut (out pos : ℕ) (v : Operand) (bytes : Option ℕ) (n : ℕ) : StrM ℕ :=
  match bytes, v with
  | some r, _ => do
    copyTo out pos r n
    pure (pos + n)
  | none, .str s => do
    let r ← strBytes s
    copyTo out pos r n
    pure (pos + n)
  | none, .int v => do
    let a ← arrOf out
    let a ← orTrap (intWrite a (pos + n) v)
    setArr out a
    pure (pos + n)
  | none, .float _ => throw .stuck

/-- `$concat_str`. -/
def concatStr (v : Operand) (bytes : Option ℕ) : StrM ℕ :=
  match v, bytes with
  | .str s, _ => pure s
  | .int v, none => do
    let a ← orTrap (intToBytes v)
    let r ← newArr a
    strOfBytes r 3
  | .float _, none => throw .stuck
  | _, some r => newStr ⟨some r, 0, .flat⟩

/-- `$buf_cap`. -/
def bufCap (n : ℕ) : ℕ := if n > 0x3fffffff then 0x7fffffff else 2 * n

/-- The start of `$buf_append`: room for `n` bytes in the buffer's array. -/
def bufRoom (buf na n : ℕ) : StrM ℕ := do
  let b ← bufOf buf
  let a ← arrOf b.arr
  if n > a.length then do
    let grown ← newArr (List.replicate (bufCap n) 0)
    copyTo grown 0 b.arr na
    setBuf buf { b with arr := grown }
    pure grown
  else pure b.arr

/-- `$buf_append`. -/
def bufAppend (buf na : ℕ) (b : Operand) (sb : Option ℕ) (n : ℕ) : StrM ℕ := do
  let arr ← bufRoom buf na n
  let _ ← concatPut arr na b sb (n - na)
  let x ← bufOf buf
  setBuf buf { x with used := n }
  newStr ⟨none, 0, .buf n (some buf)⟩

/-- `$buf_start`. -/
def bufStart (a : ℕ) (b : Operand) (sb : Option ℕ) (n : ℕ) : StrM ℕ := do
  let o ← strOf a
  let na ← orTrap o.kind.len
  let arr ← newArr (List.replicate (bufCap n) 0)
  let _ ← lazyWrite (some arr) na a
  let _ ← concatPut arr na b sb (n - na)
  let buf ← newBuf ⟨arr, n⟩
  newStr ⟨none, 0, .buf n (some buf)⟩

/-- The end of `$concat_lazy`: a node over the operands. -/
def concatNode (a : Operand) (sa : Option ℕ) (b : Operand) (sb : Option ℕ) (n : ℕ) : StrM ℕ := do
  let left ← concatStr a sa
  let right ← concatStr b sb
  newStr ⟨none, 0, .rope n (some left) (some right)⟩

/-- `$concat_lazy`, when the length is in bounds. -/
def concatLong (a : Operand) (sa : Option ℕ) (b : Operand) (sb : Option ℕ) (n : ℕ) : StrM ℕ :=
  match a with
  | .str s => do
    let o ← strOf s
    match o.kind, o.bytes with
    | .buf len (some buf), _ => do
      let x ← bufOf buf
      if len = x.used then bufAppend buf len b sb n else concatNode a sa b sb n
    | .rope _ _ _, none => bufStart s b sb n
    | _, _ => concatNode a sa b sb n
  | _ => concatNode a sa b sb n

/-- `$concat_lazy`. -/
def concatLazy (a : Operand) (sa : Option ℕ) (b : Operand) (sb : Option ℕ) (n : ℕ) : StrM ℕ :=
  if n > 2147483647 then throw (.raised "too large") else concatLong a sa b sb n

/-- `$lua_concat`. -/
def luaConcat (host : HostFmt) (a b : Operand) : StrM ℕ := do
  let (sa, na) ← concatPiece host a
  let (sb, nb) ← concatPiece host b
  if (na + nb) % 2^32 ≥ 128 then concatLazy a sa b sb (na + nb)
  else do
    let out ← newArr (List.replicate ((na + nb) % 2^32) 0)
    let pos ← concatPut out 0 a sa na
    let _ ← concatPut out pos b sb nb
    strOfBytes out 0

/-- `$lua_concat3`. -/
def luaConcat3 (host : HostFmt) (a b c : Operand) : StrM ℕ := do
  let (sa, na) ← concatPiece host a
  let (sb, nb) ← concatPiece host b
  let (sc, nc) ← concatPiece host c
  if na + (nb + nc) ≥ 128 then do
    let r ← luaConcat host b c
    luaConcat host a (.str r)
  else do
    let out ← newArr (List.replicate (na + (nb + nc)) 0)
    let pos ← concatPut out 0 a sa na
    let pos ← concatPut out pos b sb nb
    let _ ← concatPut out pos c sc nc
    strOfBytes out 0

/-- `$lua_concat4`. -/
def luaConcat4 (host : HostFmt) (a b c d : Operand) : StrM ℕ := do
  let (sa, na) ← concatPiece host a
  let (sb, nb) ← concatPiece host b
  let (sc, nc) ← concatPiece host c
  let (sd, nd) ← concatPiece host d
  if na + nb + (nc + nd) ≥ 128 then do
    let r ← luaConcat host c d
    let r ← luaConcat host b (.str r)
    luaConcat host a (.str r)
  else do
    let out ← newArr (List.replicate (na + nb + (nc + nd)) 0)
    let pos ← concatPut out 0 a sa na
    let pos ← concatPut out pos b sb nb
    let pos ← concatPut out pos c sc nc
    let _ ← concatPut out pos d sd nd
    strOfBytes out 0

/-! ## Histories -/

/-- A call that a program makes on its strings. -/
inductive StrOp
  /-- A string that something else makes, such as a constant, with its hash computed or not. -/
  | make (bytes : List UInt8) (hashed : Bool)
  /-- `$str_of_bytes`, with the kind of string. -/
  | ofBytes (bytes : List UInt8) (kind : ℕ)
  /-- `$lua_concat`. -/
  | concat (a b : Operand)
  /-- `$lua_concat3`. -/
  | concat3 (a b c : Operand)
  /-- `$lua_concat4`. -/
  | concat4 (a b c d : Operand)
  /-- `$str_bytes`. -/
  | bytes (s : ℕ)
  /-- `$str_length`. -/
  | length (s : ℕ)
  /-- `$str_eq`. -/
  | eq (s t : ℕ)
  /-- `$str_hash`. -/
  | hash (s : ℕ)
  deriving DecidableEq, Repr

/-- What a call gives. -/
inductive StrResult
  /-- A string. -/
  | str (s : ℕ)
  /-- The bytes of a string. -/
  | bytes (x : List UInt8)
  /-- A length. -/
  | length (n : ℕ)
  /-- The result of a comparison. -/
  | eq (b : Bool)
  /-- A hash. -/
  | hash (h : UInt32)
  deriving DecidableEq, Repr

/-- The runtime's call. -/
def StrOp.run (host : HostFmt) : StrOp → StrM StrResult
  | .make x hashed => do
    let r ← newArr x
    let s ← newStr ⟨some r, if hashed then strHash x else 0, .flat⟩
    pure (.str s)
  | .ofBytes x kind => do
    let r ← newArr x
    let s ← strOfBytes r kind
    pure (.str s)
  | .concat a b => .str <$> luaConcat host a b
  | .concat3 a b c => .str <$> luaConcat3 host a b c
  | .concat4 a b c d => .str <$> luaConcat4 host a b c d
  | .bytes s => do
    let r ← strBytes s
    let a ← arrOf r
    pure (.bytes a)
  | .length s => .length <$> strLength s
  | .eq s t => .eq <$> strEq s t
  | .hash s => .hash <$> strHashOf s

/-- The string of an operand is there. -/
def Operand.Live (h : StrHeap) : Operand → Prop
  | .str s => s < h.strs.length
  | _ => True

/-- A call on strings that there are. The length of an array is a number of 31 bits, and there are four
kinds of cached strings. -/
def StrOp.Legal (h : StrHeap) : StrOp → Prop
  | .make x _ => x.length < 2^31
  | .ofBytes x kind => x.length < 2^31 ∧ kind < 4
  | .concat a b => a.Live h ∧ b.Live h
  | .concat3 a b c => a.Live h ∧ b.Live h ∧ c.Live h
  | .concat4 a b c d => a.Live h ∧ b.Live h ∧ c.Live h ∧ d.Live h
  | .bytes s => s < h.strs.length
  | .length s => s < h.strs.length
  | .eq s t => s < h.strs.length ∧ t < h.strs.length
  | .hash s => s < h.strs.length

/-- A history, and the heap it leads to. -/
inductive StrRun (host : HostFmt) : StrHeap → List (StrOp × Except Fault StrResult) → Prop
  /-- Nothing has happened yet. -/
  | init : StrRun host StrHeap.init []
  /-- One more call. -/
  | step {h h' : StrHeap} {hist : List (StrOp × Except Fault StrResult)} {op : StrOp}
      {r : Except Fault StrResult} (hrun : StrRun host h hist) (hl : op.Legal h)
      (hs : ((op.run host).run h : Except Fault StrResult × StrHeap) = (r, h')) :
      StrRun host h' (hist ++ [(op, r)])

end Lua2wasm.Strings
