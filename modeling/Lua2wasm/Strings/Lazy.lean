import Lua2wasm.Strings.Digits
import Lua2wasm.Lib.Raising

/-!
# Lazy strings

`runtime/prelude/tostring.wat`: the string objects, the short-string cache, the lazy strings, and the
`..` operator on two, three and four operands. A long result is not copied together at once. It is a
node over its operands (`$LuaRope`) or a prefix of a growable buffer (`$LuaBufStr`), and its bytes are
made when they are first read.

Arrays, strings and buffers are objects with identities, and `StrHeap` has them in the order of their
creation: what one string or buffer writes to an array is seen by everything else that refers to it.
The bytes of a float come from the host, which writes them into a buffer of 16384 bytes (`HostFmt`).
The stack of `$lazy_write` is a list, and its loop runs for at most `2^n` steps, where `n` is the
number of strings. Allocation succeeds.
-/

namespace Lua2wasm.Strings

open Table (Fault setAt arrayCopy strHash)

/-- What a string object has beside its bytes and its hash. -/
inductive StrKind
  /-- A plain `$LuaString`. -/
  | flat
  /-- A `$LuaRope`: `$len`, `$left` and `$right`. -/
  | rope (len : ℕ) (left right : Option ℕ)
  /-- A `$LuaBufStr`: `$len` and `$buf`. -/
  | buf (len : ℕ) (buf : Option ℕ)
  deriving DecidableEq, Repr

/-- `$LuaString` and its subtypes. -/
structure StrObj where
  /-- `$bytes`, an array. -/
  bytes : Option ℕ
  /-- `$hash`, 0 when it is not computed. -/
  hash : UInt32
  /-- The fields of the subtype. -/
  kind : StrKind
  deriving DecidableEq, Repr

/-- `$StrBuf`. -/
structure StrBuf where
  /-- `$arr`, an array. -/
  arr : ℕ
  /-- `$used`. -/
  used : ℕ
  deriving DecidableEq, Repr

/-- The objects, and the globals of the string cache. -/
structure StrHeap where
  /-- The arrays of type `$LuaArr`. -/
  arrs : List (List UInt8)
  /-- The strings. -/
  strs : List StrObj
  /-- The buffers. -/
  bufs : List StrBuf
  /-- `$g_scache`. -/
  scache : List (Option ℕ)
  /-- `$g_scache_state`. -/
  scacheState : List UInt32
  /-- `$g_char_strs`. -/
  charStrs : List (Option ℕ)
  deriving Repr

/-- The start of a program. -/
def StrHeap.init : StrHeap where
  arrs := []
  strs := []
  bufs := []
  scache := List.replicate 4096 none
  scacheState := List.replicate 16 0
  charStrs := List.replicate 256 none

/-- `host_fmt` of kind 6: the text of a float. -/
structure HostFmt where
  /-- The bytes. -/
  bytes : F64 → List UInt8
  /-- They fit the buffer that the host writes them to. -/
  fits : ∀ f, (bytes f).length ≤ 16384

/-- A computation on strings. -/
abbrev StrM := ExceptT Fault (StateM StrHeap)

/-- The value of a read that traps when there is none. -/
def orTrap {α : Type} : Option α → StrM α
  | some a => pure a
  | none => throw .stuck

/-! ## Objects -/

/-- `array.new` and `array.new_data`. -/
def newArr (a : List UInt8) : StrM ℕ := do
  let h ← get
  set { h with arrs := h.arrs ++ [a] }
  pure h.arrs.length

/-- `struct.new` of a string. -/
def newStr (o : StrObj) : StrM ℕ := do
  let h ← get
  set { h with strs := h.strs ++ [o] }
  pure h.strs.length

/-- `struct.new $StrBuf`. -/
def newBuf (b : StrBuf) : StrM ℕ := do
  let h ← get
  set { h with bufs := h.bufs ++ [b] }
  pure h.bufs.length

/-- The bytes of an array. -/
def arrOf (r : ℕ) : StrM (List UInt8) := do
  let h ← get
  orTrap h.arrs[r]?

/-- The fields of a string. -/
def strOf (s : ℕ) : StrM StrObj := do
  let h ← get
  orTrap h.strs[s]?

/-- The fields of a buffer. -/
def bufOf (b : ℕ) : StrM StrBuf := do
  let h ← get
  orTrap h.bufs[b]?

/-- Change an array. -/
def setArr (r : ℕ) (a : List UInt8) : StrM Unit :=
  modify fun h => { h with arrs := h.arrs.set r a }

/-- Change the fields of a string. -/
def setStr (s : ℕ) (o : StrObj) : StrM Unit :=
  modify fun h => { h with strs := h.strs.set s o }

/-- Change the fields of a buffer. -/
def setBuf (b : ℕ) (x : StrBuf) : StrM Unit :=
  modify fun h => { h with bufs := h.bufs.set b x }

/-- `array.copy` of the first `n` bytes of the array `src` to position `pos` of the array `dst`. -/
def copyTo (dst pos src n : ℕ) : StrM Unit := do
  let a ← arrOf dst
  let b ← arrOf src
  let a ← orTrap (arrayCopy a pos b 0 n)
  setArr dst a

/-! ## Reading a lazy string -/

/-- `$len` of a `$LuaLazy`. -/
def StrKind.len : StrKind → Option ℕ
  | .flat => none
  | .rope len _ _ => some len
  | .buf len _ => some len

/-- Where the loop of `$lazy_write` is: `pos` is where the bytes written so far start, `n` is the string to
go on with, and `stack` has the strings to its left. -/
structure Writing where
  /-- `$pos`. -/
  pos : ℕ
  /-- `$n`. -/
  n : ℕ
  /-- `$stack`. -/
  stack : List (Option ℕ)
  deriving Repr

/-- Copy a leaf, and go on with the top of the stack. -/
def lazyWriteLeaf (out : ℕ) (w : Writing) (src len : ℕ) : StrM (Option Writing) :=
  if w.pos < len then
    throw .stuck
  else do
    copyTo out (w.pos - len) src len
    match w.stack with
    | [] => pure none
    | left :: stack => do
      let n ← orTrap left
      pure (some ⟨w.pos - len, n, stack⟩)

/-- A turn of the loop of `$lazy_write`, which goes over the leaves from right to left. -/
def lazyWriteStep (out : ℕ) (w : Writing) : StrM (Option Writing) := do
  let o ← strOf w.n
  match o.bytes, o.kind with
  | some b, _ => do
    let a ← arrOf b
    lazyWriteLeaf out w b a.length
  | none, .rope _ left right => do
    let right ← orTrap right
    pure (some ⟨w.pos, right, left :: w.stack⟩)
  | none, .buf len buf => do
    let buf ← orTrap buf
    let buf ← bufOf buf
    lazyWriteLeaf out w buf.arr len
  | none, .flat => throw .stuck

/-- The loop of `$lazy_write`. -/
def lazyWriteFrom (out : ℕ) : ℕ → Writing → StrM Unit
  | 0, _ => throw .stuck
  | fuel + 1, w => do
    let next ← lazyWriteStep out w
    match next with
    | none => pure ()
    | some w => lazyWriteFrom out fuel w

/-- `$lazy_write`. -/
def lazyWrite (out : Option ℕ) (stop s : ℕ) : StrM ℕ := do
  let out ← match out with
    | none => newArr (List.replicate stop 0)
    | some out => pure out
  let h ← get
  lazyWriteFrom out (2^h.strs.length) ⟨stop, s, []⟩
  pure out

/-- The operands and the buffer are dropped once the bytes are there. -/
def StrKind.drop : StrKind → StrKind
  | .flat => .flat
  | .rope len _ _ => .rope len none none
  | .buf len _ => .buf len none

/-- `$lazy_flatten`. -/
def lazyFlatten (s : ℕ) : StrM ℕ := do
  let o ← strOf s
  let len ← orTrap o.kind.len
  let out ← lazyWrite none len s
  let o ← strOf s
  setStr s { o with bytes := some out, kind := o.kind.drop }
  pure out

/-- `$str_bytes`. -/
def strBytes (s : ℕ) : StrM ℕ := do
  let o ← strOf s
  match o.bytes with
  | none => lazyFlatten s
  | some b => pure b

/-- `$str_length`. -/
def strLength (s : ℕ) : StrM ℕ := do
  let o ← strOf s
  match o.bytes with
  | none => orTrap o.kind.len
  | some b => do
    let a ← arrOf b
    pure a.length

/-! ## Comparing and hashing -/

/-- `$str_eq` on two arrays. -/
def arrEq (a b : ℕ) : StrM Bool := do
  let a ← arrOf a
  let b ← arrOf b
  pure (a.length = b.length && (List.range a.length).all fun i => a[i]? = b[i]?)

/-- `$str_eq`, after the test of the hashes. -/
def strEqBytes (a b : ℕ) : StrM Bool := do
  let oa ← strOf a
  let ob ← strOf b
  match oa.bytes, ob.bytes with
  | some ra, some rb => arrEq ra rb
  | _, _ => do
    let na ← strLength a
    let nb ← strLength b
    if na ≠ nb then
      pure false
    else do
      let ra ← strBytes a
      let rb ← strBytes b
      arrEq ra rb

/-- `$str_eq`. -/
def strEq (a b : ℕ) : StrM Bool := do
  if a = b then
    pure true
  else do
    let oa ← strOf a
    let ob ← strOf b
    if oa.hash ≠ 0 ∧ ob.hash ≠ 0 ∧ oa.hash ≠ ob.hash then
      pure false
    else strEqBytes a b

/-- `$str_hash`, and `$str_hash_compute` behind it. -/
def strHashOf (s : ℕ) : StrM UInt32 := do
  let o ← strOf s
  if o.hash ≠ 0 then
    pure o.hash
  else do
    let r ← strBytes s
    let a ← arrOf r
    let o ← strOf s
    setStr s { o with hash := strHash a }
    pure (strHash a)

/-! ## The cache of short strings -/

/-- `$char_str`. -/
def charStr (b : UInt8) : StrM ℕ := do
  let h ← get
  let c ← orTrap h.charStrs[b.toNat]?
  match c with
  | some c => pure c
  | none => do
    let r ← newArr [b]
    let s ← newStr ⟨some r, strHash [b], .flat⟩
    modify fun h => { h with charStrs := h.charStrs.set b.toNat (some s) }
    pure s

/-- `array.set` of the state of the cache. -/
def setScacheState (i : ℕ) (x : UInt32) : StrM Unit := do
  let h ← get
  let st ← orTrap (setAt h.scacheState i x)
  set { h with scacheState := st }

/-- `array.get` of the state of the cache. -/
def scacheStateAt (i : ℕ) : StrM UInt32 := do
  let h ← get
  orTrap h.scacheState[i]?

/-- `$scache_on`. -/
def scacheOn (kind : ℕ) : StrM Bool := do
  let skip ← scacheStateAt (4 * kind + 2)
  if skip ≠ 0 then
    setScacheState (4 * kind + 2) (skip - 1)
    pure false
  else do
    let p ← scacheStateAt (4 * kind)
    if p + 1 < 256 then
      setScacheState (4 * kind) (p + 1)
      pure true
    else do
      let missed ← scacheStateAt (4 * kind + 1)
      if missed > 128 then
        setScacheState (4 * kind + 2) 4096
      setScacheState (4 * kind) 0
      setScacheState (4 * kind + 1) 0
      pure true

/-- `$scache_missed`. -/
def scacheMissed (kind : ℕ) : StrM Unit := do
  let k ← scacheStateAt (4 * kind + 1)
  setScacheState (4 * kind + 1) (k + 1)

/-- `$scache_slot` of all of an array. -/
def scacheSlot (src : List UInt8) : ℕ :=
  let byte (i : ℕ) : UInt32 := (src.getD i 0).toUInt32
  let last := byte (src.length - 1)
  let first : UInt32 := (UInt32.ofNat src.length * (2654435761 : UInt32)) ^^^ (byte 0 ||| (byte 1 <<< 8))
  let rest : UInt32 := (byte (src.length / 2) <<< 16) |||
    ((byte (src.length - 2) <<< 24) ||| ((last <<< 4) ||| (last >>> 28)))
  let mixed : UInt32 := (first ^^^ rest) * 2246822507
  (mixed >>> 20).toNat

/-- `$scache_find` of all of an array. -/
def scacheFind (src : List UInt8) (slot : ℕ) : StrM (Option ℕ) := do
  let h ← get
  let c ← orTrap h.scache[slot]?
  match c with
  | none => pure none
  | some c => do
    let r ← strBytes c
    let cb ← arrOf r
    if cb.length ≠ src.length then
      pure none
    else if (List.range src.length).all fun i => cb[i]? = src[i]? then
      pure (some c)
    else pure none

/-- `$str_of_bytes`, when the string is to be looked up in the cache. -/
def strOfBytesCached (out kind : ℕ) : StrM ℕ := do
  let a ← arrOf out
  let c ← scacheFind a (scacheSlot a)
  match c with
  | some c => pure c
  | none => do
    scacheMissed kind
    let s ← newStr ⟨some out, 0, .flat⟩
    let h ← get
    let cache ← orTrap (setAt h.scache (scacheSlot a) (some s))
    set { h with scache := cache }
    pure s

/-- `$str_of_bytes`. -/
def strOfBytes (out kind : ℕ) : StrM ℕ := do
  let a ← arrOf out
  if a.length > 40 then
    newStr ⟨some out, 0, .flat⟩
  else if a.length = 1 then
    charStr (a.getD 0 0)
  else if a.length < 2 then
    newStr ⟨some out, 0, .flat⟩
  else do
    let on ← scacheOn kind
    if on then strOfBytesCached out kind else newStr ⟨some out, 0, .flat⟩

end Lua2wasm.Strings
