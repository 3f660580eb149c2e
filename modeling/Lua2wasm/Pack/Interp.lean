import Lua2wasm.Pack.Format

/-!
# `string.packsize`, `string.pack` and `string.unpack`

The three interpreters of the format language in `runtime/prelude/string.wat`. Each walks the format
from left to right with registers of its own (`SizeState`, `PackState`, `UnpackState`) and a copy of the
branches for the options; `walk` is the loop, and it takes one turn for each option.

The growing result of `string.pack` is the bytes that it has so far. Its capacity starts at 32 and is
doubled, and `2^31` is not a positive `i32`: it traps beyond `2^30` bytes.
-/

namespace Lua2wasm.Pack

open Table (Fault setAt)

/-- The registers that each walk has: where it is in the format, the byte order and the alignment. -/
structure Walk where
  /-- `$ppos`. -/
  ppos : ℕ
  /-- `$endian_le`. -/
  le : Bool
  /-- `$max_align`. -/
  maxAlign : ℕ
  deriving DecidableEq, Repr

/-- The registers at the start. -/
def Walk.start : Walk where
  ppos := 0
  le := true
  maxAlign := 1

/-- The loop of a walk over a format of `len` bytes. -/
def walk {σ : Type} (ppos : σ → ℕ) (step : σ → Except Fault σ) (len : ℕ) : ℕ → σ → Except Fault σ
  | 0, _ => .error .stuck
  | fuel + 1, st => do
    if len ≤ ppos st then
      pure st
    else
      let st ← step st
      walk ppos step len fuel st

/-- The option after `X`. -/
def alignOpt (bytes : List UInt8) (ppos : ℕ) : Except Fault (ℕ × ℕ) :=
  match bytes[ppos]? with
  | none => raise "invalid format"
  | some c => packOptSize c bytes (ppos + 1)

/-! ## `string.packsize` -/

/-- The registers of `string.packsize`. -/
structure SizeState extends Walk where
  /-- `$offset`. -/
  offset : ℕ
  deriving DecidableEq, Repr

/-- A turn of the loop of `$builtin_string_packsize`. -/
def packsizeStep (bytes : List UInt8) (st : SizeState) : Except Fault SizeState := do
  let c ← orTrap bytes[st.ppos]?
  let ppos := st.ppos + 1
  if c = chr ' ' then pure { st with ppos }
  else if c = chr '<' then pure { st with ppos, le := true }
  else if c = chr '>' then pure { st with ppos, le := false }
  else if c = chr '=' then pure { st with ppos, le := true }
  else if c = chr '!' then do
    let (n, ppos) := packNSuffix bytes ppos 8
    let maxAlign ← packLimits n
    pure { st with ppos, maxAlign }
  else if c = chr 'x' then pure { st with ppos, offset := u32 (st.offset + 1) }
  else if c = chr 'X' then do
    let (sz, ppos) ← alignOpt bytes ppos
    let offset ← packAlign st.offset sz st.maxAlign
    pure { st with ppos, offset }
  else if c = chr 's' then raise "variable-length format"
  else if c = chr 'z' then raise "variable-length format"
  else do
    let (sz, ppos) ← packOptSize c bytes ppos
    if c = chr 'c' then pure { st with ppos, offset := u32 (st.offset + sz) }
    else do
      let offset ← packAlign st.offset sz st.maxAlign
      pure { st with ppos, offset := u32 (offset + sz) }

/-- `string.packsize`. -/
def packsize (bytes : List UInt8) : Except Fault ℤ := do
  let st ← walk (fun st => st.ppos) (packsizeStep bytes) bytes.length (bytes.length + 1)
    { Walk.start with offset := 0 }
  pure (s32 st.offset)

/-! ## `string.pack` -/

/-- The registers of `string.pack`. -/
structure PackState extends Walk where
  /-- `$arg_idx`. -/
  argIdx : ℕ
  /-- The bytes of the builder. -/
  b : List UInt8
  deriving DecidableEq, Repr

/-- `$builder_append` and `$builder_append_byte`. -/
def builderAppend (b x : List UInt8) : Except Fault (List UInt8) :=
  if b.length + x.length ≤ 2^30 then .ok (b ++ x) else .error .stuck

/-- `$pack_align` of the builder, and the zeros up to there. -/
def builderAlign (b : List UInt8) (sz maxAlign : ℕ) : Except Fault (List UInt8) := do
  let offset ← packAlign b.length sz maxAlign
  builderAppend b (List.replicate (offset - b.length) 0)

/-- `$builder_reserve` and `$pack_write_int` at the end of the builder. -/
def builderWriteInt (b : List UInt8) (n : ℕ) (le : Bool) (val : BitVec 64) : Except Fault (List UInt8) := do
  let buf ← builderAppend b (List.replicate n 0)
  orTrap (packWriteInt buf b.length n le val)

/-- A turn of the loop of `$builtin_string_pack`. -/
def packStep (parse : List UInt8 → Option Num) (bytes : List UInt8) (args : List PackVal) (st : PackState) :
    Except Fault PackState := do
  let c ← orTrap bytes[st.ppos]?
  let ppos := st.ppos + 1
  let arg := argsAt args st.argIdx
  let argIdx := st.argIdx + 1
  if c = chr ' ' then pure { st with ppos }
  else if c = chr '<' then pure { st with ppos, le := true }
  else if c = chr '>' then pure { st with ppos, le := false }
  else if c = chr '=' then pure { st with ppos, le := true }
  else if c = chr '!' then do
    let (n, ppos) := packNSuffix bytes ppos 8
    let maxAlign ← packLimits n
    pure { st with ppos, maxAlign }
  else if c = chr 'x' then do
    let b ← builderAppend st.b [0]
    pure { st with ppos, b }
  else if c = chr 'X' then do
    let (sz, ppos) ← alignOpt bytes ppos
    let b ← builderAlign st.b sz st.maxAlign
    pure { st with ppos, b }
  else if c = chr 'z' then do
    let x ← castStr arg
    if x.contains 0 then raise "string contains zeros"
    else do
      let b ← builderAppend st.b x
      let b ← builderAppend b [0]
      pure { st with ppos, argIdx, b }
  else if c = chr 's' then do
    let (n, ppos) := packNSuffix bytes ppos 8
    let n ← packLimits n
    let x ← castStr arg
    if packFitsUnsigned (BitVec.ofNat 64 x.length) n = false then raise "data does not fit"
    else do
      let b ← builderAlign st.b n st.maxAlign
      let b ← builderWriteInt b n st.le (BitVec.ofNat 64 x.length)
      let b ← builderAppend b x
      pure { st with ppos, argIdx, b }
  else if c = chr 'c' then do
    let (sz, ppos) ← packOptSize c bytes ppos
    let x ← castStr arg
    if x.length > sz then raise "data does not fit"
    else do
      let b ← builderAppend st.b x
      let b ← builderAppend b (List.replicate (sz - x.length) 0)
      pure { st with ppos, argIdx, b }
  else if c = chr 'f' ∨ c = chr 'd' ∨ c = chr 'n' then do
    let sz := if c = chr 'f' then 4 else 8
    let b ← builderAlign st.b sz st.maxAlign
    let f ← asFloat arg
    let val := if sz = 4 then f.demote.setWidth 64 else f.bits
    let b ← builderWriteInt b sz st.le val
    pure { st with ppos, argIdx, b }
  else do
    let (sz, ppos) ← packOptSize c bytes ppos
    let b ← builderAlign st.b sz st.maxAlign
    let val ← asIntCo parse arg
    if (if packOptIsSigned c then packFitsSigned val.toBitVec sz else packFitsUnsigned val.toBitVec sz) = false then
      raise "data does not fit"
    else do
      let b ← builderWriteInt b sz st.le val.toBitVec
      pure { st with ppos, argIdx, b }

/-- `string.pack`: the format and the values after it. -/
def pack (parse : List UInt8 → Option Num) (bytes : List UInt8) (vals : List PackVal) :
    Except Fault (List UInt8) := do
  let st ← walk (fun st => st.ppos) (packStep parse bytes (.str bytes :: vals)) bytes.length (bytes.length + 1)
    { Walk.start with argIdx := 1, b := [] }
  pure st.b

/-! ## `string.unpack` -/

/-- The registers of `string.unpack`. -/
structure UnpackState extends Walk where
  /-- `$offset`. -/
  offset : ℕ
  /-- `$out`. -/
  out : List PackVal
  /-- `$out_idx`. -/
  outIdx : ℕ
  deriving DecidableEq, Repr

/-- The loop of `$pack_count_values`. -/
def packCountFrom (bytes : List UInt8) : ℕ → ℕ → ℕ → ℕ
  | 0, _, count => count
  | fuel + 1, ppos, count =>
    match bytes[ppos]? with
    | none => count
    | some c =>
      let ppos := ppos + 1
      if c = chr ' ' ∨ c = chr '<' ∨ c = chr '>' ∨ c = chr '=' then packCountFrom bytes fuel ppos count
      else if c = chr '!' then packCountFrom bytes fuel (packNSuffix bytes ppos 0).2 count
      else if c = chr 'x' then packCountFrom bytes fuel ppos count
      else if c = chr 'X' then
        if bytes.length ≤ ppos then packCountFrom bytes fuel ppos count
        else packCountFrom bytes fuel (packNSuffix bytes (ppos + 1) 0).2 count
      else packCountFrom bytes fuel (packNSuffix bytes ppos 0).2 (count + 1)

/-- `$pack_count_values`. -/
def packCountValues (bytes : List UInt8) : ℕ := packCountFrom bytes (bytes.length + 1) 0 0

/-- The bytes of `subj` from `offset` on, up to the next zero. -/
def zeroFrom (subj : List UInt8) : ℕ → ℕ → ℕ → Except Fault ℕ
  | 0, _, _ => .error .stuck
  | fuel + 1, offset, sz =>
    match subj[u32 (offset + sz)]? with
    | none => raise "data does not fit"
    | some b => if b = 0 then .ok sz else zeroFrom subj fuel offset (sz + 1)

/-- `array.new` and `array.copy` of a part of `subj`. -/
def takeBytes (subj : List UInt8) (offset sz : ℕ) : Except Fault (List UInt8) :=
  if offset + sz ≤ subj.length then .ok ((subj.drop offset).take sz) else .error .stuck

/-- The test before each read. -/
def checkRoom (subj : List UInt8) (offset sz : ℕ) : Except Fault Unit :=
  if u32 (offset + sz) > subj.length then raise "data does not fit" else .ok ()

/-- `array.set` of the next result. -/
def UnpackState.push (st : UnpackState) (v : PackVal) : Except Fault UnpackState := do
  let out ← orTrap (setAt st.out st.outIdx v)
  pure { st with out, outIdx := st.outIdx + 1 }

/-- A turn of the loop of `$builtin_string_unpack`. -/
def unpackStep (bytes subj : List UInt8) (st : UnpackState) : Except Fault UnpackState := do
  let c ← orTrap bytes[st.ppos]?
  let ppos := st.ppos + 1
  if c = chr ' ' then pure { st with ppos }
  else if c = chr '<' then pure { st with ppos, le := true }
  else if c = chr '>' then pure { st with ppos, le := false }
  else if c = chr '=' then pure { st with ppos, le := true }
  else if c = chr '!' then do
    let (n, ppos) := packNSuffix bytes ppos 8
    let maxAlign ← packLimits n
    pure { st with ppos, maxAlign }
  else if c = chr 'x' then pure { st with ppos, offset := u32 (st.offset + 1) }
  else if c = chr 'X' then do
    let (sz, ppos) ← alignOpt bytes ppos
    let offset ← packAlign st.offset sz st.maxAlign
    pure { st with ppos, offset }
  else if c = chr 'z' then do
    let sz ← zeroFrom subj (subj.length + 1) st.offset 0
    let x ← takeBytes subj st.offset sz
    { st with ppos, offset := u32 (u32 (st.offset + sz) + 1) : UnpackState }.push (.str x)
  else if c = chr 's' then do
    let (n, ppos) := packNSuffix bytes ppos 8
    let n ← packLimits n
    let offset ← packAlign st.offset n st.maxAlign
    checkRoom subj offset n
    let val ← orTrap (packReadInt subj offset n st.le)
    let offset := u32 (offset + n)
    let sz := u32 val.toNat
    checkRoom subj offset sz
    let x ← takeBytes subj offset sz
    { st with ppos, offset := u32 (offset + sz) : UnpackState }.push (.str x)
  else if c = chr 'c' then do
    let (sz, ppos) ← packOptSize c bytes ppos
    checkRoom subj st.offset sz
    let x ← takeBytes subj st.offset sz
    { st with ppos, offset := u32 (st.offset + sz) : UnpackState }.push (.str x)
  else if c = chr 'f' ∨ c = chr 'd' ∨ c = chr 'n' then do
    let sz := if c = chr 'f' then 4 else 8
    let offset ← packAlign st.offset sz st.maxAlign
    checkRoom subj offset sz
    let val ← orTrap (packReadInt subj offset sz st.le)
    let f := if sz = 4 then F64.promote (val.setWidth 32) else ⟨val⟩
    { st with ppos, offset := u32 (offset + sz) : UnpackState }.push (.float f)
  else do
    let (sz, ppos) ← packOptSize c bytes ppos
    let offset ← packAlign st.offset sz st.maxAlign
    checkRoom subj offset sz
    let val ← orTrap (packReadInt subj offset sz st.le)
    packCheckFit subj offset sz st.le (packOptIsSigned c) val
    let val := if packOptIsSigned c then packSignext val sz else val
    { st with ppos, offset := u32 (offset + sz) : UnpackState }.push (.int (Int64.ofBitVec val))

/-- The registers of `string.unpack` at the start. The position is optional. -/
def UnpackState.start (bytes : List UInt8) (pos : Option Int64) : UnpackState :=
  { Walk.start with
    offset := match pos with
      | none => 0
      | some pos => u32 (u32 pos.toUInt64.toNat + (2^32 - 1))
    out := List.replicate (packCountValues bytes + 1) .nil
    outIdx := 0 }

/-- The values, and the position after the last byte. -/
def UnpackState.finish (st : UnpackState) : Except Fault (List PackVal) := do
  let st' ← st.push (.int (Int64.ofInt (s32 (u32 (st.offset + 1)))))
  pure st'.out

/-- `string.unpack`. -/
def unpack (bytes subj : List UInt8) (pos : Option Int64) : Except Fault (List PackVal) := do
  let st ← walk (fun st => st.ppos) (unpackStep bytes subj) bytes.length (bytes.length + 1)
    (UnpackState.start bytes pos)
  st.finish

example : (pack (fun _ => none) [60, 105, 50] [.int (-2)]) = .ok [254, 255] := by rfl

end Lua2wasm.Pack
