import Lua2wasm.Io.File

/-!
# A file with a position

What a file handle is for: a file is a string of bytes, and an open file has a position in it as well.
Opening with `w` or `w+` makes it empty, opening with `a` or `a+` creates it, and each write is seen in
the file at once. A handle that may not read or write rejects it.

The texts of messages are left out, and the numeral at the start of some bytes is a parameter.
-/

namespace Lua2wasm.Io

/-- What a handle may do, by the mode it was opened with. -/
structure Access where
  /-- The first letter of the mode. -/
  base : Char
  /-- The mode has a `+`. -/
  plus : Bool

/-- The handle may read. -/
def Access.canRead (a : Access) : Prop := a.base = 'r' ∨ a.plus = true

/-- The handle may write. -/
def Access.canWrite (a : Access) : Prop := a.base ≠ 'r' ∨ a.plus = true

/-- Writes go to the end. -/
def Access.appends (a : Access) : Prop := a.base = 'a'

instance (a : Access) : Decidable a.canRead := inferInstanceAs (Decidable (_ ∨ _))
instance (a : Access) : Decidable a.canWrite := inferInstanceAs (Decidable (_ ∨ _))
instance (a : Access) : Decidable a.appends := inferInstanceAs (Decidable (_ = _))

/-- The access that a mode gives. A `b` at the end does not matter, and no mode is `r`. -/
def accessOf (mode : List Char) : Option Access :=
  match dropBinary mode with
  | [] => if mode = [] then some ⟨'r', false⟩ else none
  | c :: s => if c = 'r' ∨ c = 'w' ∨ c = 'a' then some ⟨c, (c :: s).contains '+'⟩ else none

/-- The bytes after `x` was written over `b` at `pos`. A gap is filled with zeros. -/
def overlay (b : Bytes) (pos : ℕ) (x : Bytes) : Bytes :=
  (b ++ List.replicate (pos - b.length) 0).take pos ++ x ++ b.drop (pos + x.length)

/-- An open file. -/
structure AbsFile where
  /-- What the handle may do. -/
  access : Access
  /-- The bytes of the file. -/
  bytes : Bytes
  /-- The position. -/
  pos : ℕ

/-- The bytes from the position on. -/
def AbsFile.rest (f : AbsFile) : Bytes := f.bytes.drop f.pos

/-- Opening a file. It fails if the mode is none, or if there is no file to read. -/
def absOpen (mode : List Char) (disk : Option Bytes) : Option AbsFile :=
  match accessOf mode with
  | none => none
  | some a =>
    if a.base = 'w' then some ⟨a, [], 0⟩
    else if a.base = 'a' then some ⟨a, disk.getD [], (disk.getD []).length⟩
    else disk.map fun bytes => ⟨a, bytes, 0⟩

/-- The value of a call, without the texts of messages. -/
inductive AbsRet (V : Type)
  /-- The values of a read. -/
  | values (vs : List (ReadVal V))
  /-- The handle. -/
  | file
  /-- A position. -/
  | pos (p : ℕ)
  /-- `true`. -/
  | done
  /-- A failure. -/
  | fail
  /-- A Lua error. -/
  | raised

section

variable {V : Type} (numeral : Bytes → Option ℕ) (parse : Bytes → V)

/-- Reading one format. -/
def AbsFile.readFormat (f : AbsFile) : Format → Option (ReadVal V × AbsFile)
  | .line =>
    if f.rest = [] then some (.nil, f)
    else some (.str (f.rest.takeWhile (· ≠ 10)), { f with pos := f.pos + min (lineEnd f.rest + 1) f.rest.length })
  | .lineEnd =>
    if f.rest = [] then some (.nil, f)
    else some (.str (f.rest.take (lineEnd f.rest + 1)),
      { f with pos := f.pos + min (lineEnd f.rest + 1) f.rest.length })
  | .all => some (.str f.rest, { f with pos := f.pos + f.rest.length })
  | .num =>
    let f := { f with pos := f.pos + runLen isSpace f.rest }
    match numeral f.rest with
    | none => some (.nil, f)
    | some n => some (.num (parse (f.rest.take n)), { f with pos := f.pos + n })
  | .count n =>
    if n.toInt < 0 then none
    else if n.toInt = 0 then some (.str [], f)
    else if f.rest = [] then some (.nil, f)
    else some (.str (f.rest.take n.toInt.toNat), { f with pos := f.pos + min n.toInt.toNat f.rest.length })

/-- Reading some formats, one after the other. -/
def AbsFile.readFormats : List Format → AbsFile → Option (List (ReadVal V)) × AbsFile
  | [], f => (some [], f)
  | fmt :: fmts, f =>
    match f.readFormat numeral parse fmt with
    | none => (none, f)
    | some (v, f) =>
      let (vs, f) := AbsFile.readFormats fmts f
      (vs.map (v :: ·), f)

/-- Writing. -/
def AbsFile.write (f : AbsFile) (x : Bytes) : AbsFile :=
  let pos := if f.access.appends then f.bytes.length else f.pos
  { f with bytes := overlay f.bytes pos x, pos := pos + x.length }

/-- Where an offset is relative to. -/
def AbsFile.base (f : AbsFile) : Whence → ℕ
  | .set => 0
  | .cur => f.pos
  | .fin => f.bytes.length

/-- Seeking. A position before the start is the start. -/
def AbsFile.seek (f : AbsFile) (whence : Whence) (offset : ℤ) : AbsFile :=
  { f with pos := ((f.base whence : ℤ) + offset).toNat }

/-- A file, which may be open. -/
inductive AbsState
  /-- It is open. -/
  | opened (f : AbsFile)
  /-- It was closed, with these bytes. -/
  | closed (bytes : Bytes)

/-- A call on an open file. -/
def AbsFile.call (f : AbsFile) : Op → AbsRet V × AbsState
  | .read fmts =>
    if f.access.canRead then
      match f.readFormats numeral parse (formatsOf fmts) with
      | (none, f) => (.raised, .opened f)
      | (some vs, f) => (.values vs, .opened f)
    else (.fail, .opened f)
  | .write args =>
    if args = [] then (.file, .opened f)
    else if f.access.canWrite then (.file, .opened (f.write args.flatten))
    else (.fail, .opened f)
  | .seek whence offset =>
    let f := f.seek whence offset.toInt
    (.pos f.pos, .opened f)
  | .flush => (.file, .opened f)
  | .close => (.done, .closed f.bytes)

/-- A call. -/
def AbsState.call : AbsState → Op → AbsRet V × AbsState
  | .opened f, op => f.call numeral parse op
  | .closed bytes, _ => (.raised, .closed bytes)

/-- The calls, one after the other. -/
def AbsState.calls : List Op → AbsState → List (AbsRet V) × AbsState
  | [], s => ([], s)
  | op :: ops, s =>
    let (r, s) := s.call numeral parse op
    let (rs, s) := AbsState.calls ops s
    (r :: rs, s)

end

end Lua2wasm.Io
