import Lua2wasm.Io.Numeral

/-!
# A file handle

`parseFileMode` and `BufferedFile` of `runtime/host-bindings.mjs`, the file operations of
`runtime/host.mjs` on them, and the methods of a file handle over those (`runtime/prelude/io.wat`):
`file:read`, `file:write`, `file:seek`, `file:flush` and `file:close`, for one handle and the file at
its path.

The file is read as a whole when the handle is opened, and written as a whole when a handle that may
write is flushed or closed and has been written to since. Everything that a read gives passes through
`$fmt_buf`, which takes 16384 bytes. The host's file operations succeed, but for opening a file that is
not there; so does an allocation of fewer than `2^53` bytes, the most that the language allows.
-/

namespace Lua2wasm.Io

/-! ## Modes -/

/-- The capability flags of a mode. -/
structure FileMode where
  /-- The handle may read. -/
  read : Bool
  /-- The handle may write. -/
  write : Bool
  /-- Writes go to the end. -/
  append : Bool
  /-- The contents of the file are loaded. -/
  needExisting : Bool
  /-- The file must be there. -/
  mustExist : Bool
  deriving DecidableEq, Repr

/-- `replace(/b$/, "")`. -/
def dropBinary (s : List Char) : List Char := if s.getLast? = some 'b' then s.dropLast else s

/-- `parseFileMode`. -/
def parseFileMode (mode : List Char) : Option FileMode :=
  let s := dropBinary (if mode = [] then ['r'] else mode)
  let plus := s.contains '+'
  match s.head? with
  | some 'r' =>
    some { read := true, write := plus, append := false, needExisting := true, mustExist := true }
  | some 'w' =>
    some { read := plus, write := true, append := false, needExisting := false, mustExist := false }
  | some 'a' =>
    some { read := plus, write := true, append := true, needExisting := true, mustExist := false }
  | _ => none

/-! ## The buffer -/

/-- `FMT_BUF_CAP`. -/
def fmtBufCap : ℕ := 16384

/-- The bytes that get through `$fmt_buf`. -/
def fmtBuf (s : Bytes) : Bytes := s.take fmtBufCap

/-- The double nearest to a natural number, with ties to even. -/
def roundDouble (n : ℕ) : ℕ :=
  if n < 2^53 then n
  else
    let e := Nat.log2 n - 52
    let q := n / 2^e
    let r := n % 2^e
    (if 2^(e - 1) < r ∨ (r = 2^(e - 1) ∧ q % 2 = 1) then q + 1 else q) * 2^e

/-- `Number` of an integer. -/
def jsNumber (n : ℤ) : ℤ := n.sign * roundDouble n.natAbs

/-- `BufferedFile`. -/
structure BufferedFile where
  /-- The bytes. -/
  buf : Bytes
  /-- Writes go to the end. -/
  append : Bool
  /-- The cursor. -/
  pos : ℕ
  /-- There was a write since the last flush. -/
  dirty : Bool
  deriving DecidableEq, Repr

/-- The constructor of `BufferedFile`. -/
def BufferedFile.ofBytes (bytes : Bytes) (append : Bool) : BufferedFile where
  buf := bytes
  append := append
  pos := if append then bytes.length else 0
  dirty := false

/-- `BufferedFile.read`, mode 2. -/
def BufferedFile.readChunk (f : BufferedFile) : Bytes × BufferedFile :=
  if f.buf.length ≤ f.pos then ([], f)
  else
    let stop := min (f.pos + fmtBufCap) f.buf.length
    ((f.buf.drop f.pos).take (stop - f.pos), { f with pos := stop })

/-- `BufferedFile.read`, mode 3. -/
def BufferedFile.readCount (f : BufferedFile) (count : ℕ) : Option Bytes × BufferedFile :=
  if f.buf.length ≤ f.pos then (none, f)
  else
    let stop := min (f.pos + count) f.buf.length
    (some ((f.buf.drop f.pos).take (stop - f.pos)), { f with pos := stop })

/-- The loop of `BufferedFile.read` that looks for the end of the line. -/
def lineEnd (s : Bytes) : ℕ := (s.takeWhile (· ≠ 10)).length

/-- `BufferedFile.read`, modes 0 and 1. -/
def BufferedFile.readLine (f : BufferedFile) (keep : Bool) : Option Bytes × BufferedFile :=
  if f.buf.length ≤ f.pos then (none, f)
  else
    let stop := f.pos + lineEnd (f.buf.drop f.pos)
    let more := if stop < f.buf.length then 1 else 0
    (some ((f.buf.drop f.pos).take (stop + (if keep then more else 0) - f.pos)), { f with pos := stop + more })

/-- `BufferedFile.readNumStr`. -/
def BufferedFile.readNumStr (f : BufferedFile) : Option Bytes × BufferedFile :=
  let pos := f.pos + runLen isSpace (f.buf.drop f.pos)
  let tail := f.buf.drop pos
  match luaNumRe tail with
  | none => (none, { f with pos })
  | some n => (some (tail.take n), { f with pos := pos + n })

/-- `BufferedFile.write`. There is no result if the array would be too large, which raises an error of
JavaScript. -/
def BufferedFile.write (f : BufferedFile) (bytes : Bytes) : Option BufferedFile :=
  let pos := if f.append then f.buf.length else f.pos
  let stop := pos + bytes.length
  if f.buf.length < stop ∧ 2^53 ≤ stop then none
  else
    let buf := f.buf ++ List.replicate (stop - f.buf.length) 0
    some { f with buf := buf.take pos ++ bytes ++ buf.drop stop, pos := stop, dirty := true }

/-- Where `file:seek` starts from. -/
inductive Whence
  /-- The start of the file. -/
  | set
  /-- The cursor. -/
  | cur
  /-- The end of the file. -/
  | fin
  deriving DecidableEq, Repr

/-- The position that an offset is relative to. -/
def BufferedFile.base (f : BufferedFile) : Whence → ℕ
  | .set => 0
  | .cur => f.pos
  | .fin => f.buf.length

/-- `BufferedFile.seek`, of an offset that is a number of JavaScript. -/
def BufferedFile.seek (f : BufferedFile) (whence : Whence) (offset : ℤ) : BufferedFile :=
  { f with pos := (jsNumber (f.base whence + offset)).toNat }

/-! ## The host -/

/-- An entry of `openFiles`, and the file at its path, which may be absent. -/
structure Handle where
  /-- The file at the path. -/
  disk : Option Bytes
  /-- The entry. There is none once the handle is closed. -/
  entry : Option (BufferedFile × Bool)
  deriving DecidableEq, Repr

/-- The message of a failed `fsOpen`, which passes through `$fmt_buf` (`fmtBufErr`). -/
def openError (path : List Char) (msg : String) : List Char := (path ++ msg.toList).take fmtBufCap

/-- `fsOpen`. -/
def fsOpen (path mode : List Char) (disk : Option Bytes) : Except (List Char) Handle :=
  match parseFileMode mode with
  | none => .error (openError path ": invalid mode")
  | some m =>
    if m.needExisting then
      match disk with
      | some bytes => .ok { disk, entry := some (BufferedFile.ofBytes bytes m.append, m.write) }
      | none =>
        if m.mustExist then .error (openError path ": No such file or directory")
        else .ok { disk, entry := some (BufferedFile.ofBytes [] m.append, m.write) }
    else .ok { disk, entry := some (BufferedFile.ofBytes [] m.append, m.write) }

/-- `fsFlush`, on an entry. -/
def fsFlush (disk : Option Bytes) (f : BufferedFile) (writable : Bool) : Option Bytes × BufferedFile :=
  if writable ∧ f.dirty then (some f.buf, { f with dirty := false }) else (disk, f)

/-- `fsRead`, modes 0 and 1: what is in `$fmt_buf` afterwards. -/
def fsReadLine (f : BufferedFile) (keep : Bool) : Option Bytes × BufferedFile :=
  let (s, f) := f.readLine keep
  (s.map fmtBuf, f)

/-! ## Methods -/

/-- A format of `file:read`. -/
inductive Format
  /-- `"l"`: a line without its end. -/
  | line
  /-- `"L"`: a line with its end. -/
  | lineEnd
  /-- `"a"`: all that is left. -/
  | all
  /-- `"n"`: a number. -/
  | num
  /-- A number of bytes. -/
  | count (n : Int64)
  deriving DecidableEq, Repr

/-- What a format gives. The type `V` is that of the numbers. -/
inductive ReadVal (V : Type)
  /-- Nothing. -/
  | nil
  /-- A string. -/
  | str (s : Bytes)
  /-- A number. -/
  | num (v : V)
  deriving DecidableEq, Repr

/-- A string, or nothing. -/
def ReadVal.ofOption {V : Type} : Option Bytes → ReadVal V
  | none => .nil
  | some s => .str s

/-- The loop of `$read_all_str`. Every chunk but the last is a full buffer. -/
def readAllFrom : ℕ → Bytes → BufferedFile → Bytes × BufferedFile
  | 0, acc, f => (acc, f)
  | fuel + 1, acc, f =>
    let (s, f) := f.readChunk
    let s := fmtBuf s
    if s = [] then (acc, f)
    else if s.length < fmtBufCap then (acc ++ s, f)
    else readAllFrom fuel (acc ++ s) f

/-- `$read_all_str`. -/
def readAllStr (f : BufferedFile) : Bytes × BufferedFile := readAllFrom (f.buf.length + 1) [] f

/-- The loop of `$read_n_str`, when `got` of `count` bytes are read. -/
def readNFrom : ℕ → ℕ → ℕ → Bytes → BufferedFile → Option Bytes × BufferedFile
  | 0, _, _, acc, f => (some acc, f)
  | fuel + 1, got, count, acc, f =>
    if count ≤ got then (some acc, f)
    else
      let chunk := min (count - got) fmtBufCap
      match f.readCount chunk with
      | (none, f) => (if got = 0 ∧ 0 < count then none else some acc, f)
      | (some s, f) =>
        let s := fmtBuf s
        if s.length < chunk then (some (acc ++ s), f)
        else readNFrom fuel (got + s.length) count (acc ++ s) f

/-- `$read_n_str`. -/
def readNStr (f : BufferedFile) (count : ℕ) : Option Bytes × BufferedFile := readNFrom (count + 1) 0 count [] f

/-- `i32.wrap_i64`, as a signed number. -/
def wrapI32 (n : Int64) : ℤ := n.toInt32.toInt

section

variable {V : Type} (parse : Bytes → V)

/-- One format of `$io_read_impl`, where `parse` is `parseNumberFromString`. A negative count raises
an error. -/
def readFormat (f : BufferedFile) : Format → Option (ReadVal V × BufferedFile)
  | .line =>
    let (s, f) := fsReadLine f false
    some (.ofOption s, f)
  | .lineEnd =>
    let (s, f) := fsReadLine f true
    some (.ofOption s, f)
  | .all =>
    let (s, f) := readAllStr f
    some (.str s, f)
  | .num =>
    match f.readNumStr with
    | (none, f) => some (.nil, f)
    | (some s, f) => some (.num (parse s), f)
  | .count n =>
    if wrapI32 n < 0 then none
    else
      let (s, f) := readNStr f (wrapI32 n).toNat
      some (.ofOption s, f)

/-- The loop of `$io_read_impl` over the formats. There are no values if a format raises an error. -/
def readFormats : List Format → BufferedFile → Option (List (ReadVal V)) × BufferedFile
  | [], f => (some [], f)
  | fmt :: fmts, f =>
    match readFormat parse f fmt with
    | none => (none, f)
    | some (v, f) =>
      let (vs, f) := readFormats fmts f
      (vs.map (v :: ·), f)

end

/-- What a method gives. -/
inductive Ret (V : Type)
  /-- The values of `file:read`. -/
  | values (vs : List (ReadVal V))
  /-- The handle itself, from `file:write` and `file:flush`. -/
  | file
  /-- A position, from `file:seek`. -/
  | pos (p : Int64)
  /-- `true`, from `file:close`. -/
  | done
  /-- Nil and a message. -/
  | fail (msg : List Char)
  /-- A Lua error. -/
  | raised (msg : List Char)
  /-- An error of JavaScript, which ends the program. -/
  | crash
  deriving DecidableEq, Repr

/-- A call of a method of the handle. The arguments of `file:write` are already strings. -/
inductive Op
  /-- `file:read(...)`. -/
  | read (fmts : List Format)
  /-- `file:write(...)`. -/
  | write (args : List Bytes)
  /-- `file:seek(whence, offset)`. -/
  | seek (whence : Whence) (offset : Int64)
  /-- `file:flush()`. -/
  | flush
  /-- `file:close()`. -/
  | close
  deriving DecidableEq, Repr

/-- The formats of a read: one line if there are none. -/
def formatsOf (fmts : List Format) : List Format := if fmts = [] then [.line] else fmts

/-- A call of a method of an open handle. -/
def callOpen {V : Type} (parse : Bytes → V) (disk : Option Bytes) (f : BufferedFile) (writable : Bool) :
    Op → Ret V × Handle
  | .read fmts =>
    match readFormats parse (formatsOf fmts) f with
    | (none, f) => (.raised "invalid format".toList, { disk, entry := some (f, writable) })
    | (some vs, f) => (.values vs, { disk, entry := some (f, writable) })
  | .write args =>
    if args = [] then (.file, { disk, entry := some (f, writable) })
    else
      match f.write args.flatten with
      | none => (.crash, { disk, entry := some (f, writable) })
      | some f => (.file, { disk, entry := some (f, writable) })
  | .seek whence offset =>
    let f := f.seek whence (jsNumber offset.toInt)
    let r := Int64.ofInt f.pos
    (if r.toInt < 0 then .fail "seek error ".toList else .pos r, { disk, entry := some (f, writable) })
  | .flush =>
    let (disk, f) := fsFlush disk f writable
    (.file, { disk, entry := some (f, writable) })
  | .close =>
    let (disk, _) := fsFlush disk f writable
    (.done, { disk, entry := none })

/-- A call of a method of the handle. -/
def call {V : Type} (parse : Bytes → V) (h : Handle) (op : Op) : Ret V × Handle :=
  match h.entry with
  | none => (.raised "attempt to use a closed file".toList, h)
  | some (f, writable) => callOpen parse h.disk f writable op

/-- The calls, one after the other. -/
def calls {V : Type} (parse : Bytes → V) : List Op → Handle → List (Ret V) × Handle
  | [], h => ([], h)
  | op :: ops, h =>
    let (r, h) := call parse h op
    let (rs, h) := calls parse ops h
    (r :: rs, h)

end Lua2wasm.Io
