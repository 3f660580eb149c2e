import Lua2wasm.Format.HostCorrect

/-!
# Formatted output without a C library

`src/freestanding/fmt.c`, as far as doubles go: `vsnprintf` with its directives, the sink that counts past its end,
and the rendering of a double in a scratch buffer from the digits that `dtoa` finds. Conversions of integers, characters
and strings are left out, and a format that has one of them is none here.

A write outside of a buffer is none, and so is what is undefined in C: an argument of the wrong kind, and a width or a
precision that is no `int`.
-/

namespace Lua2wasm.Freestanding

open Format (Flags)

/-- `dtoa`, of a double that is not negative: its digits and the position of the point among them, for a mode and a
number of digits. -/
abbrev Dtoa := F64 → ℕ → ℤ → List Char × ℤ

/-! ## The sink -/

/-- `struct out`: the buffer, the room in it without the final NUL, and the characters so far, with those that had no
room. -/
structure Out where
  buf : List Char
  cap : ℕ
  n : ℕ

/-- `put`. -/
def put (o : Out) (c : Char) : Option Out :=
  if o.n < o.cap then
    if o.n < o.buf.length then some { o with buf := o.buf.set o.n c, n := o.n + 1 } else none
  else some { o with n := o.n + 1 }

/-- `put_mem`. -/
def putMem (o : Out) (s : List Char) : Option Out := s.foldlM put o

/-- `put_pad`. -/
def putPad (o : Out) (c : Char) : ℕ → Option Out
  | 0 => some o
  | count + 1 => do
    let o ← put o c
    putPad o c count

/-- `emit_field`. -/
def emitField (o : Out) (pfx body : List Char) (width : ℕ) (flags : Flags) : Option Out :=
  let total := pfx.length + body.length
  let pad := if total < width then width - total else 0
  if flags.left then do
    let o ← putMem o pfx
    let o ← putMem o body
    putPad o ' ' pad
  else if flags.zero then do
    let o ← putMem o pfx
    let o ← putPad o '0' pad
    putMem o body
  else do
    let o ← putPad o ' ' pad
    let o ← putMem o pfx
    putMem o body

/-! ## The scratch buffer -/

/-- `*t++ = c`, in the scratch buffer of `fmt_float`. -/
def push (t : List Char) (c : Char) : Option (List Char) := if t.length < 1100 then some (t ++ [c]) else none

/-- A loop of `*t++ = c`. -/
def pushAll (t s : List Char) : Option (List Char) := s.foldlM push t

/-- The loop of `strip_frac_zeros` from an end on. -/
def stripEnd (s : List Char) (dot : ℕ) : ℕ → ℕ
  | 0 => 0
  | e + 1 => if dot + 1 < e + 1 ∧ s[e]? = some '0' then stripEnd s dot e else e + 1

/-- `strip_frac_zeros`. -/
def stripFracZeros (s : List Char) : List Char :=
  match s.idxOf? '.' with
  | none => s
  | some dot =>
    let e := stripEnd s dot s.length
    s.take (if e = dot + 1 then e - 1 else e)

/-- The loop of `u_to_str`, in the room before the digits. -/
def uDigits (base : ℕ) (upper : Bool) : ℕ → ℕ → List Char → Option (List Char)
  | _, 0, p => some p
  | 0, _ + 1, _ => none
  | room + 1, v + 1, p =>
    let digit := Nat.digitChar ((v + 1) % base)
    uDigits base upper room ((v + 1) / base) ((if upper then digit.toUpper else digit) :: p)

/-- `u_to_str`, in a buffer of so many bytes, of which the last one is the NUL. -/
def uToStr (v base : ℕ) (upper : Bool) (size : ℕ) : Option (List Char) :=
  if v = 0 then if 2 ≤ size then some ['0'] else none
  else if size = 0 then none
  else uDigits base upper (size - 1) v []

/-! ## Doubles -/

/-- The end of `render_float` for the style of `%e`. -/
def renderE (ds : List Char) (decpt prec : ℤ) (lower alt strip : Bool) : Option (List Char) := do
  let exp := if ds = [] then 0 else decpt - 1
  let t ← push [] (ds.headD '0')
  let t ← (if 0 < prec || alt then push t '.' else some t)
  let t ← pushAll t ((List.range prec.toNat).map fun i => ds.getD (i + 1) '0')
  let t := if strip then stripFracZeros t else t
  let t ← push t (if lower then 'e' else 'E')
  let t ← push t (if exp < 0 then '-' else '+')
  let ep ← uToStr exp.natAbs 10 false 8
  let t ← (if ep.length < 2 then push t '0' else some t)
  pushAll t ep

/-- The end of `render_float` for the style of `%f`. -/
def renderF (ds : List Char) (decpt prec : ℤ) (alt strip : Bool) : Option (List Char) := do
  let t ← (if decpt ≤ 0 then push [] '0' else pushAll [] ((List.range decpt.toNat).map fun i => ds.getD i '0'))
  let t ← (if 0 < prec || alt then push t '.' else some t)
  let t ← pushAll t ((List.range prec.toNat).map fun i : ℕ =>
    if 0 ≤ decpt + i then ds.getD (decpt + i).toNat '0' else '0')
  some (if strip then stripFracZeros t else t)

/-- The number of significant digits of `%g`. -/
def gDigits (prec : ℤ) : ℤ := if prec ≤ 0 then (if prec = 0 then 1 else 6) else prec

/-- `render_float`. -/
def renderFloat (dtoa : Dtoa) (mag : F64) (conv : Char) (prec : ℤ) (flags : Flags) : Option (List Char) :=
  let lower := decide ('a' ≤ conv)
  let c := if lower then conv else Char.ofNat (conv.toNat + 32)
  if c = 'g' then
    let p := gDigits prec
    let (ds, decpt) := dtoa mag 2 p
    let x := decpt - 1
    -- the exponent after rounding decides the style
    if x < -4 ∨ p ≤ x then renderE ds decpt (p - 1) lower flags.alt !flags.alt
    else renderF ds decpt (p - 1 - x) flags.alt !flags.alt
  else
    let prec := if prec < 0 then 6 else prec
    if c = 'e' then
      let (ds, decpt) := dtoa mag 2 (prec + 1)
      renderE ds decpt prec lower flags.alt false
    else
      let (ds, decpt) := dtoa mag 3 prec
      renderF ds decpt prec flags.alt false

/-- The double without its sign. -/
def magnitudeOf (v : F64) : F64 := ⟨v.bits &&& 0x7fffffffffffffff⟩

/-- `fmt_float`. -/
def fmtFloat (dtoa : Dtoa) (o : Out) (v : F64) (conv : Char) (prec : ℤ) (flags : Flags) (width : ℕ) : Option Out :=
  let upper := decide (conv < 'a')
  let pfx := if v.negative then ['-'] else if flags.plus then ['+'] else if flags.space then [' '] else []
  if v.expField = 2047 then
    let body := if v.isNaN then (if upper then ['N', 'A', 'N'] else ['n', 'a', 'n'])
      else if upper then ['I', 'N', 'F'] else ['i', 'n', 'f']
    emitField o pfx body width { flags with zero := false }
  else do
    let tmp ← renderFloat dtoa (magnitudeOf v) conv prec flags
    emitField o pfx tmp width flags

/-! ## Directives -/

/-- An argument behind the format. -/
inductive VaArg where
  | int (v : Int32)
  | double (v : F64)

/-- What a character is as a flag. -/
def flagOf (c : Char) : Option (Flags → Flags) :=
  if c = '-' then some fun fl => { fl with left := true }
  else if c = '+' then some fun fl => { fl with plus := true }
  else if c = ' ' then some fun fl => { fl with space := true }
  else if c = '#' then some fun fl => { fl with alt := true }
  else if c = '0' then some fun fl => { fl with zero := true }
  else none

/-- The loop over the flags. -/
def readFlags : List Char → Flags → Flags × List Char
  | [], flags => (flags, [])
  | c :: f, flags =>
    match flagOf c with
    | some set => readFlags f (set flags)
    | none => (flags, c :: f)

/-- A loop over digits. The number stays an `int`. -/
def readDigits : List Char → ℕ → Option (ℕ × List Char)
  | [], n => some (n, [])
  | c :: f, n =>
    if '0' ≤ c ∧ c ≤ '9' then
      if n * 10 + (c.toNat - '0'.toNat) < 2^31 then readDigits f (n * 10 + (c.toNat - '0'.toNat)) else none
    else some (n, c :: f)

/-- The width, which can also set a flag. -/
def readWidth (flags : Flags) (f : List Char) (ap : List VaArg) : Option (Flags × ℕ × List Char × List VaArg) :=
  if f.head? = some '*' then
    match ap with
    | .int w :: ap =>
      if w < 0 then
        if w = Int32.minValue then none else some ({ flags with left := true }, (-w).toInt.toNat, f.tail, ap)
      else some (flags, w.toInt.toNat, f.tail, ap)
    | _ => none
  else do
    let (width, f) ← readDigits f 0
    some (flags, width, f, ap)

/-- The precision, which is -1 if there is none or a negative one. -/
def readPrec (f : List Char) (ap : List VaArg) : Option (ℤ × List Char × List VaArg) :=
  if f.head? = some '.' then
    if f.tail.head? = some '*' then
      match ap with
      | .int p :: ap => some (if p < 0 then -1 else p.toInt, f.tail.tail, ap)
      | _ => none
    else do
      let (prec, f) ← readDigits f.tail 0
      some (prec, f, ap)
  else some (-1, f, ap)

/-- The length modifiers, which doubles do not look at. -/
def skipLength : List Char → List Char
  | 'h' :: 'h' :: f => f
  | 'l' :: 'l' :: f => f
  | c :: f => if c ∈ ['h', 'l', 'j', 'z', 't', 'L'] then f else c :: f
  | [] => []

/-- The conversion, and what is left of the format and of the arguments. -/
def convert (dtoa : Dtoa) (o : Out) (flags : Flags) (width : ℕ) (prec : ℤ) (f : List Char) (ap : List VaArg) :
    Option (Out × List Char × List VaArg) :=
  match f with
  | [] => some (o, [], ap)
  | conv :: f =>
    if conv = '%' then do
      let o ← put o '%'
      some (o, f, ap)
    else if conv ∈ ['e', 'E', 'f', 'F', 'g', 'G'] then
      match ap with
      | .double v :: ap => do
        let o ← fmtFloat dtoa o v conv prec flags width
        some (o, f, ap)
      | _ => none
    else if conv ∈ ['c', 's', 'd', 'i', 'u', 'o', 'x', 'X', 'p'] then none
    else do
      let o ← put o '%'
      let o ← put o conv
      some (o, f, ap)

/-- A directive, from after its `%`. -/
def directive (dtoa : Dtoa) (o : Out) (f : List Char) (ap : List VaArg) : Option (Out × List Char × List VaArg) := do
  let (flags, f) := readFlags f ⟨false, false, false, false, false⟩
  let (flags, width, f, ap) ← readWidth flags f ap
  let (prec, f, ap) ← readPrec f ap
  convert dtoa o flags width prec (skipLength f) ap

/-- The loop of `l2w_vsnprintf`, with a bound on its turns. -/
def formatLoop (dtoa : Dtoa) : ℕ → Out → List Char → List VaArg → Option Out
  | _, o, [], _ => some o
  | 0, _, _ :: _, _ => none
  | turns + 1, o, c :: f, ap =>
    if c = '%' then do
      let (o, f, ap) ← directive dtoa o f ap
      formatLoop dtoa turns o f ap
    else do
      let o ← put o c
      formatLoop dtoa turns o f ap

/-- `l2w_vsnprintf`: the buffer and the result. -/
def vsnprintf (dtoa : Dtoa) (buf : List Char) (cap : ℕ) (fmt : List Char) (ap : List VaArg) :
    Option (List Char × Int32) := do
  let o ← formatLoop dtoa fmt.length ⟨buf, cap - 1, 0⟩ fmt ap
  let term := if o.n < o.cap then o.n else o.cap
  if cap = 0 then some (o.buf, Int32.ofNat o.n)
  else if term < o.buf.length then some (o.buf.set term '\x00', Int32.ofNat o.n)
  else none

end Lua2wasm.Freestanding
