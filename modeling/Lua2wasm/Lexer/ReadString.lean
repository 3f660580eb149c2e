import Lua2wasm.Utf8.Code

/-!
# Quoted strings

`read_string` of `src/lexer.c`. The text is a list of bytes; behind its end, and at a zero byte, the C string ends.
The decoded bytes go to a buffer that is sized by a scan of the text beforehand; a write behind its end is a fault of
its own here, and so is a loop without an end.
-/

namespace Lua2wasm.Lexer

open Utf8 (leadByte contByte)

/-- What ends lexing. -/
inductive LexFault
  /-- `lex_error`, with the line. -/
  | error (line : ℕ) (msg : String)
  /-- A write behind the buffer. -/
  | overflow
  /-- A loop that does not end. -/
  | stuck
  deriving DecidableEq, Repr

/-- `Lex`: the text from `p` on, and the line. -/
structure Lex where
  p : List UInt8
  line : ℕ
  deriving DecidableEq, Repr

/-- `isdigit`. -/
def isdigit (c : UInt8) : Bool := 48 ≤ c && c ≤ 57

/-- `isxdigit`. -/
def isxdigit (c : UInt8) : Bool := isdigit c || (65 ≤ c && c ≤ 70) || (97 ≤ c && c ≤ 102)

/-- `isspace`. -/
def isspace (c : UInt8) : Bool := (9 ≤ c && c ≤ 13) || c = 32

/-- `hex_val`. -/
def hexVal (c : UInt8) : ℕ := if isdigit c then c.toNat - 48 else (c ||| 32).toNat - 97 + 10

/-- The loop of `\z`: white space is skipped, and its newlines are counted. -/
def skipSpace : List UInt8 → ℕ → List UInt8 × ℕ
  | [], line => ([], line)
  | c :: s, line => if isspace c then skipSpace s (if c = 10 then line + 1 else line) else (c :: s, line)

/-- What the loop over the digits of `\u` has read. -/
structure HexRun where
  cp : ℕ
  seen : Bool
  rest : List UInt8

/-- The loop over the digits of `\u`, with an `unsigned long` of so many bits. There is no result when the value is
too large. -/
def readHex (bits : ℕ) : List UInt8 → ℕ → Bool → Option HexRun
  | [], cp, seen => some ⟨cp, seen, []⟩
  | c :: s, cp, seen =>
    if isxdigit c then
      let cp := (cp <<< 4) % 2^bits ||| hexVal c
      if 0x7FFFFFFF < cp then none else readHex bits s cp true
    else some ⟨cp, seen, c :: s⟩

/-- The loop of `\ddd`, for the digits that are left to it. -/
def readDec : ℕ → List UInt8 → ℕ → ℕ × List UInt8
  | 0, s, v => (v, s)
  | _ + 1, [], v => (v, [])
  | n + 1, c :: s, v => if isdigit c then readDec n s (v * 10 + (c.toNat - 48)) else (v, c :: s)

/-- The bytes that are written for a code point. -/
def encodeUtf8 (cp : UInt32) : List UInt8 :=
  if cp < 0x80 then [cp.toUInt8]
  else if cp < 0x800 then [leadByte 0xC0 cp 6, contByte cp 0]
  else if cp < 0x10000 then [leadByte 0xE0 cp 12, contByte cp 6, contByte cp 0]
  else if cp < 0x200000 then [leadByte 0xF0 cp 18, contByte cp 12, contByte cp 6, contByte cp 0]
  else if cp < 0x4000000 then
    [leadByte 0xF8 cp 24, contByte cp 18, contByte cp 12, contByte cp 6, contByte cp 0]
  else [leadByte 0xFC cp 30, contByte cp 24, contByte cp 18, contByte cp 12, contByte cp 6, contByte cp 0]

/-- The escapes of one letter and what they stand for. -/
def singleEscapes : List (UInt8 × UInt8) :=
  [(110, 10), (116, 9), (114, 13), (92, 92), (34, 34), (39, 39), (97, 7), (98, 8), (102, 12), (118, 11)]

/-- The text about an escape that there is none of. -/
def unknownEscape (bad : UInt8) : String :=
  if 0x20 ≤ bad ∧ bad < 0x7f then "unknown escape sequence '\\" ++ (Char.ofNat bad.toNat).toString ++ "'"
  else "unknown escape sequence '\\x" ++
    String.ofList (Nat.toDigits 16 (bad.toNat / 16) ++ Nat.toDigits 16 (bad.toNat % 16)) ++ "'"

/-- What follows a backslash: the bytes that are written, and the text behind. -/
def readEscape (bits : ℕ) (s : List UInt8) (line : ℕ) : Except LexFault (List UInt8 × Lex) :=
  match s with
  | [] => .error (.error line (unknownEscape 0))
  | e :: s =>
    match singleEscapes.find? fun x => x.1 = e with
    | some x => .ok ([x.2], ⟨s, line⟩)
    | none =>
      if e = 120 then
        -- `\xHH`
        match s with
        | a :: b :: s =>
          if isxdigit a && isxdigit b then .ok ([((hexVal a <<< 4) ||| hexVal b).toUInt8], ⟨s, line⟩)
          else .error (.error line "hexadecimal digit expected after '\\x'")
        | _ => .error (.error line "hexadecimal digit expected after '\\x'")
      else if e = 122 then .ok ([], ⟨(skipSpace s line).1, (skipSpace s line).2⟩)
      else if e = 10 ∨ e = 13 then
        -- a line break of two characters is one
        let s := if (e = 13 ∧ s.head? = some 10) ∨ (e = 10 ∧ s.head? = some 13) then s.tail else s
        .ok ([10], ⟨s, line + 1⟩)
      else if e = 117 then
        if s.head? ≠ some 123 then .error (.error line "'\x7b' expected after '\\u'")
        else match readHex bits s.tail 0 false with
        | none => .error (.error line "UTF-8 value too large in '\\u\x7b...\x7d'")
        | some r =>
          if !r.seen || r.rest.head? ≠ some 125 then .error (.error line "malformed '\\u\x7b...\x7d' escape")
          else .ok (encodeUtf8 r.cp.toUInt32, ⟨r.rest.tail, line⟩)
      else if isdigit e then
        let (v, s) := readDec 3 (e :: s) 0
        if 255 < v then .error (.error line "decimal escape '\\ddd' out of range") else .ok ([v.toUInt8], ⟨s, line⟩)
      else .error (.error line (unknownEscape e))

/-- One pass of the decoding loop. -/
def stringStep (bits : ℕ) (L : Lex) : Except LexFault (List UInt8 × Lex) :=
  match L.p with
  | [] => .ok ([], L)
  | c :: s =>
    if c = 10 then .error (.error L.line "newline in string literal")
    else if c ≠ 92 then .ok ([c], ⟨s, L.line⟩)
    else readEscape bits s L.line

/-- The scan that sizes the buffer. -/
def prescan (q : UInt8) : List UInt8 → ℕ
  | [] => 0
  | [c] => if c = 0 ∨ c = q then 0 else 1
  | c :: d :: s =>
    if c = 0 ∨ c = q then 0
    else if c = 92 ∧ d ≠ 0 then prescan q s + 1
    else prescan q (d :: s) + 1

/-- The decoding loop, with the size of the buffer. -/
def decodeLoop (bits : ℕ) (q : UInt8) (size : ℕ) : ℕ → Lex → List UInt8 → Except LexFault (List UInt8 × Lex)
  | 0, _, _ => .error .stuck
  | fuel + 1, L, buf =>
    if L.p.headD 0 = 0 ∨ L.p.headD 0 = q then .ok (buf, L)
    else match stringStep bits L with
    | .error e => .error e
    | .ok (bytes, L) =>
      if size < buf.length + bytes.length then .error .overflow else decodeLoop bits q size fuel L (buf ++ bytes)

/-- `read_string`, at the opening quote. -/
def readString (bits : ℕ) (q : UInt8) (L : Lex) : Except LexFault (List UInt8 × Lex) := do
  let L : Lex := { L with p := L.p.tail }
  let (buf, L) ← decodeLoop bits q (prescan q L.p + 4) (L.p.length + 1) L []
  if L.p.headD 0 ≠ q then throw (.error L.line "unterminated string")
  return (buf, { L with p := L.p.tail })

end Lua2wasm.Lexer
