import Lua2wasm.Lexer.Escapes
import Lua2wasm.Ast

/-!
# Tokens

`lex` of `src/lexer.c`: blanks and comments, numerals, names and keywords, strings, long brackets and punctuation. A
pointer into the source is the text from there on, as in `ReadString.lean`; the end of the text reads as a zero byte.
`strtod` of the C library is a parameter, and so is the width of an `unsigned long`, which `read_string` computes with.

The tokens that the source has collected when an error ends it are dropped: its callers look at the message only.
-/

namespace Lua2wasm.Lexer

/-- `TokKind`. -/
inductive TokKind
  | eof | error
  | ident | int | float | string
  | lparen | rparen | lbrace | rbrace | lbracket | rbracket
  | comma | semi | colon | dblcolon | dot | concat | ellipsis | assign
  | plus | minus | star | slash | dslash | percent | caret | hash
  | eq | neq | lt | le | gt | ge
  | amp | pipe | tilde | shl | shr
  | kwAnd | kwBreak | kwDo | kwElse | kwElseif | kwEnd | kwFalse | kwFor | kwFunction | kwGoto | kwIf | kwIn | kwLocal
  | kwNil | kwNot | kwOr | kwRepeat | kwReturn | kwThen | kwTrue | kwUntil | kwWhile
  deriving DecidableEq, Repr

/-- `Token`. -/
structure Token where
  kind : TokKind
  /-- The source from the token on. -/
  start : List UInt8
  /-- How many bytes of it are the token. -/
  len : ℕ
  line : ℕ
  iVal : I64 := 0
  fVal : F64 := ⟨0⟩
  /-- The decoded bytes of a string. -/
  str : List UInt8 := []
  deriving DecidableEq, Repr

/-- The bytes of a token. -/
def Token.text (t : Token) : List UInt8 := t.start.take t.len

/-- The string of some bytes, a character each. -/
def latin (bs : List UInt8) : String := String.ofList (bs.map fun b => Char.ofNat b.toNat)

/-- What a parser reads from a token: its kind, with the name or the value of those that have one. -/
inductive Sym
  | name (s : String)
  | int (iVal : I64)
  | float (fVal : F64)
  | str (s : String)
  | tok (kind : TokKind)
  deriving DecidableEq, Repr

/-- The fields of a token that belong to its kind. -/
def Token.sym (t : Token) : Sym :=
  match t.kind with
  | .ident => .name (latin t.text)
  | .int => .int t.iVal
  | .float => .float t.fVal
  | .string => .str (latin t.str)
  | kind => .tok kind

/-- `isalpha`. -/
def isalpha (c : UInt8) : Bool := (65 ≤ c && c ≤ 90) || (97 ≤ c && c ≤ 122)

/-- What a name starts with. -/
def startsName (c : UInt8) : Bool := isalpha c || c = 95

/-- What a name goes on with. -/
def inName (c : UInt8) : Bool := isalpha c || isdigit c || c = 95

/-! ## Names -/

/-- `KEYWORDS`. -/
def keywords : List (List UInt8 × TokKind) :=
  [([100, 111], .kwDo), ([105, 102], .kwIf), ([105, 110], .kwIn), ([111, 114], .kwOr),
   ([97, 110, 100], .kwAnd), ([101, 110, 100], .kwEnd), ([102, 111, 114], .kwFor), ([110, 105, 108], .kwNil),
   ([110, 111, 116], .kwNot), ([101, 108, 115, 101], .kwElse), ([103, 111, 116, 111], .kwGoto),
   ([116, 104, 101, 110], .kwThen), ([116, 114, 117, 101], .kwTrue), ([98, 114, 101, 97, 107], .kwBreak),
   ([102, 97, 108, 115, 101], .kwFalse), ([108, 111, 99, 97, 108], .kwLocal), ([117, 110, 116, 105, 108], .kwUntil),
   ([119, 104, 105, 108, 101], .kwWhile), ([101, 108, 115, 101, 105, 102], .kwElseif),
   ([114, 101, 112, 101, 97, 116], .kwRepeat), ([114, 101, 116, 117, 114, 110], .kwReturn),
   ([102, 117, 110, 99, 116, 105, 111, 110], .kwFunction)]

/-- `keyword_or_ident`, with its two filters. -/
def keywordOrIdent (text : List UInt8) : TokKind :=
  if text.length < 2 ∨ 8 < text.length then .ident
  else
    match keywords.find? fun k => k.1.length = text.length ∧ k.1.headD 0 = text.headD 0 ∧ k.1 = text with
    | some k => k.2
    | none => .ident

/-! ## Numerals -/

/-- The dot of a numeral and the digits behind it, and whether there is one. -/
def skipFraction (digit : UInt8 → Bool) (p : List UInt8) : Bool × List UInt8 :=
  if p.headD 0 = 46 then (true, p.tail.dropWhile digit) else (false, p)

/-- The exponent of a numeral, by the two cases of its letter, and whether there is one. -/
def skipExponent (lower upper : UInt8) (p : List UInt8) : Bool × List UInt8 :=
  if p.headD 0 = lower ∨ p.headD 0 = upper then
    let p := p.tail
    let p := if p.headD 0 = 43 ∨ p.headD 0 = 45 then p.tail else p
    (true, p.dropWhile isdigit)
  else (false, p)

/-- What the scan of a numeral finds: its kind, and the text behind it. -/
structure Scanned where
  isHex : Bool
  isFloat : Bool
  rest : List UInt8

/-- The scan of a numeral that starts with a digit. -/
def scanNumber (p : List UInt8) : Scanned :=
  if p.headD 0 = 48 ∧ (p.getD 1 0 = 120 ∨ p.getD 1 0 = 88) then
    let fraction := skipFraction isxdigit ((p.drop 2).dropWhile isxdigit)
    let exponent := skipExponent 112 80 fraction.2
    ⟨true, fraction.1 || exponent.1, exponent.2⟩
  else
    let fraction := skipFraction isdigit (p.dropWhile isdigit)
    let exponent := skipExponent 101 69 fraction.2
    ⟨false, fraction.1 || exponent.1, exponent.2⟩

/-- The value of hexadecimal digits, of which the lowest 64 bits are kept. -/
def hexInt (hs : List UInt8) : I64 := hs.foldl (fun acc c => (acc <<< 4) ||| BitVec.ofNat 64 (hexVal c)) 0

/-- `strtoll` of decimal digits, and whether it reports `ERANGE`. -/
def strtoll (ds : List UInt8) : I64 × Bool :=
  if decValue ds < 2^63 then (BitVec.ofNat 64 (decValue ds), false) else (BitVec.ofNat 64 (2^63 - 1), true)

section

variable (bits : ℕ) (strtod : List UInt8 → F64)

/-- The token of a numeral that starts with a digit. -/
def numberToken (L : Lex) : Token :=
  let scanned := scanNumber L.p
  let len := L.p.length - scanned.rest.length
  let text := L.p.take len
  if scanned.isHex && !scanned.isFloat then ⟨.int, L.p, len, L.line, hexInt (text.drop 2), ⟨0⟩, []⟩
  else if scanned.isFloat then ⟨.float, L.p, len, L.line, 0, strtod text, []⟩
  else if (strtoll text).2 then ⟨.float, L.p, len, L.line, (strtoll text).1, strtod text, []⟩
  else ⟨.int, L.p, len, L.line, (strtoll text).1, ⟨0⟩, []⟩

/-- The text behind a numeral that starts with a dot. -/
def scanDot (p : List UInt8) : List UInt8 := (skipExponent 101 69 (p.tail.dropWhile isdigit)).2

/-- The token of a numeral that starts with a dot. -/
def dotToken (L : Lex) : Token :=
  let len := L.p.length - (scanDot L.p).length
  ⟨.float, L.p, len, L.line, 0, strtod (L.p.take len), []⟩

/-! ## Long brackets -/

/-- `try_open_long_bracket`: the level, and what follows the bracket and a newline behind it. -/
def tryOpenLongBracket (L : Lex) : Option (ℕ × Lex) :=
  if L.p.headD 0 ≠ 91 then none
  else
    let level := (L.p.tail.takeWhile (· = 61)).length
    let p := L.p.drop (1 + level)
    if p.headD 0 ≠ 91 then none
    else if p.getD 1 0 = 10 then some (level, ⟨p.drop 2, L.line + 1⟩)
    else some (level, ⟨p.tail, L.line⟩)

/-- Whether the bracket that closes a level is next. -/
def closesLong (level : ℕ) (p : List UInt8) : Bool :=
  p.headD 0 = 93 && (p.tail.takeWhile (· = 61)).length = level && p.getD (1 + level) 0 = 93

/-- `read_long_body`: the bytes up to the closing bracket, and what follows it. -/
def readLongBody (level : ℕ) : List UInt8 → ℕ → Option (List UInt8 × Lex)
  | [], _ => none
  | c :: p, line =>
    if c = 0 then none
    else if closesLong level (c :: p) then some ([], ⟨(c :: p).drop (2 + level), line⟩)
    else (readLongBody level p (if c = 10 then line + 1 else line)).map fun r => (c :: r.1, r.2)

/-! ## The rest -/

/-- A comment, at its dashes. -/
def skipComment (L : Lex) : Except LexFault Lex :=
  let L : Lex := { L with p := L.p.drop 2 }
  match tryOpenLongBracket L with
  | some (level, L) =>
    match readLongBody level L.p L.line with
    | some r => .ok r.2
    | none => .error (.error (L.line + (L.p.takeWhile (· ≠ 0)).count 10) "unterminated long comment")
  | none => .ok { L with p := L.p.dropWhile fun c => c ≠ 0 && c ≠ 10 }

/-- The punctuation of one character. -/
def ones : List (UInt8 × TokKind) :=
  [(40, .lparen), (41, .rparen), (123, .lbrace), (125, .rbrace), (91, .lbracket), (93, .rbracket), (44, .comma),
   (59, .semi), (43, .plus), (45, .minus), (42, .star), (37, .percent), (94, .caret), (35, .hash), (38, .amp),
   (124, .pipe), (47, .slash), (58, .colon), (61, .assign), (126, .tilde), (60, .lt), (62, .gt), (46, .dot)]

/-- The punctuation of two characters, `//`, `::`, `==`, `~=`, `<=`, `<<`, `>=`, `>>` and `..`. -/
def twos : List ((UInt8 × UInt8) × TokKind) :=
  [((47, 47), .dslash), ((58, 58), .dblcolon), ((61, 61), .eq), ((126, 61), .neq), ((60, 61), .le), ((60, 60), .shl),
   ((62, 61), .ge), ((62, 62), .shr), ((46, 46), .concat)]

/-- The `switch` over the first character, which looks for three dots first, then for two characters. -/
def punctuation (p : List UInt8) : Option (TokKind × ℕ) :=
  if p.headD 0 = 46 ∧ p.getD 1 0 = 46 ∧ p.getD 2 0 = 46 then some (.ellipsis, 3)
  else
    match twos.find? fun x => x.1 = (p.headD 0, p.getD 1 0) with
    | some x => some (x.2, 2)
    | none => (ones.find? fun x => x.1 = p.headD 0).map fun x => (x.2, 1)

/-- Strings in long brackets, and punctuation. -/
def lexPunctuation (L : Lex) : Except LexFault (Option Token × Lex) :=
  match tryOpenLongBracket L with
  | some (level, L') =>
    match readLongBody level L'.p L'.line with
    | some r => .ok (some ⟨.string, L.p, L.p.length - r.2.p.length, L.line, 0, ⟨0⟩, r.1⟩, r.2)
    | none => .error (.error (L'.line + (L'.p.takeWhile (· ≠ 0)).count 10) "unterminated long string")
  | none =>
    match punctuation L.p with
    | some (kind, n) => .ok (some ⟨kind, L.p, n, L.line, 0, ⟨0⟩, []⟩, { L with p := L.p.drop n })
    | none => .error (.error L.line "unexpected character")

/-- One pass of the loop of `lex`: a blank, a comment or a token. -/
def lexStep (L : Lex) : Except LexFault (Option Token × Lex) :=
  let c := L.p.headD 0
  if c = 10 then .ok (none, ⟨L.p.tail, L.line + 1⟩)
  else if isspace c then .ok (none, { L with p := L.p.tail })
  else if c = 45 ∧ L.p.getD 1 0 = 45 then (skipComment L).map fun L => (none, L)
  else if isdigit c then .ok (some (numberToken strtod L), { L with p := (scanNumber L.p).rest })
  else if startsName c then
    let text := L.p.takeWhile inName
    .ok (some ⟨keywordOrIdent text, L.p, text.length, L.line, 0, ⟨0⟩, []⟩, { L with p := L.p.dropWhile inName })
  else if c = 34 ∨ c = 39 then
    (readString bits c L).map fun r =>
      (some ⟨.string, L.p, L.p.length - r.2.p.length, L.line, 0, ⟨0⟩, r.1⟩, r.2)
  else if c = 46 ∧ isdigit (L.p.getD 1 0) then .ok (some (dotToken strtod L), { L with p := scanDot L.p })
  else lexPunctuation L

/-- The loop of `lex`, up to the end of the text. -/
def lexLoop : ℕ → Lex → Except LexFault (List Token)
  | 0, _ => .error .stuck
  | fuel + 1, L =>
    if L.p.headD 0 = 0 then .ok [⟨.eof, L.p, 0, L.line, 0, ⟨0⟩, []⟩]
    else do
      let (t, L) ← lexStep bits strtod L
      let ts ← lexLoop fuel L
      return t.toList ++ ts

/-- The line that starts with `#` is skipped, up to its newline. -/
def skipHash (p : List UInt8) : List UInt8 := if p.headD 0 = 35 then p.dropWhile fun c => c ≠ 0 && c ≠ 10 else p

/-- `lex`. -/
def lex (source : List UInt8) : Except LexFault (List Token) :=
  lexLoop bits strtod (source.length + 1) ⟨skipHash source, 1⟩

end

end Lua2wasm.Lexer
