import Lua2wasm.Lexer.Spans
import Lua2wasm.Parser.Accepts

/-!
# From the source to the tree

The lexer and the parser one after the other. Every source comes to an end there: the lexer ends its tokens with the
one that the parser relies on.
-/

namespace Lua2wasm.Syntax

open Lexer (Token TokKind Sym LexFault lex)
open Descent (Ended)

section

variable {bits : ℕ} {strtod : List UInt8 → F64} {ts : List Token}

theorem ended_of_tiles {p : List UInt8} (h : Lexer.Tiles p ts) : Ended Token.sym (.tok .eof) ts := by
  induction h with
  | eof p t hgap hkind hend =>
    refine ⟨[], t, rfl, ?_⟩
    unfold Token.sym
    rw [hkind]
  | token p rest t ts hgap hne htext hrest ih =>
    obtain ⟨us, u, rfl, hu⟩ := ih
    exact ⟨t :: us, u, rfl, hu⟩

theorem length_skipHash (source : List UInt8) : (Lexer.skipHash source).length < source.length + 1 := by
  unfold Lexer.skipHash
  split_ifs
  · exact Nat.lt_succ_of_le (List.length_dropWhile_le _ _)
  · exact Nat.lt_succ_self _

/-- Lexing and parsing a source ends, with an error that has a line, or with a tree that holds together. -/
theorem source_ends (hbits : 4 ≤ bits) (source : List UInt8) :
    (∃ line msg, lex bits strtod source = .error (.error line msg)) ∨
      ∃ ts, lex bits strtod source = .ok ts ∧
        ((∃ line msg, parse ts = .error (.error line msg)) ∨ ∃ b, parse ts = .ok b ∧ wfBlock b) := by
  rcases @Lexer.lexLoop_rooted bits ⟨Lexer.skipHash source, 1⟩ strtod hbits _ (length_skipHash source) with
    h | ⟨ts, hts, hroot⟩
  · exact Or.inl h
  · exact Or.inr ⟨ts, hts, parse_ends (ended_of_tiles hroot.1)⟩

end

/-! ## A text with most of the forms -/

/-- The text `local a<const>,b=f(1+2,x)`, and `x.y=-z` on a second line. -/
def sample : List UInt8 :=
  [108, 111, 99, 97, 108, 32, 97, 60, 99, 111, 110, 115, 116, 62, 44, 98, 61, 102, 40, 49, 43, 50, 44, 120, 41, 10, 120, 46, 121, 61,
    45, 122]

/-- A token of the text: its kind, position, length and integer. -/
def sampleToken (line : ℕ) (x : TokKind × ℕ × ℕ × I64) : Token :=
  ⟨x.1, sample.drop x.2.1, x.2.2.1, line, x.2.2.2, ⟨0⟩, []⟩

/-- The tokens of the text. -/
def sampleTokens : List Token :=
  [(.kwLocal, 0, 5, 0), (.ident, 6, 1, 0), (.lt, 7, 1, 0), (.ident, 8, 5, 0), (.gt, 13, 1, 0), (.comma, 14, 1, 0), (.ident, 15, 1, 0),
    (.assign, 16, 1, 0), (.ident, 17, 1, 0), (.lparen, 18, 1, 0), (.int, 19, 1, 1), (.plus, 20, 1, 0), (.int, 21, 1, 2),
    (.comma, 22, 1, 0), (.ident, 23, 1, 0), (.rparen, 24, 1, 0)].map (sampleToken 1) ++
  [(.ident, 26, 1, 0), (.dot, 27, 1, 0), (.ident, 28, 1, 0), (.assign, 29, 1, 0), (.minus, 30, 1, 0), (.ident, 31, 1, 0),
    (.eof, 32, 0, 0)].map (sampleToken 2)

/-- The tree of the text. -/
def sampleTree : List RawStmt :=
  [.localStmt [("a", .const), ("b", .none)] [.call (.name "f") [.binop .add (.int 1) (.int 2), .name "x"]],
    .assign [.index (.name "x") (.string "y")] [.unop .neg (.name "z")]]

/-- The text is lexed as these tokens. -/
theorem lex_sample : lex 64 (fun _ => ⟨0⟩) sample = .ok sampleTokens := by decide +kernel

/-- The tokens are parsed as this tree. -/
theorem parse_sample : parse sampleTokens = .ok sampleTree := rfl

/-- An operator, a call, a field, an assignment, an attribute and three lists. -/
theorem source_ends_sample : wfBlock sampleTree := by
  rcases @source_ends 64 (fun _ => ⟨0⟩) (by decide) sample with ⟨line, msg, h⟩ | ⟨ts, hts, h⟩
  · exact absurd (lex_sample.symm.trans h) (by simp)
  · obtain rfl := Except.ok.inj (lex_sample.symm.trans hts)
    rcases h with ⟨line, msg, hparse⟩ | ⟨b, hb, hwf⟩
    · exact absurd (parse_sample.symm.trans hparse) (by simp)
    · obtain rfl := Except.ok.inj (parse_sample.symm.trans hb)
      exact hwf

end Lua2wasm.Syntax
