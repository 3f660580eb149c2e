import Lua2wasm.Parser.Trees

/-!
# What the parser accepts

On a list of tokens that ends with the end token, the parser never reads behind it and never runs out of fuel, and a
tree that it gives holds together. `Sound` says so of what is nested, for lists up to some length; each parsing function
takes a token before it calls for what is nested.
-/

namespace Lua2wasm.Syntax

open Lexer (Token TokKind Sym)
open Descent (Yields Ended)

/-- `Descent.Yields` for the tokens of the language. -/
abbrev Gives {α : Type} (n d : ℕ) (H : Sym → Prop) (x : Parse α) (Q : α → Sym → Prop) : Prop :=
  Yields Token.sym (.tok .eof) ParseFault.stuck n d H x Q

/-- What is nested gives trees that hold together, in front of tokens that do not go into them. -/
structure Sound (nest : Nested) (n : ℕ) : Prop where
  prec : ∀ m, 1 ≤ m → m ≤ 13 → Gives n 1 (fun _ => True) (nest.prec m) fun e y =>
    wfExpr e ∧ m ≤ lead e ∧ precOf y < m ∧ precOf y < stop e
  block : ∀ stops, Gives n 0 (fun _ => True) (nest.block stops) fun b _ => wfBlock b

/-- A statement is parsed from its first token on. -/
abbrev GivesStmt (n : ℕ) (x : Parse RawStmt) : Prop := Gives (n + 1) 1 (fun y => y ≠ .tok .eof) x fun s _ => wfStmt s

/-- The first token of a statement that is an expression. -/
def opener : Sym → Bool
  | .name _ | .tok .lparen => true
  | _ => false

section

variable {self : Nested} {n : ℕ} {H : Sym → Prop} {y : Sym} {e : RawExpr}

/-! ## Tokens -/

/-- An error has a line. -/
theorem setError_gives {α : Type} {msg : Token → String} {d : ℕ} {Q : α → Sym → Prop} :
    Gives n d H (setError msg) Q :=
  Yields.failAt fun _ h => by cases h

/-- The token is taken, or an error is raised. -/
theorem expect_gives {kind : TokKind} {what : String} (hkind : kind ≠ .eof) :
    Gives n 1 H (expect kind what) fun _ _ => True := by
  unfold expect
  refine Yields.accept (fun h => hkind (Sym.tok.inj h)) ?_ ?_
  · rw [if_pos rfl]
    exact Yields.pure fun _ _ => trivial
  · rw [if_neg (by decide)]
    exact setError_gives

/-- What stands behind a token that has to be there. -/
theorem expect_then {α : Type} {kind : TokKind} {what : String} {x : Unit → Parse α} {Q : α → Sym → Prop}
    (hkind : kind ≠ .eof) (hx : Gives n 0 (fun _ => True) (x ()) Q) : Gives n 0 H (expect kind what >>= x) Q :=
  Yields.next (expect_gives hkind) fun _ _ => hx

/-- A name is taken, or an error is raised. -/
theorem expectName_gives {msg : String} : Gives n 1 H (expectName msg) fun _ _ => True := by
  unfold expectName
  refine Yields.peek fun y _ => ?_
  split
  · refine Yields.advance ?_ (Yields.pure fun _ _ => trivial)
    rintro _ rfl h
    cases h
  · exact setError_gives

/-- Any token but the last can be taken. -/
theorem advance_gives (hH : ∀ y, H y → y ≠ .tok .eof) : Gives n 1 H advance fun _ _ => True :=
  Yields.taken hH

/-- A token that is known to be another than the last one is taken. -/
theorem taken_gives (hy : y ≠ .tok .eof) : Gives n 1 (fun z => z = y) advance fun _ _ => True := by
  refine advance_gives ?_
  rintro _ rfl
  exact hy

/-- A token may be taken. -/
theorem matchTok_gives {kind : TokKind} (hkind : kind ≠ .eof) : Gives n 0 H (matchTok kind) fun _ _ => True :=
  Yields.accepted fun h => hkind (Sym.tok.inj h)

/-- What follows depends on whether a token was there. -/
theorem matchTok_ite {α : Type} {kind : TokKind} {x x' : Parse α} {Q : α → Sym → Prop} (hkind : kind ≠ .eof)
    (hx : Gives n 0 (fun _ => True) x Q) (hx' : Gives n 0 (fun _ => True) x' Q) :
    Gives n 0 H (matchTok kind >>= fun b => if b = true then x else x') Q :=
  Yields.next (matchTok_gives hkind) fun _ _ => Yields.ite (fun _ => hx) fun _ => hx'

/-- A list whose elements are told from its end by one token. -/
theorem many_gives {α : Type} {kind : TokKind} {item : Parse α} {R : α → Prop} (hkind : kind ≠ .eof)
    (hitem : Gives n 1 (fun _ => True) item fun a _ => R a) :
    Gives n 0 (fun _ => True) (many (matchTok kind) item) fun as _ => ∀ a ∈ as, R a := by
  have hmore : Gives n 0 (fun _ => True) (matchTok kind) fun b _ => (b = true → True) ∧ (b = false → True) :=
    (matchTok_gives hkind).imp fun _ _ _ => ⟨fun _ => trivial, fun _ => trivial⟩
  have hitem' : Gives n 1 (fun _ => True) item fun a _ => R a ∧ True :=
    hitem.imp fun _ _ h => ⟨h, trivial⟩
  exact (Yields.many hmore hitem').imp fun _ _ h => h.1

/-- A statement that begins with a keyword. -/
theorem keyword_then {x : Unit → Parse RawStmt} (hx : Gives n 0 (fun _ => True) (x ()) fun s _ => wfStmt s) :
    GivesStmt n (advance >>= x) :=
  Yields.first (advance_gives fun _ h => h) le_rfl fun _ _ => hx

/-! ## Names and attributes -/

/-- The loop over the parameters has fuel enough. -/
theorem params_give : ∀ (m n : ℕ) (H : Sym → Prop), n ≤ m → Gives n 0 H (paramsFuel m) fun _ _ => True
  | 0, n, _, hm => fun _ us _ hlen _ => absurd hlen (by omega)
  | m + 1, n, _, hm => by
    unfold paramsFuel
    -- a name takes a token in front of the next round, so the fuel goes down no faster than the tokens
    refine Yields.peek fun y _ => ?_
    split
    · refine Yields.next (taken_gives nofun) fun _ _ => Yields.peek fun z _ => ?_
      split
      · exact Yields.next (taken_gives nofun) fun _ _ => Yields.pure fun _ _ => trivial
      · exact Yields.pure fun _ _ => trivial
    · have hname : Gives n (1 + 0) (fun z => z = y) (expectName "expected parameter name" >>= fun s => do
          if ← matchTok .comma then
            let r ← paramsFuel m
            return (s :: r.1, r.2)
          else return ([s], .none)) fun _ _ => True := by
        refine Yields.bind expectName_gives fun s => Yields.accept (fun h => (by cases h)) ?_ ?_
        · rw [if_pos rfl]
          exact Yields.next (params_give m (n - 1 - 1) _ (by omega)) fun _ _ => Yields.pure fun _ _ => trivial
        · rw [if_neg (by decide)]
          exact Yields.pure fun _ _ => trivial
      exact hname.loose

/-- The parameters. -/
theorem parseParams_gives : Gives n 0 H parseParams fun _ _ => True := by
  unfold parseParams
  refine Yields.peek fun y _ => Yields.ite (fun _ => Yields.pure fun _ _ => trivial) fun _ => ?_
  intro t us hend _ ht
  exact params_give _ (us.length + 1) (fun z => z = y) (Nat.le_succ _) t us hend (Nat.lt_succ_self _) ht

/-- An attribute in angle brackets. -/
theorem attribute_gives : Gives n 1 (fun y => y = .tok .lt) parseAttribute fun _ _ => True := by
  unfold parseAttribute
  refine Yields.first (taken_gives nofun) (Nat.sub_le n 1) fun _ _ =>
    Yields.next expectName_gives fun a _ => Yields.ite (fun _ => ?_) fun _ => setError_gives
  refine matchTok_ite (by decide) (Yields.pure fun _ _ => trivial) ?_
  exact setError_gives

/-- A name, and its attribute. -/
theorem attribName_gives {msg : String} {attrib : Attrib} :
    Gives n 1 H (parseAttribName msg attrib) fun _ _ => True := by
  unfold parseAttribName
  refine Yields.first expectName_gives (Nat.sub_le n 1) fun name _ => Yields.peek fun y _ =>
    Yields.ite (fun hy => ?_) fun _ => Yields.pure fun _ _ => trivial
  subst hy
  exact Yields.next attribute_gives fun a _ => Yields.pure fun _ _ => trivial

/-- The attribute in front of the names. -/
theorem defaultAttrib_gives : Gives n 0 H parseDefaultAttrib fun _ _ => True := by
  unfold parseDefaultAttrib
  refine Yields.peek fun y _ => Yields.ite (fun hy => ?_) fun _ => Yields.pure fun _ _ => trivial
  subst hy
  exact attribute_gives.loose

/-- A global is never `close`. -/
theorem globalName_gives {attrib : Attrib} : Gives n 1 H (parseGlobalName attrib) fun x _ => x.2 ≠ .close := by
  unfold parseGlobalName
  refine Yields.look fun line => Yields.first attribName_gives (Nat.sub_le n 1) fun x _ =>
    Yields.ite (fun _ => Yields.fail fun h => (by cases h)) fun hx => Yields.pure fun _ _ => hx

/-! ## Expressions -/

/-- A prefix expression, which begins with a name or a parenthesis if the tokens do. -/
def Chain (y : Sym) (e : RawExpr) : Prop := wfExpr e ∧ isChain e = true ∧ (opener y = true → opens e = true)

/-- The invariant of the loop of `parse_prec`. -/
def Operand (m : ℕ) (e : RawExpr) (y : Sym) : Prop := wfExpr e ∧ m ≤ lead e ∧ precOf y < stop e

/-- No operator binds as tightly as a prefix expression. -/
theorem precOf_le (y : Sym) : precOf y ≤ 12 := by
  rcases y with s | i | x | s | kind
  · exact Nat.zero_le _
  · exact Nat.zero_le _
  · exact Nat.zero_le _
  · exact Nat.zero_le _
  · cases kind <;> decide

/-- What stands behind a prefix expression does not go into it. -/
theorem stop_chain (h : isChain e = true) : stop e = 14 ∧ lead e = 13 := by
  cases e <;> first | exact ⟨rfl, rfl⟩ | cases h

section

variable (hs : Sound self n)

include hs

/-- An expression. -/
theorem Sound.expr : Gives n 1 H (parseExpr self) fun e _ => wfExpr e :=
  (hs.prec 1 le_rfl (by decide)).mono le_rfl le_rfl (fun _ _ => trivial) fun _ _ h => h.1

/-- At least one expression. -/
theorem Sound.exprList : Gives n 0 H (parseExprList self) fun es _ => es ≠ [] ∧ wfExprs es := by
  unfold parseExprList
  refine Yields.next hs.expr fun e he => Yields.next (many_gives (by decide) hs.expr) fun es hes => ?_
  exact Yields.pure fun _ _ => ⟨List.cons_ne_nil _ _, he, wfExprs_iff.mpr hes⟩

/-- Parameters and body of a function. -/
theorem Sound.func : Gives n 0 H (parseFunctionBody self) fun f _ => wfFunc f := by
  unfold parseFunctionBody
  refine expect_then (by decide) <| Yields.next parseParams_gives fun r _ => ?_
  refine expect_then (by decide) <| Yields.next (hs.block _) fun body hbody => ?_
  exact expect_then (by decide) <| Yields.pure fun _ _ => hbody

/-- An entry of a table. -/
theorem Sound.entry : Gives n 1 H (parseEntry self) fun e _ => wfEntry e := by
  have hpositional : ∀ {H},
      Gives n 1 H (parseExpr self >>= fun v => pure (RawEntry.positional v)) fun e _ => wfEntry e :=
    Yields.bind (e := 0) hs.expr fun v => Yields.pure fun _ h => h
  unfold parseEntry
  refine Yields.peek fun y _ => ?_
  -- `[k] = v`, then a name, which is a key only in front of `=`
  split
  · refine Yields.first (taken_gives nofun) (Nat.sub_le n 1) fun _ _ => ?_
    refine Yields.next hs.expr fun k hk => expect_then (by decide) ?_
    refine expect_then (by decide) <| Yields.next hs.expr fun v hv => ?_
    exact Yields.pure fun _ _ => ⟨hk, hv⟩
  · refine Yields.peekSecond fun z => Yields.ite (fun _ => ?_) fun _ => hpositional
    refine Yields.first (taken_gives nofun) (Nat.sub_le n 1) fun _ _ => ?_
    refine Yields.next (matchTok_gives (by decide)) fun _ _ => Yields.next hs.expr fun v hv => ?_
    exact Yields.pure fun _ _ => ⟨trivial, hv⟩
  · exact hpositional

/-- The entries that follow a separator. -/
theorem Sound.entries :
    Gives n 0 H (many separated (parseEntry self)) fun es _ => wfEntries es := by
  have hmore : Gives n 0 (fun _ => True) moreEntries fun _ _ => True :=
    Yields.peek fun y _ => Yields.pure fun _ _ => trivial
  have hseparated : Gives n 0 (fun _ => True) separated fun _ _ => True := by
    refine matchTok_ite (by decide) hmore ?_
    refine matchTok_ite (by decide) hmore ?_
    exact Yields.pure fun _ _ => trivial
  have hmore' : Gives n 0 (fun _ => True) separated fun b _ => (b = true → True) ∧ (b = false → True) :=
    hseparated.imp fun _ _ _ => ⟨fun _ => trivial, fun _ => trivial⟩
  have hentry : Gives n 1 (fun _ => True) (parseEntry self) fun e _ => wfEntry e ∧ True :=
    hs.entry.imp fun _ _ h => ⟨h, trivial⟩
  exact (Yields.many hmore' hentry).mono le_rfl le_rfl (fun _ _ => trivial) fun _ _ h => wfEntries_iff.mpr h.1

/-- A table, which is a prefix expression. -/
theorem Sound.table :
    Gives (n + 1) 1 (fun y => y = .tok .lbrace) (parseTable self) fun e _ => wfExpr e ∧ isChain e = true := by
  have hmore : Gives n 0 (fun _ => True) moreEntries fun _ _ => True :=
    Yields.peek fun y _ => Yields.pure fun _ _ => trivial
  unfold parseTable
  refine Yields.first (taken_gives nofun) le_rfl fun _ _ => Yields.next hmore fun b _ =>
    Yields.ite (fun _ => ?_) fun _ => ?_
  · refine Yields.next hs.entry fun e he => Yields.next hs.entries fun es hes => ?_
    exact expect_then (by decide) <| Yields.pure fun _ _ => ⟨⟨he, hes⟩, rfl⟩
  · exact expect_then (by decide) <| Yields.pure fun _ _ => ⟨trivial, rfl⟩

/-- What a prefix expression begins with. -/
theorem Sound.primary (y : Sym) :
    Gives (n + 1) 1 (fun z => z = y) (parsePrimary self) fun e _ => Chain y e := by
  -- the expressions of one token
  have hone : ∀ e, Chain y e → y ≠ .tok .eof →
      Gives (n + 1) 1 (fun z => z = y) (advance >>= fun _ => pure e) fun e _ => Chain y e := by
    intro e he hy
    exact Yields.first (taken_gives hy) le_rfl fun _ _ => Yields.pure fun _ _ => he
  unfold parsePrimary
  refine Yields.peek fun z (hz : z = y) => ?_
  subst hz
  rcases z with s | i | x | s | kind
  · exact hone _ ⟨trivial, rfl, fun _ => rfl⟩ fun h => (by cases h)
  · exact hone _ ⟨trivial, rfl, fun h => (by cases h)⟩ fun h => (by cases h)
  · exact hone _ ⟨trivial, rfl, fun h => (by cases h)⟩ fun h => (by cases h)
  · exact hone _ ⟨trivial, rfl, fun h => (by cases h)⟩ fun h => (by cases h)
  · cases kind
    case lparen =>
      refine Yields.first (taken_gives nofun) le_rfl fun _ _ => Yields.next hs.expr fun e he => ?_
      exact expect_then (by decide) <| Yields.pure fun _ _ => ⟨he, rfl, fun _ => rfl⟩
    case kwFunction =>
      refine Yields.first (taken_gives nofun) le_rfl fun _ _ => Yields.next hs.func fun f hf => ?_
      exact Yields.pure fun _ _ => ⟨hf, rfl, fun h => (by cases h)⟩
    case lbrace => exact hs.table.imp fun _ _ h => ⟨h.1, h.2, fun h => (by cases h)⟩
    case kwNil => exact hone _ ⟨trivial, rfl, fun h => (by cases h)⟩ fun h => (by cases h)
    case kwTrue => exact hone _ ⟨trivial, rfl, fun h => (by cases h)⟩ fun h => (by cases h)
    case kwFalse => exact hone _ ⟨trivial, rfl, fun h => (by cases h)⟩ fun h => (by cases h)
    case ellipsis => exact hone _ ⟨trivial, rfl, fun h => (by cases h)⟩ fun h => (by cases h)
    -- no other token begins an expression
    all_goals exact setError_gives

/-- Arguments in parentheses. -/
theorem Sound.args : Gives n 0 H (parseArgs self) fun es _ => wfExprs es := by
  unfold parseArgs
  refine Yields.peek fun y _ => Yields.ite (fun _ => ?_) fun _ => ?_
  · exact Yields.next (Yields.pure (Q := fun es _ => es = []) fun _ _ => rfl) fun es hes =>
      expect_then (by decide) <| Yields.pure fun _ _ => (by rw [hes]; trivial)
  · exact Yields.next hs.exprList fun es hes =>
      expect_then (by decide) <| Yields.pure fun _ _ => hes.2

/-- The arguments of a method call. -/
theorem Sound.methodArgs : Gives n 0 H (parseMethodArgs self) fun es _ => wfExprs es := by
  unfold parseMethodArgs
  refine Yields.peek fun y _ => ?_
  split
  · exact Yields.next (taken_gives nofun) fun _ _ => Yields.pure fun _ _ => ⟨trivial, trivial⟩
  · exact Yields.next (hs.table.within (Nat.le_succ n)) fun e he =>
      Yields.pure fun _ _ => ⟨he.1, trivial⟩
  · exact expect_then (by decide) <| hs.args

/-- One more index or call. -/
theorem Sound.onChain {x : Sym} (he : Chain x e) :
    Gives (n + 1) 1 (fun y => chains y = true) (chainStep self e) fun e _ => Chain x e := by
  obtain ⟨hwf, hchain, hopens⟩ := he
  unfold chainStep
  refine Yields.peek fun y (hy : chains y = true) => ?_
  have hadvance : Gives (n + 1) 1 (fun z => z = y) advance fun _ _ => True := by
    refine taken_gives ?_
    rintro rfl
    cases hy
  -- a call, `.name`, `[k]`, a string, a table, and what is left is `:name`
  split
  · exact Yields.first hadvance le_rfl fun _ _ => Yields.next hs.args fun args hargs =>
      Yields.pure fun _ _ => ⟨⟨hchain, hwf, hargs⟩, rfl, hopens⟩
  · exact Yields.first hadvance le_rfl fun _ _ => Yields.next expectName_gives fun _ _ =>
      Yields.pure fun _ _ => ⟨⟨hchain, hwf, trivial⟩, rfl, hopens⟩
  · exact Yields.first hadvance le_rfl fun _ _ => Yields.next hs.expr fun k hk =>
      expect_then (by decide) <| Yields.pure fun _ _ => ⟨⟨hchain, hwf, hk⟩, rfl, hopens⟩
  · exact Yields.first hadvance le_rfl fun _ _ =>
      Yields.pure fun _ _ => ⟨⟨hchain, hwf, trivial, trivial⟩, rfl, hopens⟩
  · exact Yields.first hs.table le_rfl fun t ht => Yields.pure fun _ _ => ⟨⟨hchain, hwf, ht.1, trivial⟩, rfl, hopens⟩
  · exact Yields.first hadvance le_rfl fun _ _ => Yields.next expectName_gives fun _ _ =>
      Yields.next hs.methodArgs fun args hargs => Yields.pure fun _ _ => ⟨⟨hchain, hwf, hargs⟩, rfl, hopens⟩

/-- All of them. -/
theorem Sound.prefixChain (y : Sym) :
    Gives (n + 1) 1 (fun z => z = y) (parsePrefixChain self) fun e _ => Chain y e := by
  unfold parsePrefixChain
  refine Yields.bind (e := 0) (hs.primary y) fun e => ?_
  have hmore : ∀ e, Gives n 0 (fun _ => Chain y e) moreChain fun b z =>
      Chain y e ∧ (b = true → chains z = true) ∧ (b = false → True) := fun e =>
    Yields.peek fun z he => Yields.pure fun x hx => ⟨he, fun h => (by rwa [hx]), fun _ => trivial⟩
  have hbody : ∀ e, Gives n 1 (fun z => Chain y e ∧ chains z = true) (chainStep self e) fun e _ => Chain y e := by
    intro e t us hend hlen ht
    exact hs.onChain ht.1 t us hend (Nat.lt_succ_of_lt hlen) ht.2
  exact (Yields.iterate hmore hbody e).imp fun _ _ h => h.1

/-- A unary operator, or a prefix expression. -/
theorem Sound.unaryExpr :
    Gives (n + 1) 1 (fun _ => True) (parseUnary self) fun e y => wfExpr e ∧ 13 ≤ lead e ∧ precOf y < stop e := by
  unfold parseUnary
  refine Yields.peek fun y _ => ?_
  rcases hop : unary y with _ | op
  · refine (hs.prefixChain y).imp fun e z he => ?_
    -- a prefix expression ends by itself, so any operator may stand behind it
    obtain ⟨hstop, hlead⟩ := stop_chain he.2.1
    have := precOf_le z
    exact ⟨he.1, hlead.ge, by omega⟩
  · obtain rfl := unary_some hop
    have htaken : Gives (n + 1) 1 (fun z => z = .tok (unaryTok op)) advance fun _ _ => True :=
      taken_gives (by cases op <;> decide)
    refine Yields.bind (e := 0) htaken fun _ => ?_
    refine Yields.loose (Yields.bind (e := 0) (hs.prec precUnary (by decide) (by decide)) fun e =>
      Yields.pure fun y he => ?_)
    exact ⟨⟨he.2.1, he.1⟩, le_rfl, Nat.lt_min.mpr he.2.2⟩

/-- A turn of the loop of `parse_prec`. -/
theorem Sound.onOperand {m : ℕ} :
    Gives (n + 1) 1 (fun y => Operand m e y ∧ ∃ o, binary y = some o ∧ m ≤ o.2) (binaryStep self e) (Operand m) := by
  unfold binaryStep
  refine Yields.peek ?_
  rintro y ⟨⟨hwf, -, hstop⟩, o, ho, hm⟩
  obtain ⟨op, prec⟩ := o
  obtain ⟨hy, hprec⟩ := binary_some ho
  dsimp only at hy hprec hm
  subst hy hprec
  -- that the operator does not go into the left operand was known of the token before the loop went on
  rw [precOf_binaryTok] at hstop
  rw [ho]
  have htaken : Gives (n + 1) 1 (fun z => z = .tok (binaryTok op)) advance fun _ _ => True :=
    taken_gives (by cases op <;> decide)
  have hnext : 1 ≤ nextMin op (binaryPrec op) ∧ nextMin op (binaryPrec op) ≤ 13 := by cases op <;> decide
  refine Yields.bind (e := 0) htaken fun _ => ?_
  refine Yields.loose (Yields.bind (e := 0) (hs.prec _ hnext.1 hnext.2) fun r => Yields.pure fun y hr => ?_)
  exact ⟨⟨hstop, hr.2.1, hwf, hr.1⟩, hm, Nat.lt_min.mpr hr.2.2⟩

/-- The whole loop. -/
theorem Sound.parsePrec {m : ℕ} (hm : 1 ≤ m) (hm' : m ≤ 13) :
    Gives (n + 1) 1 (fun _ => True) (parsePrec self m) fun e y =>
      wfExpr e ∧ m ≤ lead e ∧ precOf y < m ∧ precOf y < stop e := by
  have hmore : ∀ e, Gives n 0 (Operand m e) (moreBinary m) fun b y =>
      Operand m e y ∧ (b = true → ∃ o, binary y = some o ∧ m ≤ o.2) ∧ (b = false → precOf y < m) := by
    intro e
    unfold moreBinary
    refine Yields.peek fun y he => ?_
    -- a token that is no operator has the precedence zero, and ends the loop as a weaker operator does
    rcases ho : binary y with _ | o
    · refine Yields.pure ?_
      rintro _ rfl
      refine ⟨he, fun h => (by cases h), fun _ => ?_⟩
      rw [precOf, ho]
      exact hm
    · refine Yields.pure ?_
      rintro _ rfl
      refine ⟨he, fun h => ⟨o, ho, of_decide_eq_true h⟩, fun h => ?_⟩
      rw [precOf, ho]
      exact Nat.not_le.mp (of_decide_eq_false h)
  have hbody : ∀ e,
      Gives n 1 (fun y => Operand m e y ∧ ∃ o, binary y = some o ∧ m ≤ o.2) (binaryStep self e) (Operand m) :=
    fun e => hs.onOperand.within (Nat.le_succ n)
  have hunary : Gives (n + 1) 1 (fun _ => True) (parseUnary self) (Operand m) :=
    hs.unaryExpr.imp fun e y he => ⟨he.1, hm'.trans he.2.1, he.2.2⟩
  refine Yields.bind (e := 0) hunary fun e => ?_
  exact (Yields.iterate hmore hbody e).imp fun _ _ h => ⟨h.1.1, h.1.2.1, h.2, h.1.2.2⟩

/-! ## Statements -/

/-- The values behind `=`, which may be missing. -/
theorem Sound.values : Gives n 0 H (parseValues self) fun es _ => wfExprs es := by
  unfold parseValues
  refine matchTok_ite (by decide) ?_ <| Yields.pure fun _ _ => trivial
  exact hs.exprList.imp fun _ _ h => h.2

/-- `local`. -/
theorem Sound.localStmt : GivesStmt n (parseLocal self) := by
  unfold parseLocal
  refine keyword_then <| Yields.peek fun y _ =>
    Yields.ite (fun hy => ?_) fun _ => ?_
  · subst hy
    exact Yields.next (taken_gives nofun) fun _ _ => Yields.next expectName_gives fun name _ =>
      Yields.next hs.func fun f hf => Yields.pure fun _ _ => hf
  · refine Yields.next defaultAttrib_gives fun attrib _ => Yields.next attribName_gives fun first _ => ?_
    refine Yields.next (many_gives (R := fun _ => True) (by decide) attribName_gives) fun others _ => ?_
    refine Yields.ite (fun _ => setError_gives) fun hclose => ?_
    exact Yields.next hs.values fun values hvalues =>
      Yields.pure fun _ _ => ⟨List.cons_ne_nil _ _, Nat.not_lt.mp hclose, hvalues⟩

/-- `global`. -/
theorem Sound.global : GivesStmt n (parseGlobal self) := by
  unfold parseGlobal
  refine keyword_then <| matchTok_ite (by decide) ?_ ?_
  · exact Yields.next expectName_gives fun name _ => Yields.next hs.func fun f hf => Yields.pure fun _ _ => hf
  · refine Yields.next defaultAttrib_gives fun attrib _ =>
      Yields.ite (fun _ => setError_gives) fun hattrib => ?_
    refine matchTok_ite (by decide) (Yields.pure fun _ _ => hattrib) ?_
    refine Yields.peek fun y _ => ?_
    split
    · refine Yields.next globalName_gives fun x hx =>
        Yields.next (many_gives (by decide) globalName_gives) fun xs hxs => ?_
      refine Yields.next hs.values fun values hvalues => Yields.pure fun _ _ => ⟨List.cons_ne_nil _ _, ?_, hvalues⟩
      exact List.forall_mem_cons.mpr ⟨hx, hxs⟩
    · exact setError_gives

/-- `function`. -/
theorem Sound.functionStmt : GivesStmt n (parseFunctionStmt self) := by
  unfold parseFunctionStmt
  refine keyword_then <| Yields.next expectName_gives fun name _ => ?_
  refine Yields.next (many_gives (R := fun _ => True) (by decide) expectName_gives) fun path _ =>
    matchTok_ite (by decide) ?_ ?_
  · exact Yields.next expectName_gives fun m _ => Yields.next hs.func fun f hf => Yields.pure fun _ _ => hf
  · exact Yields.next hs.func fun f hf => Yields.pure fun _ _ => hf

/-- A condition and its block. -/
theorem Sound.arm : Gives n 1 H (parseArm self) fun a _ => wfArm a := by
  unfold parseArm
  refine Yields.first hs.expr (Nat.sub_le n 1) fun c hc => expect_then (by decide) ?_
  exact Yields.next (hs.block _) fun b hb => Yields.pure fun _ _ => ⟨hc, hb⟩

/-- `if`. -/
theorem Sound.ifStmt : GivesStmt n (parseIf self) := by
  unfold parseIf
  refine keyword_then <| Yields.next hs.arm fun a ha => ?_
  refine Yields.next (many_gives (by decide) hs.arm) fun as has => ?_
  refine matchTok_ite (by decide) ?_ ?_
  · refine Yields.next (hs.block _) fun b hb => expect_then (by decide) <|
      Yields.pure fun _ _ => ?_
    exact ⟨List.cons_ne_nil _ _, fun h => (by cases h), ⟨ha, wfArms_iff.mpr has⟩, hb⟩
  · refine expect_then (by decide) <| Yields.pure fun _ _ => ?_
    exact ⟨List.cons_ne_nil _ _, fun _ => rfl, ⟨ha, wfArms_iff.mpr has⟩, trivial⟩

/-- `while`. -/
theorem Sound.whileStmt : GivesStmt n (parseWhile self) := by
  unfold parseWhile
  refine keyword_then <| Yields.next hs.expr fun c hc => ?_
  refine expect_then (by decide) <| Yields.next (hs.block _) fun b hb => ?_
  exact expect_then (by decide) <| Yields.pure fun _ _ => ⟨hc, hb⟩

/-- `do`. -/
theorem Sound.doStmt : GivesStmt n (parseDo self) := by
  unfold parseDo
  refine keyword_then <| Yields.next (hs.block _) fun b hb => ?_
  exact expect_then (by decide) <| Yields.pure fun _ _ => hb

/-- `repeat`. -/
theorem Sound.repeatStmt : GivesStmt n (parseRepeat self) := by
  unfold parseRepeat
  refine keyword_then <| Yields.next (hs.block _) fun b hb => ?_
  exact expect_then (by decide) <| Yields.next hs.expr fun c hc =>
    Yields.pure fun _ _ => ⟨hb, hc⟩

/-- `return`. -/
theorem Sound.returnStmt : GivesStmt n (parseReturn self) := by
  have hsemi : ∀ es, wfExprs es → Gives n 0 (fun _ => True) (do let _ ← matchTok .semi; return RawStmt.returnStmt es)
      fun s _ => wfStmt s := fun es hes =>
    Yields.next (matchTok_gives (by decide)) fun _ _ => Yields.pure fun _ _ => hes
  unfold parseReturn
  refine keyword_then <| Yields.peek fun y _ =>
    Yields.ite (fun _ => ?_) fun _ => ?_
  · exact Yields.next (Yields.pure (Q := fun es _ => es = []) fun _ _ => rfl) fun es hes =>
      hsemi es (by rw [hes]; trivial)
  · exact Yields.next hs.exprList fun es hes => hsemi es hes.2

/-- Both kinds of `for`. -/
theorem Sound.forStmt : GivesStmt n (parseFor self) := by
  have hstep : Gives n 0 (fun _ => True) (parseStep self) fun step _ => wfStep step := by
    refine matchTok_ite (by decide) ?_ <| Yields.pure fun _ _ => trivial
    exact Yields.next hs.expr fun e he => Yields.pure fun _ _ => he
  unfold parseFor
  refine keyword_then <| Yields.next expectName_gives fun name _ =>
    matchTok_ite (by decide) ?_ ?_
  · refine Yields.next hs.expr fun start hstart => expect_then (by decide) ?_
    refine Yields.next hs.expr fun stop hstop => Yields.next hstep fun step hstep => ?_
    refine expect_then (by decide) <| Yields.next (hs.block _) fun b hb => ?_
    exact expect_then (by decide) <| Yields.pure fun _ _ => ⟨hstart, hstop, hstep, hb⟩
  · refine Yields.next (many_gives (R := fun _ => True) (by decide) expectName_gives) fun names _ => ?_
    refine expect_then (by decide) <| Yields.next hs.exprList fun es hes => ?_
    refine expect_then (by decide) <| Yields.next (hs.block _) fun b hb => ?_
    exact expect_then (by decide) <|
      Yields.pure fun _ _ => ⟨List.cons_ne_nil _ _, hes.1, hes.2, hb⟩

/-- A target of an assignment. -/
theorem Sound.target :
    Gives (n + 1) 1 (fun _ => True) (parseTarget self) fun e _ => isTarget e = true ∧ wfExpr e :=
  Yields.each fun y _ => Yields.first (hs.prefixChain y) le_rfl fun _ he =>
    Yields.ite (fun htarget => Yields.pure fun _ _ => ⟨htarget, he.1⟩) fun _ => setError_gives

/-- A call or an assignment. -/
theorem Sound.identStmt (hy : opener y = true) :
    Gives (n + 1) 1 (fun z => z = y) (parseIdentStmt self) fun s _ => wfStmt s := by
  unfold parseIdentStmt
  refine Yields.first (hs.prefixChain y) le_rfl fun e he => Yields.ite (fun hcall => ?_) fun _ =>
    Yields.ite (fun htarget => ?_) fun _ => setError_gives
  · exact Yields.pure fun _ _ => ⟨hcall, he.2.2 hy, he.1⟩
  · have hothers : Gives n 0 (fun _ => True) (many (matchTok .comma) (parseTarget self)) fun es _ =>
        ∀ e ∈ es, isTarget e = true ∧ wfExpr e :=
      many_gives (by decide) (hs.target.within (Nat.le_succ n))
    refine Yields.next hothers fun es hes => expect_then (by decide) ?_
    refine Yields.next hs.exprList fun values hvalues => Yields.pure fun _ _ => ?_
    -- only the first target begins where the statement does
    refine ⟨he.2.2 hy, ?_, ⟨he.1, wfExprs_iff.mpr fun e he' => (hes e he').2⟩, hvalues⟩
    exact List.all_eq_true.mpr (List.forall_mem_cons.mpr ⟨htarget, fun e he' => (hes e he').1⟩)

/-- A statement, by its first token. -/
theorem Sound.stmtAt (hy : y ≠ .tok .eof) :
    Gives (n + 1) 1 (fun z => z = y) (parseStmtAt self y) fun s _ => wfStmt s := by
  have hne : ∀ z, z = y → z ≠ .tok .eof := fun z hz h => hy (hz.symm.trans h)
  have hadvance : Gives (n + 1) 1 (fun z => z = y) advance fun _ _ => True := taken_gives hy
  rcases y with s | i | x | s | kind
  -- `global` is a name, and the token behind it decides
  · refine Yields.peekSecond fun z => Yields.ite (fun _ => ?_) fun _ => hs.identStmt rfl
    exact hs.global.front hne
  · exact setError_gives
  · exact setError_gives
  · exact setError_gives
  · cases kind
    case kwLocal => exact hs.localStmt.front hne
    case kwFunction => exact hs.functionStmt.front hne
    case kwIf => exact hs.ifStmt.front hne
    case kwWhile => exact hs.whileStmt.front hne
    case kwDo => exact hs.doStmt.front hne
    case kwReturn => exact hs.returnStmt.front hne
    case kwFor => exact hs.forStmt.front hne
    case kwRepeat => exact hs.repeatStmt.front hne
    case kwBreak => exact Yields.first hadvance le_rfl fun _ _ => Yields.pure fun _ _ => trivial
    case kwGoto =>
      exact Yields.first hadvance le_rfl fun _ _ => Yields.next expectName_gives fun _ _ =>
        Yields.pure fun _ _ => trivial
    case dblcolon =>
      refine Yields.first hadvance le_rfl fun _ _ => Yields.next expectName_gives fun _ _ =>
        Yields.next (matchTok_gives (by decide)) fun _ _ =>
          Yields.ite (fun _ => Yields.pure fun _ _ => trivial) fun _ => ?_
      exact setError_gives
    case lparen => exact hs.identStmt rfl
    all_goals exact setError_gives

/-- A statement, or a semicolon. -/
theorem Sound.stmt :
    Gives (n + 1) 1 (fun y => y ≠ .tok .eof) (parseStmt self) fun s _ => ∀ s' ∈ s, wfStmt s' := by
  unfold parseStmt
  refine Yields.peek fun y hy => Yields.ite (fun hsemi => ?_) fun _ => ?_
  · subst hsemi
    exact Yields.first (m := n) (taken_gives hy) le_rfl fun _ _ => Yields.pure fun _ _ s' hs' => (by cases hs')
  · refine Yields.first (hs.stmtAt hy) le_rfl fun s hwf => Yields.pure fun _ _ s' hs' => ?_
    obtain rfl := Option.mem_some.mp hs'
    exact hwf

/-- Statements up to what ends the block. -/
theorem Sound.parseBlock (stops : List TokKind) :
    Gives (n + 1) 0 (fun _ => True) (parseBlock self stops) fun b _ => wfBlock b := by
  have hmore : Gives (n + 1) 0 (fun _ => True) (moreStmts stops) fun b y =>
      (b = true → y ≠ .tok .eof) ∧ (b = false → True) := by
    -- whatever ends the block, the end token does
    refine Yields.peek fun y _ => Yields.pure ?_
    rintro _ rfl
    refine ⟨?_, fun _ => trivial⟩
    rintro h rfl
    cases h
  have hstmt : Gives (n + 1) 1 (fun y => y ≠ .tok .eof) (parseStmt self) fun s _ => (∀ s' ∈ s, wfStmt s') ∧ True :=
    hs.stmt.imp fun _ _ h => ⟨h, trivial⟩
  have hmany : Gives (n + 1) 0 (fun _ => True) (many (moreStmts stops) (parseStmt self)) fun ss _ =>
      ∀ s ∈ ss, ∀ s' ∈ s, wfStmt s' := (Yields.many hmore hstmt).imp fun _ _ h => h.1
  refine Yields.next hmany fun ss hss => Yields.pure fun _ _ => wfBlock_iff.mpr fun s hs => ?_
  exact hss (some s) (List.reduceOption_mem_iff.mp hs) s rfl

end

/-! ## The whole -/

/-- What is nested is sound at any depth. -/
theorem sound_nested (n : ℕ) : Sound (nested n) n := by
  induction n with
  | zero =>
    exact ⟨fun m _ _ t us _ hlen => absurd hlen (Nat.not_lt_zero _),
      fun stops t us _ hlen => absurd hlen (Nat.not_lt_zero _)⟩
  | succ n ih => exact ⟨fun m hm hm' => ih.parsePrec hm hm', fun stops => ih.parseBlock stops⟩

/-- The parser ends on tokens with the end token behind them: with an error that has a line, or with a tree that holds
together. -/
theorem parse_ends {ts : List Token} (hend : Ended Token.sym (.tok .eof) ts) :
    (∃ line msg, parse ts = .error (.error line msg)) ∨ ∃ b, parse ts = .ok b ∧ wfBlock b := by
  rcases ts with _ | ⟨t, us⟩
  · obtain ⟨us, t, h, -⟩ := hend
    exact absurd h.symm (by simp)
  -- the fuel is the number of tokens, and each level of nesting takes one
  · obtain ⟨hstuck, hok⟩ := (sound_nested (t :: us).length).block [.eof] t us hend (Nat.lt_succ_self _) trivial
    unfold parse
    rcases h : (nested (t :: us).length).block [.eof] (t :: us) with fault | r
    · rcases fault with ⟨line, msg⟩ | _
      · exact Or.inl ⟨line, msg, rfl⟩
      · exact absurd h hstuck
    · obtain ⟨-, -, -, -, -, hwf⟩ := hok r.1 r.2 h
      exact Or.inr ⟨r.1, rfl, hwf⟩

end

end Lua2wasm.Syntax
