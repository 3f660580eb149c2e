import Lua2wasm.Parser

/-!
# Trees that hold together

Which trees a parser can give (`wfBlock`). Parentheses are nodes of the tree, so a tree has no place for others: the
operands of an operator have to be such that they hold together by themselves. `lead` says at which precedence an
expression can be read as a whole, and `stop` which operators behind it do not go into its last operand.
-/

namespace Lua2wasm.Syntax

open Lexer (Token TokKind Sym)

/-! ## Tokens of operators -/

/-- The token of a binary operator. -/
def binaryTok : BinOp → TokKind
  | .or => .kwOr | .and => .kwAnd | .eq => .eq | .neq => .neq | .lt => .lt | .le => .le | .gt => .gt | .ge => .ge
  | .bor => .pipe | .bxor => .tilde | .band => .amp | .shl => .shl | .shr => .shr | .concat => .concat | .add => .plus
  | .sub => .minus | .mul => .star | .div => .slash | .fdiv => .dslash | .mod => .percent | .pow => .caret

/-- The precedence of a binary operator. -/
def binaryPrec : BinOp → ℕ
  | .or => 1
  | .and => 2
  | .eq | .neq | .lt | .le | .gt | .ge => 3
  | .bor => 4
  | .bxor => 5
  | .band => 6
  | .shl | .shr => 7
  | .concat => 8
  | .add | .sub => 9
  | .mul | .div | .fdiv | .mod => 10
  | .pow => 12

/-- The token of a unary operator. -/
def unaryTok : UnOp → TokKind
  | .neg => .minus
  | .not => .kwNot
  | .len => .hash
  | .bnot => .tilde

/-- The precedence of a token as a binary operator, zero if it is none. -/
def precOf (y : Sym) : ℕ := ((binary y).map Prod.snd).getD 0

theorem binary_some {y : Sym} {o : BinOp × ℕ} (h : binary y = some o) :
    y = .tok (binaryTok o.1) ∧ o.2 = binaryPrec o.1 := by
  rcases y with s | i | x | s | kind
  all_goals try cases h
  cases kind <;> cases h <;> exact ⟨rfl, rfl⟩

theorem unary_some {y : Sym} {op : UnOp} (h : unary y = some op) : y = .tok (unaryTok op) := by
  rcases y with s | i | x | s | kind
  all_goals try cases h
  cases kind <;> cases h <;> rfl

theorem precOf_binaryTok (op : BinOp) : precOf (.tok (binaryTok op)) = binaryPrec op := by
  cases op <;> rfl

/-! ## Trees that hold together -/

/-- What a prefix expression may be: all but operators. -/
def isChain : RawExpr → Bool
  | .unop _ _ | .binop _ _ _ => false
  | _ => true

/-- The highest precedence at which an expression is read as a whole. -/
def lead : RawExpr → ℕ
  | .binop op _ _ => binaryPrec op
  | _ => 13

/-- The operators behind an expression that are below this precedence do not go into it. -/
def stop : RawExpr → ℕ
  | .binop op _ r => min (nextMin op (binaryPrec op)) (stop r)
  | .unop _ e => min precUnary (stop e)
  | _ => 14

/-- Whether a prefix expression begins with a name or a parenthesis. -/
def opens : RawExpr → Bool
  | .name _ | .paren _ => true
  | .call f _ => opens f
  | .index t _ => opens t
  | .methodCall r _ _ => opens r
  | _ => false

mutual

/-- Expressions that hold together. -/
def wfExpr : RawExpr → Prop
  | .paren e => wfExpr e
  | .function f => wfFunc f
  | .table es => wfEntries es
  | .call f args => isChain f = true ∧ wfExpr f ∧ wfExprs args
  | .index t k => isChain t = true ∧ wfExpr t ∧ wfExpr k
  | .methodCall r _ args => isChain r = true ∧ wfExpr r ∧ wfExprs args
  | .unop _ e => precUnary ≤ lead e ∧ wfExpr e
  | .binop op l r => binaryPrec op < stop l ∧ nextMin op (binaryPrec op) ≤ lead r ∧ wfExpr l ∧ wfExpr r
  | _ => True

/-- Lists of expressions. -/
def wfExprs : List RawExpr → Prop
  | [] => True
  | e :: es => wfExpr e ∧ wfExprs es

/-- Entries of a table. -/
def wfEntry : RawEntry → Prop
  | .positional v => wfExpr v
  | .keyExpr k v => wfExpr k ∧ wfExpr v

/-- Lists of entries. -/
def wfEntries : List RawEntry → Prop
  | [] => True
  | e :: es => wfEntry e ∧ wfEntries es

/-- Functions. -/
def wfFunc : RawFunc → Prop
  | .mk _ _ body => wfBlock body

/-- Arms of an `if`. -/
def wfArm : RawArm → Prop
  | .mk c b => wfExpr c ∧ wfBlock b

/-- Lists of arms. -/
def wfArms : List RawArm → Prop
  | [] => True
  | a :: as => wfArm a ∧ wfArms as

/-- The step of a numeric `for`. -/
def wfStep : Option RawExpr → Prop
  | none => True
  | some e => wfExpr e

/-- Statements. -/
def wfStmt : RawStmt → Prop
  | .localStmt names values =>
    names ≠ [] ∧ (names.filter fun x => x.2 = .close).length ≤ 1 ∧ wfExprs values
  | .localFunc _ f => wfFunc f
  | .globalFunc _ f => wfFunc f
  | .globalAll attrib => attrib ≠ .close
  | .globalDecl names values => names ≠ [] ∧ (∀ x ∈ names, x.2 ≠ .close) ∧ wfExprs values
  | .functionStmt _ _ _ f => wfFunc f
  | .assign targets values =>
    targets.head?.any opens = true ∧ targets.all isTarget = true ∧ wfExprs targets ∧ values ≠ [] ∧ wfExprs values
  | .exprStmt e => isCall e = true ∧ opens e = true ∧ wfExpr e
  | .ifStmt arms hasElse elseBody => arms ≠ [] ∧ (hasElse = false → elseBody = []) ∧ wfArms arms ∧ wfBlock elseBody
  | .whileStmt c b => wfExpr c ∧ wfBlock b
  | .doStmt b => wfBlock b
  | .returnStmt values => wfExprs values
  | .forNum _ start stop step b => wfExpr start ∧ wfExpr stop ∧ wfStep step ∧ wfBlock b
  | .forGen names exprs b => names ≠ [] ∧ exprs ≠ [] ∧ wfExprs exprs ∧ wfBlock b
  | .repeatStmt b c => wfBlock b ∧ wfExpr c
  | _ => True

/-- Blocks. -/
def wfBlock : List RawStmt → Prop
  | [] => True
  | s :: b => wfStmt s ∧ wfBlock b

end

/-! ## Lists of the tree -/

theorem wfExprs_iff {es : List RawExpr} : wfExprs es ↔ ∀ e ∈ es, wfExpr e := by
  induction es with
  | nil => simp [wfExprs]
  | cons e es ih => simp [wfExprs, ih]

theorem wfEntries_iff {es : List RawEntry} : wfEntries es ↔ ∀ e ∈ es, wfEntry e := by
  induction es with
  | nil => simp [wfEntries]
  | cons e es ih => simp [wfEntries, ih]

theorem wfArms_iff {as : List RawArm} : wfArms as ↔ ∀ a ∈ as, wfArm a := by
  induction as with
  | nil => simp [wfArms]
  | cons a as ih => simp [wfArms, ih]

theorem wfBlock_iff {b : List RawStmt} : wfBlock b ↔ ∀ s ∈ b, wfStmt s := by
  induction b with
  | nil => simp [wfBlock]
  | cons s b ih => simp [wfBlock, ih]

end Lua2wasm.Syntax
