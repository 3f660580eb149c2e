import Lua2wasm.Operators.Metamethods

/-!
# Equality

`$lua_eq_raw` of `runtime/prelude/arith.wat` beside the equality of the language (`luaEquality`). The two differ for two
tables only. The code asks the first one for `__eq`, and compares by identity if it has none; the language compares by
identity first, and asks the second one if the first has none. So a table with `__eq` may differ from itself, and the
`__eq` of the second one is not found: `luaEqRaw_eq_luaEquality_iff`.
-/

namespace Lua2wasm.Operators

open Raising Refs Strings
open Table (Fault)

/-- `$lua_eq_raw`. Its branch for two tables is here, the others are in `Refs.luaEqRaw`. -/
def luaEqRaw (env : Env) (a b : Ref) : OpM Bool :=
  match a, b with
  | .table x, .table y =>
    let mm := getMetamethod env (.table x) .eq
    if mm = .null then pure (x = y)
    else do
      let v ← callMm1 env mm (.table x) (.table y)
      pure (luaTruthy v)
  | a, b => onStrings (Refs.luaEqRaw (fun _ _ => throw .stuck) a b)

/-- Whether two values are tables. -/
def Ref.twoTables : Ref → Ref → Bool
  | .table _, .table _ => true
  | _, _ => false

/-- The equality of the language. -/
def luaEquality (env : Env) (a b : Ref) : OpM Bool := do
  let same ← onStrings (luaRawequal a b)
  if same then pure true
  else if Ref.twoTables a b then
    let mm := getMetamethod env a .eq
    let mm := if mm = .null then getMetamethod env b .eq else mm
    if mm = .null then pure false
    else do
      let v ← callMm1 env mm a b
      pure (luaTruthy v)
  else pure false

/-- A table with `__eq` is compared with itself, or one without it with another one that has it. -/
def EqMissed (env : Env) (a b : Ref) : Prop :=
  Ref.twoTables a b = true ∧
    (a = b ∧ getMetamethod env a .eq ≠ .null ∨
      a ≠ b ∧ getMetamethod env a .eq = .null ∧ getMetamethod env b .eq ≠ .null)

variable {env : Env} {s : OpState} {a b : Ref} {x y : ℕ}

/-! ## Values that are not two tables -/

/-- Two small integers are equal when their numbers are. -/
theorem luaRawequal_i31 {m n : Int32} (hm : Table.isI31 m.toInt64 = true) (hn : Table.isI31 n.toInt64 = true) :
    luaRawequal (.i31 m hm) (.i31 n hn) = pure (decide (m = n)) := by
  have heq : (m.toInt64 = n.toInt64) = (m = n) := by
    apply propext
    constructor
    · intro h
      rw [← Int32.toInt32_toInt64 m, h, Int32.toInt32_toInt64]
    · exact congrArg _
  have hnum : numEq (.i31 m hm) (.i31 n hn) = decide (m = n) := by
    change decide (m.toInt64 = n.toInt64) = _
    simp only [heq]
  rw [← hnum]
  rfl

/-- The metamethods come in for two tables only. -/
theorem luaEqRaw_eq_luaRawequal (eqMm : ℕ → ℕ → StrM Bool) (h : Ref.twoTables a b = false) :
    Refs.luaEqRaw eqMm a b = luaRawequal a b := by
  cases a with
  | i31 m hm =>
    cases b with
    | i31 n hn => exact (luaRawequal_i31 hm hn).symm
    | _ => rfl
  | table x =>
    cases b with
    | table y => cases h
    | _ => rfl
  | _ => rfl

theorem luaEqRaw_of_not_tables (h : Ref.twoTables a b = false) :
    luaEqRaw env a b = onStrings (luaRawequal a b) := by
  rw [← luaEqRaw_eq_luaRawequal (fun _ _ => throw .stuck) h]
  cases a with
  | table x =>
    cases b with
    | table y => cases h
    | _ => rfl
  | _ => rfl

theorem luaEquality_of_not_tables (h : Ref.twoTables a b = false) :
    luaEquality env a b = onStrings (luaRawequal a b) := by
  have hid : ∀ same : Bool, (if same then pure true else (pure false : OpM Bool)) = pure same := by
    rintro (_ | _) <;> rfl
  unfold luaEquality
  simp only [h, Bool.false_eq_true, if_false, hid, bind_pure]

/-! ## Two tables -/

theorem luaRawequal_tables (x y : ℕ) : luaRawequal (.table x) (.table y) = pure (decide (x = y)) := by
  have heq : (Ref.table x = Ref.table y) = (x = y) := propext ⟨fun h => Ref.table.inj h, congrArg _⟩
  unfold luaRawequal
  simp only [reduceCtorEq, and_self, or_self, if_false, Ref.isInt, Ref.isFloat, Bool.or_self, Bool.and_self,
    Bool.false_eq_true, heq]

/-- The language, on a table and itself. -/
theorem luaEquality_self (x : ℕ) : luaEquality env (.table x) (.table x) = pure true := by
  unfold luaEquality
  rw [luaRawequal_tables, decide_eq_true rfl]
  rfl

/-- The language, on two different tables. -/
theorem luaEquality_tables (h : x ≠ y) : luaEquality env (.table x) (.table y) =
    (let mm := getMetamethod env (.table x) .eq
     let mm := if mm = .null then getMetamethod env (.table y) .eq else mm
     if mm = .null then pure false
     else do
       let v ← callMm1 env mm (.table x) (.table y)
       pure (luaTruthy v)) := by
  unfold luaEquality
  rw [luaRawequal_tables, decide_eq_false h]
  rfl

/-- A comparison that calls a metamethod leaves a call in the state. -/
theorem call_calls (env : Env) (mm a b : Ref) (s : OpState) :
    Meets (do
      let v ← callMm1 env mm a b
      pure (luaTruthy v)) s (fun _ s' => s'.calls = ⟨mm, a, b⟩ :: s.calls)
      (fun _ s' => s'.calls = ⟨mm, a, b⟩ :: s.calls) := by
  apply ((callMm1_calls env mm a b s).imp_error fun _ _ h => h.1).bind
  rintro v s' ⟨h, -⟩
  exact meets_pure h

/-- It does not end as one that returns at once. -/
theorem call_ne_pure (env : Env) (mm a b : Ref) (r : Bool) (s : OpState) :
    ((do
      let v ← callMm1 env mm a b
      pure (luaTruthy v) : OpM Bool).run s : Except Fault Bool × OpState) ≠ (.ok r, s) := by
  intro hrun
  have hcalls := (call_calls env mm a b s).of_ok hrun
  exact List.ne_cons_self hcalls

/-- `==` is the equality of the language, calls of metamethods included, unless an `__eq` is called or missed. -/
theorem luaEqRaw_eq_luaEquality_iff (env : Env) (a b : Ref) (s : OpState) :
    ((luaEqRaw env a b).run s : Except Fault Bool × OpState) = (luaEquality env a b).run s ↔ ¬ EqMissed env a b := by
  unfold EqMissed
  cases htables : Ref.twoTables a b with
  | false =>
    rw [luaEqRaw_of_not_tables htables, luaEquality_of_not_tables htables]
    simp only [Bool.false_eq_true, false_and, not_false_iff]
  | true =>
    obtain ⟨x, y, rfl, rfl⟩ : ∃ x y, a = .table x ∧ b = .table y := by
      cases a with
      | table x =>
        cases b with
        | table y => exact ⟨x, y, rfl, rfl⟩
        | _ => cases htables
      | _ => cases htables
    change ((if getMetamethod env (.table x) .eq = .null then pure (decide (x = y)) else _ : OpM Bool).run s :
      Except Fault Bool × OpState) = _ ↔ _
    by_cases hxy : x = y
    · subst hxy
      rw [luaEquality_self]
      by_cases hmm : getMetamethod env (.table x) .eq = .null
      · rw [if_pos hmm, decide_eq_true rfl]
        simp [hmm]
      · rw [if_neg hmm]
        simp only [hmm, ne_eq, not_false_iff, and_self, true_or, not_true_eq_false, iff_false]
        exact call_ne_pure env _ _ _ true s
    · have hne : Ref.table x ≠ Ref.table y := fun h => hxy (Ref.table.inj h)
      rw [luaEquality_tables hxy]
      dsimp only
      by_cases hmm : getMetamethod env (.table x) .eq = .null
      · rw [if_pos hmm, if_pos hmm, decide_eq_false hxy]
        by_cases hmm' : getMetamethod env (.table y) .eq = .null
        · rw [if_pos hmm']
          simp [hne, hmm']
        · rw [if_neg hmm']
          simp only [hne, hmm, hmm', ne_eq, not_false_iff, and_self, or_true, not_true_eq_false, iff_false]
          exact fun h => call_ne_pure env _ _ _ false s h.symm
      · rw [if_neg hmm, if_neg hmm, if_neg hmm]
        simp [hne, hmm]

/-- `t == t` is false for a table whose `__eq` says so. -/
theorem luaEqRaw_odd : ¬ ∀ (env : Env) (a b : Ref) (s : OpState),
    ((luaEqRaw env a b).run s : Except Fault Bool × OpState) = (luaEquality env a b).run s := by
  intro hall
  have h := hall falseEnv (.table 1) (.table 1) ⟨StrHeap.init, 0, []⟩
  rw [luaEquality_self] at h
  have hfalse : ((luaEqRaw falseEnv (.table 1) (.table 1)).run ⟨StrHeap.init, 0, []⟩ : Except Fault Bool × OpState).1 =
      .ok false := rfl
  rw [h] at hfalse
  cases hfalse

end Lua2wasm.Operators
