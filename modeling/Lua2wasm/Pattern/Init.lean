import Lua2wasm.Pattern.Reference

/-!
# The start of a search

`string.find` and `string.match` narrow their third argument to 32 bits before they look at its sign. The position
that they start at (`startPos`) is the one that Lua prescribes (`luaStart`) exactly when that does no harm
(`StartKept`): the number fits, or it is beyond the subject on one side and still is when narrowed.
-/

namespace Lua2wasm.Pattern

open Table (Fault)

/-- What `string.find` does once its start is known. -/
def findStarted (sub pat : List UInt8) (plain : Bool) : Option ℕ → Except Fault (List PatVal)
  | none => pure [.nil]
  | some sp =>
    if plain then do
      let r ← plainFind sub sp pat
      match r with
      | none => pure [.nil]
      | some stop => pure [.int ((stop : ℤ) - pat.length + 1), .int stop]
    else do
      let (r, caps) ← search sub pat sp
      match r with
      | none => pure [.nil]
      | some (sp, stop, ncaps) => do
        let vs ← capValues sub caps ncaps 0
        pure (.int (sp + 1) :: .int stop :: vs)

/-- What `string.match` does once its start is known. -/
def matchStarted (sub pat : List UInt8) : Option ℕ → Except Fault (List PatVal)
  | none => pure [.nil]
  | some sp => do
    let (r, caps) ← search sub pat sp
    match r with
    | none => pure [.nil]
    | some (sp, stop, ncaps) => matchValues sub caps sp stop ncaps

/-- For a subject of `n` bytes the narrowed number `wrap32 v` gives the start of `v`: it is the same number, or `v`
is beyond the end and `wrap32 v` as well, or `v` is far before the first byte and `wrap32 v` is not behind it. -/
def StartKept (n : ℕ) (v : Int64) : Prop :=
  -2^31 ≤ v.toInt ∧ v.toInt < 2^31 ∨ 2^31 ≤ v.toInt ∧ (n : ℤ) + 1 < wrap32 v ∨
    v.toInt < -2^31 ∧ (wrap32 v ≤ -n ∨ wrap32 v = 0 ∨ wrap32 v = 1)

section

variable {sub pat : List UInt8} {v : Int64}

theorem find_eq_findStarted (init : Option Int64) (plain : Bool) :
    find sub pat init plain = findStarted sub pat plain (startPos sub init) := by
  unfold find findStarted
  cases startPos sub init with
  | none => rfl
  | some sp => rfl

theorem matchStr_eq_matchStarted (init : Option Int64) :
    matchStr sub pat init = matchStarted sub pat (startPos sub init) := by
  unfold matchStr matchStarted
  cases startPos sub init with
  | none => rfl
  | some sp => rfl

/-- The start from the number that is used, narrowed or not. -/
theorem startPos_eq_normStrInit (sub : List UInt8) (v : Int64) :
    startPos sub (some v) = if normStrInit (wrap32 v) sub.length > sub.length + 1 then none
      else some (normStrInit (wrap32 v) sub.length - 1).toNat := rfl

theorem luaStart_eq_normStrInit (sub : List UInt8) (v : Int64) :
    luaStart sub (some v) = if normStrInit v.toInt sub.length > sub.length + 1 then none
      else some (normStrInit v.toInt sub.length - 1).toNat := by
  have hlua : luaStart sub (some v) = if normStrInit v.toInt sub.length - 1 > sub.length then none
      else some (normStrInit v.toInt sub.length - 1).toNat := by
    rw [normStrInit_eq]
    rfl
  rw [hlua]
  by_cases hend : normStrInit v.toInt sub.length > sub.length + 1
  · rw [if_pos hend, if_pos (by omega)]
  · rw [if_neg hend, if_neg (by omega)]

theorem one_le_normStrInit (z : ℤ) (n : ℕ) : 1 ≤ normStrInit z n := by
  rw [normStrInit_eq]
  split_ifs <;> omega

theorem startPos_eq_iff (hsub : sub.length + 1 < 2^31) :
    startPos sub (some v) = luaStart sub (some v) ↔ StartKept sub.length v := by
  have hfits := @wrap32_eq v
  rw [startPos_eq_normStrInit, luaStart_eq_normStrInit]
  -- the two numbers as they are normalised
  have h₁ := one_le_normStrInit (wrap32 v) sub.length
  have h₂ := one_le_normStrInit v.toInt sub.length
  have hsame : ((if normStrInit (wrap32 v) sub.length > sub.length + 1 then none
      else some (normStrInit (wrap32 v) sub.length - 1).toNat) =
      if normStrInit v.toInt sub.length > sub.length + 1 then none
      else some (normStrInit v.toInt sub.length - 1).toNat) ↔
      normStrInit (wrap32 v) sub.length > sub.length + 1 ∧ normStrInit v.toInt sub.length > sub.length + 1 ∨
        normStrInit (wrap32 v) sub.length = normStrInit v.toInt sub.length := by
    split_ifs with ha hb hb
    · exact iff_of_true rfl (Or.inl ⟨ha, hb⟩)
    · exact iff_of_false (by simp) (by omega)
    · exact iff_of_false (by simp) (by omega)
    · rw [Option.some_inj]
      omega
  rw [hsame]
  unfold StartKept
  by_cases hv : -2^31 ≤ v.toInt ∧ v.toInt < 2^31
  · rw [hfits hv]
    exact iff_of_true (Or.inr rfl) (Or.inl hv)
  · rw [normStrInit_eq, normStrInit_eq]
    split_ifs <;> omega

end

/-- `string.find` and `string.match` search from `startPos`, and that is the start that Lua prescribes exactly for the
numbers that narrowing does no harm to. -/
theorem find_match_start (sub pat : List UInt8) (v : Int64) (plain : Bool) (hsub : sub.length + 1 < 2^31) :
    find sub pat (some v) plain = findStarted sub pat plain (startPos sub (some v)) ∧
      matchStr sub pat (some v) = matchStarted sub pat (startPos sub (some v)) ∧
      (startPos sub (some v) = luaStart sub (some v) ↔ StartKept sub.length v) :=
  ⟨find_eq_findStarted _ _, matchStr_eq_matchStarted _, startPos_eq_iff hsub⟩

/-- The subject `a` and the pattern `a` from -1. -/
theorem find_match_start_last :
    find [97] [97] (some (-1)) true = findStarted [97] [97] true (startPos [97] (some (-1))) ∧
      matchStr [97] [97] (some (-1)) = matchStarted [97] [97] (startPos [97] (some (-1))) ∧
      (startPos [97] (some (-1)) = luaStart [97] (some (-1)) ↔ StartKept 1 (-1)) :=
  find_match_start [97] [97] (-1) true (by decide)

/-- A start of `2^32 + 1` in a subject of one byte: the search begins at the first. -/
theorem find_start_wraps : luaStart [97] (some 4294967297) = none ∧
    find [97] [97] (some 4294967297) true = .ok [.int 1, .int 1] := by decide

end Lua2wasm.Pattern
