import Lua2wasm.Pattern.Successive
import Lua2wasm.Pattern.Reference

/-!
# `string.gmatch` against `string.gsub`

The iterator of `string.gmatch` keeps the end of the last match in an upvalue, the loop of `string.gsub` in a local,
and each steps over empty matches in its own way. They go through the same matches (`gmatch_eq_gsub`), with two
differences by design: the iterator has no anchor, so that `^` at the start of a pattern is a byte as any other, and
it goes on in the whole subject, so that positions count from its start and `%f` sees the byte before.

The position that `string.gmatch` starts at is that of `string.find` where it is not negative and fits (`InitKept`).
-/

namespace Lua2wasm.Pattern

open Table (Fault)
open Pack (chr orTrap)

variable {α : Type}

/-! ## What an iterator yields -/

/-- What the first calls of an iterator yield, up to its end or to an error. -/
def yields (next : GmatchState → Except Fault (Option α × GmatchState)) : ℕ → GmatchState → Outcomes Fault α
  | 0, _ => []
  | n + 1, st =>
    match next st with
    | .error e => [.error e]
    | .ok (none, _) => []
    | .ok (some x, st) => .ok x :: yields next n st

/-- The generic entry in a loop, which ends where there are no values. -/
def iterNext (sub pat : List UInt8) (st : GmatchState) : Except Fault (Option (List PatVal) × GmatchState) := do
  let (vs, st) ← gmatchIter sub pat st
  pure (if vs = [] then none else some vs, st)

/-- The fast entry in a loop, which ends at nil. -/
def iterNextF (sub pat : List UInt8) (st : GmatchState) : Except Fault (Option PatVal × GmatchState) := do
  let (v, st) ← gmatchIterF sub pat st
  pure (if v = .nil then none else some v, st)

/-- The values of matches, up to one without and to an error. -/
def valuesOf (f : ℕ → ℕ → List Cap → Option α) : Outcomes PatError Match → Outcomes Fault α
  | [] => []
  | .error _ :: _ => [.error .stuck]
  | .ok (sp, stop, caps) :: ms =>
    match f sp stop caps with
    | none => [.error .stuck]
    | some x => .ok x :: valuesOf f ms

/-- The first value of a match. -/
def firstValue (sub : List UInt8) (sp stop : ℕ) (caps : List Cap) : Option PatVal :=
  (wholeOr sub sp stop (caps.take 1)).bind List.head?

/-- The matches of `string.gmatch`. -/
def gmatchMatches (sub pat : List UInt8) (init : Option Int64) : Outcomes PatError Match :=
  match luaStart sub init with
  | none => []
  | some sp => matchesFrom walkRules sub pat 0 false sp (-1)

/-- A start that is not negative, or that counts from the end to the start or before, in 32 bits. -/
def InitKept (sub : List UInt8) (init : Option Int64) : Prop :=
  InitFits init ∧ ∀ v, init = some v → 0 ≤ v.toInt ∨ v.toInt ≤ -sub.length

/-! ## `string.gsub` from a position -/

/-- The loop of `string.gsub` from a position on, and what comes after it. -/
def gsubAt (sub pat : List UInt8) (repl : Repl) (limit : ℤ) (sp : ℕ) : Except Fault (List PatVal) := do
  let st ← gsubFrom sub pat repl limit (sub.length + 2) ⟨sp, 0, sp, -1, [], newCaps⟩
  gsubFinish sub st

/-- The pattern where `^` at the start is a byte as any other. -/
def unanchored (pat : List UInt8) : List UInt8 := if patAnchorStart pat = 1 then chr '%' :: pat else pat

variable {sub pat : List UInt8} {sp stop : ℕ} {caps : List Cap} {arr : List ℤ} {st : GmatchState}

theorem gsubAt_agrees (repl : Repl) (limit : ℤ) :
    Agrees sub [] 0 ((matchesFrom walkRules sub pat (patAnchorStart pat) (patAnchorStart pat = 1) sp (-1)).take
        limit.toNat).length
      (substitute sub repl 0 sp ((matchesFrom walkRules sub pat (patAnchorStart pat) (patAnchorStart pat = 1) sp
        (-1)).take limit.toNat))
      (gsubAt sub pat repl limit sp) := by
  have hloop := gsubFrom_agrees sub pat repl limit (sub.length + 2) ⟨sp, 0, sp, -1, [], newCaps⟩ _ rfl (le_refl sp)
    (Nat.zero_le _) (by change (-1 : ℤ) ≤ sp; omega) (by change sub.length + 1 - sp < _; omega) rfl
  rw [Nat.cast_zero, sub_zero] at hloop
  exact hloop

/-! ## The calls of an iterator -/

/-- One search of an iterator, and where it goes on. -/
theorem gmatchNext_spec (hst : st.caps.length = 64) :
    match nextMatch walkRules sub pat 0 false st.src st.lastmatch with
    | .error _ => gmatchNext sub pat st = .error .stuck
    | .ok none => ∃ st', gmatchNext sub pat st = .ok (none, st')
    | .ok (some (sp, stop, caps)) =>
      ∃ arr', gmatchNext sub pat st = .ok (some (sp, stop, caps.length), ⟨stop, stop, arr'⟩) ∧
        Holds arr' caps ∧ Placed sub stop caps ∧ sp ≤ stop := by
  have hspec := gmatchNextFrom_spec sub pat st.lastmatch (sub.length + 2) st.src st.caps hst (by omega)
  change Finds sub _ (nextMatch walkRules sub pat 0 false st.src st.lastmatch) at hspec
  unfold gmatchNext
  cases hr : nextMatch walkRules sub pat 0 false st.src st.lastmatch with
  | error e =>
    rw [hr] at hspec
    rw [show gmatchNextFrom _ _ _ _ _ _ = .error .stuck from hspec]
    rfl
  | ok r =>
    rw [hr] at hspec
    cases r with
    | none =>
      obtain ⟨arr', hrun, -⟩ := hspec
      rw [hrun]
      exact ⟨_, rfl⟩
    | some m =>
      obtain ⟨arr', hrun, hrest⟩ := hspec
      rw [hrun]
      exact ⟨arr', rfl, hrest⟩

/-- What an entry of an iterator yields for a match. -/
def Yields (sub pat : List UInt8) (next : GmatchState → Except Fault (Option α × GmatchState))
    (f : ℕ → ℕ → List Cap → Option α) : Prop :=
  ∀ st : GmatchState, st.caps.length = 64 →
    match nextMatch walkRules sub pat 0 false st.src st.lastmatch with
    | .error _ => next st = .error .stuck
    | .ok none => ∃ st', next st = .ok (none, st')
    | .ok (some (sp, stop, caps)) =>
      match f sp stop caps with
      | none => next st = .error .stuck
      | some x => ∃ arr', next st = .ok (some x, ⟨stop, stop, arr'⟩) ∧ arr'.length = 64

/-- The calls of an iterator, one match after the other. -/
theorem yields_eq {next : GmatchState → Except Fault (Option α × GmatchState)}
    {f : ℕ → ℕ → List Cap → Option α} (hnext : Yields sub pat next f) :
    ∀ (n : ℕ) (st : GmatchState), st.caps.length = 64 →
      yields next n st = (valuesOf f (matchesFrom walkRules sub pat 0 false st.src st.lastmatch)).take n := by
  intro n
  induction n with
  | zero => exact fun _ _ => List.take_zero.symm
  | succ n ih =>
    intro st hst
    have hspec := hnext st hst
    unfold yields
    rw [matchesFrom_next walkRules_forward]
    cases hr : nextMatch walkRules sub pat 0 false st.src st.lastmatch with
    | error e =>
      rw [hr] at hspec
      rw [hspec]
      change [Except.error Fault.stuck] = List.take (n + 1) [Except.error Fault.stuck]
      rw [List.take_succ_cons, List.take_nil]
    | ok r =>
      rw [hr] at hspec
      cases r with
      | none =>
        obtain ⟨st', hrun⟩ := hspec
        rw [hrun]
        rfl
      | some m =>
        obtain ⟨sp, stop, caps⟩ := m
        dsimp only at hspec ⊢
        rw [if_neg Bool.false_ne_true]
        unfold valuesOf
        cases hf : f sp stop caps with
        | none =>
          rw [hf] at hspec
          dsimp only at hspec ⊢
          rw [hspec, List.take_succ_cons, List.take_nil]
        | some x =>
          rw [hf] at hspec
          obtain ⟨arr', hrun, harr'⟩ := hspec
          rw [hrun]
          dsimp only
          rw [ih ⟨stop, stop, arr'⟩ harr', List.take_succ_cons]

/-- A match has a value. -/
theorem wholeOr_ne_nil {vs : List PatVal} (h : wholeOr sub sp stop caps = some vs) : vs ≠ [] := by
  unfold wholeOr at h
  by_cases hcaps : caps = []
  · rw [if_pos hcaps] at h
    cases h
    exact List.cons_ne_nil _ _
  · rw [if_neg hcaps] at h
    rintro rfl
    cases caps with
    | nil => exact hcaps rfl
    | cons c caps =>
      rw [List.mapM_cons] at h
      cases hc : c.value sub with
      | none =>
        rw [hc] at h
        cases h
      | some v =>
        rw [hc] at h
        cases hvs : caps.mapM (Cap.value sub) with
        | none =>
          rw [hvs] at h
          cases h
        | some vs =>
          rw [hvs] at h
          cases h

/-- The generic entry yields the captures. -/
theorem iterNext_yields : Yields sub pat (iterNext sub pat) (wholeOr sub) := by
  intro st hst
  have hspec := @gmatchNext_spec sub pat st hst
  unfold iterNext gmatchIter
  cases hr : nextMatch walkRules sub pat 0 false st.src st.lastmatch with
  | error e =>
    rw [hr] at hspec
    dsimp only at hspec ⊢
    rw [hspec]
    rfl
  | ok r =>
    rw [hr] at hspec
    cases r with
    | none =>
      obtain ⟨st', hrun⟩ := hspec
      rw [hrun]
      exact ⟨st', rfl⟩
    | some m =>
      obtain ⟨sp, stop, caps⟩ := m
      obtain ⟨arr', hrun, hh, hp, hle⟩ := hspec
      have hvals := matchValues_eq hh hp hle
      rw [hrun, Pack.ok_bind]
      dsimp only
      rw [hvals]
      cases hvs : wholeOr sub sp stop caps with
      | none => rfl
      | some vs =>
        refine ⟨arr', ?_, hh.length_arr⟩
        change Except.ok (if vs = [] then none else some vs, _) = _
        rw [if_neg (wholeOr_ne_nil hvs)]

/-- The fast entry yields the first capture. -/
theorem iterNextF_yields : Yields sub pat (iterNextF sub pat) (firstValue sub) := by
  intro st hst
  have hspec := @gmatchNext_spec sub pat st hst
  unfold iterNextF gmatchIterF
  cases hr : nextMatch walkRules sub pat 0 false st.src st.lastmatch with
  | error e =>
    rw [hr] at hspec
    dsimp only at hspec ⊢
    rw [hspec]
    rfl
  | ok r =>
    rw [hr] at hspec
    cases r with
    | none =>
      obtain ⟨st', hrun⟩ := hspec
      rw [hrun]
      exact ⟨st', rfl⟩
    | some m =>
      obtain ⟨sp, stop, caps⟩ := m
      obtain ⟨arr', hrun, hh, hp, hle⟩ := hspec
      have hwhole := whole_eq hle hp.le
      rw [hrun, Pack.ok_bind]
      dsimp only
      cases caps with
      | nil =>
        rw [if_pos List.length_nil, hwhole]
        exact ⟨arr', rfl, hh.length_arr⟩
      | cons c caps =>
        have hval := capToValue_eq hh hp (i := 0) (c := c) rfl
        rw [if_neg (by rw [List.length_cons]; exact Nat.succ_ne_zero _), hval]
        cases c with
        | unclosed start => rfl
        | closed start len => exact ⟨arr', rfl, hh.length_arr⟩
        | position start => exact ⟨arr', rfl, hh.length_arr⟩

/-! ## Where it starts -/

/-- Where the search of an iterator starts, it has the matches. -/
theorem gmatchMatches_eq {init : Option Int64} (hinit : InitKept sub init) :
    gmatchMatches sub pat init =
      matchesFrom walkRules sub pat 0 false (gmatch init).src (gmatch init).lastmatch := by
  obtain ⟨hfits, hkept⟩ := hinit
  -- the start that is clamped is the start of a find
  have hstart : luaStart sub init = if (gmatch init).src > sub.length then none else some (gmatch init).src := by
    cases init with
    | none => rfl
    | some v =>
      have hv := hkept v rfl
      have hsrc : (gmatch (some v)).src = (max v.toInt 1 - 1).toNat := by
        rw [← wrap32_eq (hfits v rfl)]
        rfl
      have hpos : (if 0 < v.toInt then v.toInt else if v.toInt = 0 ∨ v.toInt < -sub.length then 1
          else sub.length + v.toInt + 1) = max v.toInt 1 := by
        split_ifs <;> omega
      rw [hsrc]
      unfold luaStart
      dsimp only
      rw [hpos]
      by_cases hend : max v.toInt 1 - 1 > sub.length
      · rw [if_pos hend, if_pos (by omega)]
      · rw [if_neg hend, if_neg (by omega)]
  unfold gmatchMatches
  rw [hstart]
  by_cases hend : (gmatch init).src > sub.length
  · rw [if_pos hend, matchesFrom_beyond walkRules_forward hend]
  · rw [if_neg hend]
    rfl

/-! ## `^` as a byte -/

/-- The fuel does not matter, if it is enough. -/
theorem itemsOf_fuel : ∀ (fuel fuel' : ℕ) (text : List UInt8), text.length < fuel → text.length < fuel' →
    itemsOf fuel text = itemsOf fuel' text := by
  intro fuel
  induction fuel with
  | zero =>
    intro fuel' text h
    omega
  | succ fuel ih =>
    intro fuel' text h h'
    cases fuel' with
    | zero => omega
    | succ fuel' =>
      cases text with
      | nil => rfl
      | cons b r =>
        have hlen := readItem_length b r
        rw [List.length_cons] at h h'
        unfold itemsOf
        rw [ih fuel' _ (by omega) (by omega)]

/-- A class with the same bytes has the same outcomes. -/
theorem quantified_congr {R : Rules} {c c' : PClass} (h : R.has c = R.has c') (q : Quant) (s : ℕ)
    (k : ℕ → Outcomes PatError (ℕ × List Cap)) : quantified R sub c q s k = quantified R sub c' q s k := by
  have hcount : ∀ fuel s, countFrom R sub c fuel s = countFrom R sub c' fuel s := by
    intro fuel
    induction fuel with
    | zero => exact fun _ => rfl
    | succ fuel ih =>
      intro s
      unfold countFrom
      rw [h, ih]
  have hlazy : ∀ fuel s, lazyFrom R sub c k fuel s = lazyFrom R sub c' k fuel s := by
    intro fuel
    induction fuel with
    | zero => exact fun _ => rfl
    | succ fuel ih =>
      intro s
      unfold lazyFrom once
      rw [h, ih]
  unfold quantified once greedy
  rw [h, hcount, hlazy]

/-- `^` after `%` is the byte. -/
theorem matchAt_escaped (r : List UInt8) :
    matchAt walkRules sub (chr '^' :: r) 0 sp = matchAt walkRules sub (chr '%' :: chr '^' :: r) 0 sp := by
  have hitem : readItem (chr '^') r = (.single (.lit (chr '^')) (readQuant r).1, (readQuant r).2) := by
    unfold readItem
    rw [if_neg (fun h => absurd h.1 (by decide)), if_neg (by decide), if_neg (by decide), if_neg (by decide)]
    rfl
  have hitem' : readItem (chr '%') (chr '^' :: r) = (.single (.esc (chr '^')) (readQuant r).1, (readQuant r).2) := by
    unfold readItem
    rw [if_neg (fun h => absurd h.1 (by decide)), if_neg (by decide), if_neg (by decide), if_pos rfl]
    rfl
  have hhas : walkRules.has (.lit (chr '^')) = walkRules.has (.esc (chr '^')) := by
    funext b
    rfl
  have hlen := readQuant_length r
  unfold matchAt
  rw [List.drop_zero, List.drop_zero]
  unfold itemsOf
  rw [hitem, hitem']
  dsimp only
  rw [itemsOf_fuel (chr '^' :: r).length (chr '%' :: chr '^' :: r).length _ _ _]
  · unfold outcomes PItem.outcomes guarded
    dsimp only
    rw [quantified_congr hhas]
    rfl
  · rw [List.length_cons]
    omega
  · rw [List.length_cons, List.length_cons]
    omega

/-- Without its anchor a pattern has the matches of the pattern where `^` is a byte. -/
theorem matchesFrom_unanchored (sub pat : List UInt8) (sp : ℕ) (last : ℤ) :
    matchesFrom walkRules sub (unanchored pat) (patAnchorStart (unanchored pat)) (patAnchorStart (unanchored pat) = 1)
      sp last = matchesFrom walkRules sub pat 0 false sp last := by
  by_cases hanch : patAnchorStart pat = 1
  · obtain ⟨r, rfl⟩ : ∃ r, pat = chr '^' :: r := by
      have hhead : pat.head? = some (chr '^') := by
        by_contra hne
        unfold patAnchorStart at hanch
        rw [if_neg hne] at hanch
        cases hanch
      exact List.head?_eq_some_iff.mp hhead
    have hescaped : unanchored (chr '^' :: r) = chr '%' :: chr '^' :: r := if_pos hanch
    have hnone : patAnchorStart (chr '%' :: chr '^' :: r) = 0 := rfl
    have hmatch : matchAt walkRules sub (chr '%' :: chr '^' :: r) 0 = matchAt walkRules sub (chr '^' :: r) 0 := by
      funext sp
      exact (matchAt_escaped r).symm
    have hsearch : ∀ (take : ℕ → Bool) (todo sp : ℕ),
        searchWith walkRules sub (chr '%' :: chr '^' :: r) 0 false take todo sp =
          searchWith walkRules sub (chr '^' :: r) 0 false take todo sp := by
      intro take todo
      induction todo with
      | zero => exact fun _ => rfl
      | succ todo ih =>
        intro sp
        unfold searchWith
        rw [hmatch, ih]
    have hall : ∀ (fuel sp : ℕ) (last : ℤ),
        successive walkRules sub (chr '%' :: chr '^' :: r) 0 false fuel sp last =
        successive walkRules sub (chr '^' :: r) 0 false fuel sp last := by
      intro fuel
      induction fuel with
      | zero => exact fun _ _ => rfl
      | succ fuel ih =>
        intro sp last
        unfold successive nextMatch
        simp only [hsearch, ih]
    rw [hescaped, hnone]
    exact hall _ sp last
  · have hzero : patAnchorStart pat = 0 := by
      unfold patAnchorStart at hanch ⊢
      split_ifs at hanch ⊢ with h
      · exact absurd rfl hanch
      · rfl
    have hsame : unanchored pat = pat := if_neg hanch
    rw [hsame, hzero]
    rfl

/-! ## The whole sequence -/

/-- What the iterator yields, call by call, is what the loop of `string.gsub` replaces from the same position. -/
theorem gmatch_eq_gsub (sub pat : List UInt8) (init : Option Int64) (hinit : InitKept sub init) :
    (∀ n, yields (iterNext sub pat) n (gmatch init) =
      (valuesOf (wholeOr sub) (gmatchMatches sub pat init)).take n) ∧
    (∀ n, yields (iterNextF sub pat) n (gmatch init) =
      (valuesOf (firstValue sub) (gmatchMatches sub pat init)).take n) ∧
    (luaStart sub init = none → gmatchMatches sub pat init = []) ∧
    ∀ sp, luaStart sub init = some sp → ∀ (repl : Repl) (limit : ℤ),
      Agrees sub [] 0 ((gmatchMatches sub pat init).take limit.toNat).length
        (substitute sub repl 0 sp ((gmatchMatches sub pat init).take limit.toNat))
        (gsubAt sub (unanchored pat) repl limit sp) := by
  refine ⟨?_, ?_, ?_, ?_⟩
  · intro n
    rw [gmatchMatches_eq hinit]
    exact yields_eq iterNext_yields n (gmatch init) rfl
  · intro n
    rw [gmatchMatches_eq hinit]
    exact yields_eq iterNextF_yields n (gmatch init) rfl
  · intro hstart
    unfold gmatchMatches
    rw [hstart]
  · intro sp hstart repl limit
    have hagrees := @gsubAt_agrees sub (unanchored pat) sp repl limit
    rw [matchesFrom_unanchored] at hagrees
    unfold gmatchMatches
    rw [hstart]
    exact hagrees

/-- Two matches with two captures, and no third. -/
theorem gmatch_eq_gsub_pairs : InitKept pairsText none ∧ luaStart pairsText none = some 0 ∧
    yields (iterNext pairsText pairPattern) 3 (gmatch none) = [.ok [.str [97], .str [49]], .ok [.str [98], .str [50]]] ∧
    Agrees pairsText [] 0 2 (.ok [49, 97, 50, 98]) (gsubAt pairsText pairPattern (.str [37, 50, 37, 49]) 2 0) := by
  have hkept : InitKept pairsText none := ⟨nofun, nofun⟩
  have hall := gmatch_eq_gsub pairsText pairPattern none hkept
  have hvalues : (valuesOf (wholeOr pairsText) (gmatchMatches pairsText pairPattern none)).take 3 =
      [.ok [.str [97], .str [49]], .ok [.str [98], .str [50]]] := by
    decide +kernel
  exact ⟨hkept, rfl, (hall.1 3).trans hvalues, hall.2.2.2 0 rfl (.str [37, 50, 37, 49]) 2⟩

/-- `^` is no anchor, `%f` sees the byte before the start, and a negative start does not count from the end. -/
theorem gmatch_differs :
    (yields (iterNext [97, 97] [chr '^', 97]) 1 (gmatch none) = [] ∧
      gsub [97, 97] [chr '^', 97] (.str []) none = .ok [.str [97], .int 1]) ∧
    (yields (iterNext [98, 98] [chr '%', chr 'f', chr '[', 98, chr ']']) 1 (gmatch (some 2)) = [] ∧
      gsub [98] [chr '%', chr 'f', chr '[', 98, chr ']'] (.str []) none = .ok [.str [98], .int 1]) ∧
    yields (iterNext [97, 98] [chr '.']) 3 (gmatch (some (-1))) = [.ok [.str [97]], .ok [.str [98]]] ∧
      find [97, 98] [chr '.'] (some (-1)) false = .ok [.int 2, .int 2] := by
  refine ⟨⟨?_, ?_⟩, ⟨?_, ?_⟩, ?_, ?_⟩ <;> decide

end Lua2wasm.Pattern
