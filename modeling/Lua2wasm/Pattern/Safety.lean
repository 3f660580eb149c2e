import Lua2wasm.Pattern.Gsub
import Mathlib.Logic.Relation

/-!
# When the pattern functions trap

The functions trap exactly where the search comes to one of three malformed items (`walkRules`: `%` at the end of
the pattern with a byte of the subject left, `[` at the end, a 33rd capture), where a result needs the value of a
capture that is open, and where the builder of `string.gsub` has no room (`pattern_calls_safe_iff`). In all
other cases they return or raise.
-/

namespace Lua2wasm.Pattern

open Table (Fault)
open Pack (chr orTrap raise)
open Relation (ReflTransGen)

/-- The search of an iterator. -/
def gmatchSearch (sub pat : List UInt8) (st : GmatchState) : Except PatError (Option (ℕ × ℕ × List Cap)) :=
  searchWith walkRules sub pat 0 false (fun stop => (stop : ℤ) ≠ st.lastmatch) (sub.length + 1 - st.src) st.src

/-- An iterator goes on. -/
def GmatchStep (sub pat : List UInt8) (st st' : GmatchState) : Prop := ∃ r, gmatchNext sub pat st = .ok (r, st')

/-! ## `gsub` as a run -/

/-- What the loop of `string.gsub` goes through. -/
structure GsubRun where
  /-- Where it tries to match. -/
  sp : ℕ
  /-- How many matches it has replaced. -/
  count : ℕ
  /-- The end of what it has appended. -/
  lastEnd : ℕ
  /-- The end of the last match. -/
  lastMatch : ℤ
  /-- What it has appended. -/
  b : List UInt8
  /-- Whether it is at its end because of an anchor. -/
  done : Bool

/-- The start. -/
def GsubRun.start : GsubRun where
  sp := 0
  count := 0
  lastEnd := 0
  lastMatch := -1
  b := []
  done := false

section

variable (sub pat : List UInt8) (repl : Repl) (limit : ℤ)

/-- There is a turn to make. -/
def GsubRun.Active (r : GsubRun) : Prop := r.done = false ∧ (r.count : ℤ) < limit ∧ r.sp ≤ sub.length

/-- The match that a turn replaces: an empty one is not replaced at the end of the last. -/
def GsubRun.hit (r : GsubRun) : Except PatError (Option (ℕ × List Cap)) :=
  match matchAt walkRules sub pat (patAnchorStart pat) r.sp with
  | .error e => .error e
  | .ok m => .ok (m.filter fun m => ¬ (m.1 = r.sp ∧ (r.sp : ℤ) = r.lastMatch))

/-- What a turn appends. -/
def GsubRun.pieces (r : GsubRun) (stop : ℕ) (caps : List Cap) : Pieces :=
  turnPieces sub repl caps r.lastEnd r.count r.sp stop

/-- After a turn without a match. -/
def GsubRun.pass (r : GsubRun) : GsubRun := { r with sp := r.sp + 1, done := patAnchorStart pat = 1 }

/-- After a turn that replaces a match. -/
def GsubRun.replace (r : GsubRun) (stop : ℕ) (caps : List Cap) : GsubRun where
  sp := if stop = r.sp then r.sp + 1 else stop
  count := r.count + 1
  lastEnd := if stop = r.sp then r.sp + 1 else stop
  lastMatch := stop
  b := r.b ++ (r.pieces sub repl stop caps).bytes
  done := patAnchorStart pat = 1

/-- A turn that is made. -/
inductive GsubStep (r : GsubRun) : GsubRun → Prop
  /-- There is nothing to replace. -/
  | pass : r.Active sub limit → r.hit sub pat = .ok none → GsubStep r (r.pass pat)
  /-- A match is replaced, without an error. -/
  | replace (stop : ℕ) (caps : List Cap) : r.Active sub limit → r.hit sub pat = .ok (some (stop, caps)) →
      (r.pieces sub repl stop caps).raised = none → GsubStep r (r.replace sub pat repl stop caps)

/-- The turn that comes now is safe: its match comes to no error, the captures that the replacement needs are
closed, and the builder has room. At the end it has room for the rest of the subject. -/
structure GsubRun.Safe (r : GsubRun) : Prop where
  hit : r.Active sub limit → ∀ e, r.hit sub pat ≠ .error e
  replace : r.Active sub limit → ∀ stop caps, r.hit sub pat = .ok (some (stop, caps)) →
    repl.Needs caps ∧ r.b.length + (r.pieces sub repl stop caps).bytes.length ≤ 2^30
  finish : ¬ r.Active sub limit → r.count ≠ 0 → r.b.length + (sub.length - r.lastEnd) ≤ 2^30

end

variable {sub pat : List UInt8} {repl : Repl} {limit : ℤ} {arr : List ℤ} {caps : List Cap} {sp stop : ℕ}

/-! ## `find` and `match` -/

theorem find_safe (sub pat : List UInt8) (init : Option Int64) :
    find sub pat init false ≠ .error .stuck ↔
      ∀ sp, startPos sub init = some sp → SafeSearch AllClosed (searchAll walkRules sub pat sp) := by
  rw [find_eq]
  cases hstart : startPos sub init with
  | none => exact iff_of_true nofun nofun
  | some sp =>
    have hsafe := @resultsWith_safe
      (fun sp stop caps => (caps.mapM (Cap.value sub)).map fun vs => .int (sp + 1) :: .int stop :: vs)
      (searchAll walkRules sub pat sp) fun _ _ caps => by rw [Option.map_eq_none_iff, mapM_value]
    constructor
    · rintro h _ ⟨⟩
      exact hsafe.mp h
    · intro h
      exact hsafe.mpr (h sp rfl)

theorem matchStr_safe (sub pat : List UInt8) (init : Option Int64) :
    matchStr sub pat init ≠ .error .stuck ↔
      ∀ sp, startPos sub init = some sp → SafeSearch AllClosed (searchAll walkRules sub pat sp) := by
  rw [matchStr_eq]
  cases hstart : startPos sub init with
  | none => exact iff_of_true nofun nofun
  | some sp =>
    have hsafe := @resultsWith_safe (wholeOr sub) (searchAll walkRules sub pat sp) fun _ _ _ => wholeOr_none
    constructor
    · rintro h _ ⟨⟩
      exact hsafe.mp h
    · intro h
      exact hsafe.mpr (h sp rfl)

/-! ## Plain `find` -/

theorem plainEqFrom_ok {hay needle : List UInt8} (h : sp + needle.length ≤ hay.length) :
    ∀ (todo k : ℕ), k + todo = needle.length → ∃ same, plainEqFrom hay needle sp todo k = .ok same := by
  intro todo
  induction todo with
  | zero => exact fun k _ => ⟨true, rfl⟩
  | succ todo ih =>
    intro k hk
    unfold plainEqFrom
    rw [List.getElem?_eq_getElem (by omega : sp + k < hay.length),
      List.getElem?_eq_getElem (by omega : k < needle.length)]
    change ∃ same, (if hay[sp + k] ≠ needle[k] then pure false else _) = _
    split
    · exact ⟨false, rfl⟩
    · exact ih (k + 1) (by omega)

theorem plainFindFrom_ok (hay needle : List UInt8) :
    ∀ (fuel sp : ℕ), sp ≤ hay.length → hay.length - sp < fuel → needle.length ≠ 0 →
      ∃ r, plainFindFrom hay needle fuel sp = .ok r := by
  intro fuel
  induction fuel with
  | zero =>
    intro sp _ h
    omega
  | succ fuel ih =>
    intro sp hsp hfuel hne
    unfold plainFindFrom
    by_cases hend : sp + needle.length > hay.length
    · rw [if_pos hend]
      exact ⟨none, rfl⟩
    · rw [if_neg hend]
      obtain ⟨same, hsame⟩ := plainEqFrom_ok (Nat.not_lt.mp hend) needle.length 0 (Nat.zero_add _)
      rw [hsame, Pack.ok_bind]
      split
      · exact ⟨some _, rfl⟩
      · exact ih (sp + 1) (by omega) (by omega) hne

theorem find_plain_safe (sub pat : List UInt8) (init : Option Int64) : find sub pat init true ≠ .error .stuck := by
  unfold find
  cases hstart : startPos sub init with
  | none => nofun
  | some sp =>
    have hsp := startPos_le hstart
    have hfind : ∃ r, plainFind sub sp pat = .ok r := by
      unfold plainFind
      by_cases hempty : pat.length = 0
      · rw [if_pos hempty]
        exact ⟨some sp, rfl⟩
      · rw [if_neg hempty]
        exact plainFindFrom_ok sub pat _ sp hsp (by omega) hempty
    obtain ⟨r, hr⟩ := hfind
    change (plainFind sub sp pat >>= _) ≠ _
    rw [hr]
    cases r with
    | none => nofun
    | some stop => nofun

/-! ## `gmatch` -/

/-- The loop of `$gmatch_next`. -/
theorem gmatchNextFrom_spec (sub pat : List UInt8) (lastmatch : ℤ) :
    ∀ (fuel sp : ℕ) (arr : List ℤ), arr.length = 64 → sub.length + 1 - sp < fuel →
      Finds sub (gmatchNextFrom sub pat lastmatch fuel sp arr)
        (searchWith walkRules sub pat 0 false (fun stop => (stop : ℤ) ≠ lastmatch) (sub.length + 1 - sp) sp) := by
  intro fuel
  induction fuel with
  | zero =>
    intro sp arr _ hfuel
    omega
  | succ fuel ih =>
    intro sp arr harr hfuel
    unfold gmatchNextFrom
    by_cases hend : sp > sub.length
    · rw [if_pos hend, show sub.length + 1 - sp = 0 by omega]
      exact ⟨arr, rfl, harr⟩
    have htodo : sub.length + 1 - sp = (sub.length + 1 - (sp + 1)) + 1 := by omega
    have hspec := @startMatch_spec sub pat arr sp 0 harr (Nat.not_lt.mp hend)
    have hle := @matchAt_le walkRules sub pat
    rw [if_neg hend, htodo]
    unfold searchWith
    cases hm : matchAt walkRules sub pat 0 sp with
    | error e =>
      rw [hm] at hspec
      dsimp only at hspec ⊢
      rw [hspec]
      rfl
    | ok r =>
      rw [hm] at hspec
      cases r with
      | none =>
        obtain ⟨arr', hrun, harr'⟩ := hspec
        rw [hrun]
        exact ih (sp + 1) arr' harr' (by omega)
      | some r =>
        obtain ⟨stop, caps⟩ := r
        obtain ⟨arr', hrun, hh, hp⟩ := hspec
        rw [hrun]
        change Finds sub (if (stop : ℤ) ≠ lastmatch then _ else _) _
        by_cases htake : (stop : ℤ) ≠ lastmatch
        · have hfilter : (some (stop, caps)).filter (fun r => decide ((r.1 : ℤ) ≠ lastmatch)) = some (stop, caps) :=
            Option.filter_some_pos (decide_eq_true htake)
          dsimp only
          rw [if_pos htake, hfilter]
          exact ⟨arr', rfl, hh, hp, hle walkRules_forward hm⟩
        · have hfilter : (some (stop, caps)).filter (fun r => decide ((r.1 : ℤ) ≠ lastmatch)) = none :=
            Option.filter_some_neg (decide_eq_false htake)
          dsimp only
          rw [if_neg htake, hfilter]
          exact ih (sp + 1) arr' hh.length_arr (by omega)

theorem gmatch_caps {init : Option Int64} {st : GmatchState}
    (h : ReflTransGen (GmatchStep sub pat) (gmatch init) st) : st.caps.length = 64 := by
  induction h with
  | refl => rfl
  | tail _ hstep ih =>
    obtain ⟨r, hr⟩ := hstep
    rename_i st st' _
    have hspec := gmatchNextFrom_spec sub pat st.lastmatch (sub.length + 2) st.src st.caps ih (by omega)
    unfold gmatchNext at hr
    unfold Finds at hspec
    split at hspec
    · rw [hspec] at hr
      cases hr
    · obtain ⟨arr', hrun, harr'⟩ := hspec
      rw [hrun] at hr
      cases hr
      exact harr'
    · obtain ⟨arr', hrun, hh, -⟩ := hspec
      rw [hrun] at hr
      cases hr
      exact hh.length_arr

/-- What is done after the search of an iterator is safe if the search is, and what it needs of the captures. -/
theorem gmatchNext_safe {β : Type} {f : Option (ℕ × ℕ × ℕ) × GmatchState → Except Fault β} {need : List Cap → Prop}
    {st : GmatchState} (hst : st.caps.length = 64) (hnone : ∀ st', f (none, st') ≠ .error .stuck)
    (hsome : ∀ {sp stop : ℕ} {caps : List Cap} {arr : List ℤ}, Holds arr caps → Placed sub stop caps → sp ≤ stop →
      (f (some (sp, stop, caps.length), ⟨stop, stop, arr⟩) ≠ .error .stuck ↔ need caps)) :
    (gmatchNext sub pat st >>= f) ≠ .error .stuck ↔ SafeSearch need (gmatchSearch sub pat st) := by
  have hspec := gmatchNextFrom_spec sub pat st.lastmatch (sub.length + 2) st.src st.caps hst (by omega)
  unfold gmatchNext
  change Finds sub _ (gmatchSearch sub pat st) at hspec
  cases hr : gmatchSearch sub pat st with
  | error e =>
    rw [hr] at hspec
    rw [show gmatchNextFrom _ _ _ _ _ _ = .error .stuck from hspec]
    exact iff_of_false (fun h => h rfl) id
  | ok r =>
    rw [hr] at hspec
    cases r with
    | none =>
      obtain ⟨arr', hrun, -⟩ := hspec
      rw [hrun]
      exact iff_of_true (hnone _) trivial
    | some r =>
      obtain ⟨sp, stop, caps⟩ := r
      obtain ⟨arr', hrun, hh, hp, hle⟩ := hspec
      rw [hrun]
      exact hsome hh hp hle

/-- A call of an iterator. -/
theorem gmatchIter_safe {st : GmatchState} (hst : st.caps.length = 64) :
    gmatchIter sub pat st ≠ .error .stuck ↔ SafeSearch AllClosed (gmatchSearch sub pat st) := by
  refine gmatchNext_safe hst (fun _ => nofun) fun {sp stop caps arr} hh hp hle => ?_
  change (matchValues sub arr sp stop caps.length >>= _) ≠ _ ↔ AllClosed caps
  rw [matchValues_eq hh hp hle]
  have hiff := @wholeOr_none sub caps sp stop
  cases hv : wholeOr sub sp stop caps with
  | none => exact iff_of_false (fun h => h rfl) (hiff.mp hv)
  | some vs =>
    refine iff_of_true nofun ?_
    by_contra hopen
    rw [hiff.mpr hopen] at hv
    cases hv

theorem gmatchIterF_safe {st : GmatchState} (hst : st.caps.length = 64) :
    gmatchIterF sub pat st ≠ .error .stuck ↔ SafeSearch FirstClosed (gmatchSearch sub pat st) := by
  refine gmatchNext_safe hst (fun _ => nofun) fun {sp stop caps arr} hh hp hle => ?_
  change (if caps.length = 0 then _ else _) ≠ _ ↔ FirstClosed caps
  cases caps with
  | nil =>
    rw [if_pos List.length_nil, whole_eq hle hp.le]
    exact iff_of_true nofun nofun
  | cons c caps =>
    rw [if_neg (by simp)]
    change (capToValue sub arr 0 >>= _) ≠ _ ↔ _
    rw [capToValue_eq hh hp (c := c) rfl]
    have hfirst : FirstClosed (c :: caps) ↔ c.Closed := by
      change (∀ d ∈ [c], d.Closed) ↔ _
      rw [List.forall_mem_singleton]
    rw [hfirst]
    cases c with
    | unclosed start => exact iff_of_false (fun h => h rfl) id
    | closed start len => exact iff_of_true nofun trivial
    | position start => exact iff_of_true nofun trivial

/-! ## `gsub` -/

/-- What a run knows of the registers. -/
def GsubState.run (st : GsubState) : GsubRun where
  sp := st.sp
  count := st.count
  lastEnd := st.lastEnd
  lastMatch := st.lastMatch
  b := st.b
  done := false

/-- What `string.gsub` does after the loop. -/
def gsubFinish (sub : List UInt8) (st : GsubState) : Except Fault (List PatVal) :=
  if st.count = 0 then pure [.str sub, .int 0]
  else do
    let b ← appendRange st.b sub st.lastEnd (sub.length - st.lastEnd)
    pure [.str b, .int st.count]

/-- All that a run comes to is safe. -/
def GsubRun.AllSafe (sub pat : List UInt8) (repl : Repl) (limit : ℤ) (r : GsubRun) : Prop :=
  ∀ r', ReflTransGen (GsubStep sub pat repl limit) r r' → r'.Safe sub pat repl limit

/-- A run is safe if its first turn is and what comes after it is. -/
theorem allSafe_iff {r : GsubRun} : r.AllSafe sub pat repl limit ↔
    r.Safe sub pat repl limit ∧ ∀ r₁, GsubStep sub pat repl limit r r₁ → r₁.AllSafe sub pat repl limit := by
  constructor
  · intro h
    exact ⟨h r .refl, fun r₁ hstep r' hreach => h r' (.head hstep hreach)⟩
  · rintro ⟨hhere, hrest⟩ r' hreach
    obtain rfl | ⟨r₁, hstep, hreach⟩ := ReflTransGen.cases_head hreach
    · exact hhere
    · exact hrest r₁ hstep r' hreach

theorem GsubStep.active {r r' : GsubRun} (h : GsubStep sub pat repl limit r r') : r.Active sub limit := by
  cases h with
  | pass ha _ => exact ha
  | replace stop caps ha _ _ => exact ha

/-- A run at its end. -/
theorem allSafe_end {r : GsubRun} (hr : ¬ r.Active sub limit) : r.AllSafe sub pat repl limit ↔
    (r.count ≠ 0 → r.b.length + (sub.length - r.lastEnd) ≤ 2^30) := by
  rw [allSafe_iff]
  constructor
  · intro h
    exact h.1.finish hr
  · intro h
    exact ⟨⟨fun ha => absurd ha hr, fun ha => absurd ha hr, fun _ => h⟩, fun r₁ hstep => absurd hstep.active hr⟩

theorem gsubFinish_safe {st : GsubState} (hb : st.b.length ≤ 2^30) :
    gsubFinish sub st ≠ .error .stuck ↔ (st.count ≠ 0 → st.b.length + (sub.length - st.lastEnd) ≤ 2^30) := by
  unfold gsubFinish
  by_cases hcount : st.count = 0
  · rw [if_pos hcount]
    exact iff_of_true (fun h => by cases h) fun h => absurd hcount h
  · rw [if_neg hcount, appendRange_eq (by omega) (by omega), appendAll_eq _ _ hb, Int.toNat_natCast,
      show ((sub.length : ℤ) - st.lastEnd).toNat = sub.length - st.lastEnd by omega]
    have hraised : (rangePieces sub st.lastEnd (sub.length - st.lastEnd)).raised = none := by
      unfold rangePieces
      split <;> rfl
    have hbytes : (rangePieces sub st.lastEnd (sub.length - st.lastEnd)).bytes.length = sub.length - st.lastEnd := by
      unfold rangePieces
      split
      · rename_i hzero
        rw [hzero]
        rfl
      · simp [Pieces.bytes]
    rw [hraised, hbytes]
    by_cases hroom : 2^30 < st.b.length + (sub.length - st.lastEnd)
    · rw [if_pos hroom]
      exact iff_of_false (fun h => h rfl) fun h => absurd (h hcount) (by omega)
    · rw [if_neg hroom]
      exact iff_of_true (fun h => by cases h) fun _ => by omega

/-- A turn that replaces nothing. -/
theorem gsub_pass {st : GsubState} {next : Except Fault GsubState} {arr' : List ℤ}
    (hact : st.run.Active sub limit) (hb : st.b.length ≤ 2^30) (hhit : st.run.hit sub pat = .ok none)
    (hnext : ¬ patAnchorStart pat = 1 → ((next >>= gsubFinish sub) ≠ .error .stuck ↔
      ({ st with sp := st.sp + 1, caps := arr' } : GsubState).run.AllSafe sub pat repl limit)) :
    ((if decide (patAnchorStart pat = 1) = true then pure { st with caps := arr' } else next) >>= gsubFinish sub) ≠
      .error .stuck ↔ st.run.AllSafe sub pat repl limit := by
  have hiff : st.run.AllSafe sub pat repl limit ↔ (st.run.pass pat).AllSafe sub pat repl limit := by
    rw [allSafe_iff]
    constructor
    · intro h
      exact h.2 _ (.pass hact hhit)
    · intro h
      refine ⟨⟨fun _ e => ?_, fun _ stop caps => ?_, fun hna => absurd hact hna⟩, fun r₁ hstep => ?_⟩
      · rw [hhit]
        nofun
      · rw [hhit]
        nofun
      · cases hstep with
        | pass _ _ => exact h
        | replace stop caps _ hsome _ =>
          rw [hhit] at hsome
          cases hsome
  rw [hiff]
  unfold GsubRun.pass
  by_cases hanch : patAnchorStart pat = 1
  · rw [decide_eq_true hanch, if_pos rfl, allSafe_end fun h => absurd h.1 (by simp)]
    exact gsubFinish_safe hb
  · rw [decide_eq_false hanch, if_neg Bool.false_ne_true]
    exact hnext hanch

/-- A turn that replaces a match. -/
theorem gsub_replace {st : GsubState} {k : List UInt8 → Except Fault GsubState}
    (hact : st.run.Active sub limit) (hb : st.b.length ≤ 2^30)
    (hhit : st.run.hit sub pat = .ok (some (stop, caps))) (hneed : repl.Needs caps)
    (hnext : ∀ b, b = st.b ++ (st.run.pieces sub repl stop caps).bytes → b.length ≤ 2^30 →
      ((k b >>= gsubFinish sub) ≠ .error .stuck ↔
        (st.run.replace sub pat repl stop caps).AllSafe sub pat repl limit)) :
    (appendAll st.b (st.run.pieces sub repl stop caps) >>= k >>= gsubFinish sub) ≠ .error .stuck ↔
      st.run.AllSafe sub pat repl limit := by
  rw [allSafe_iff, appendAll_eq _ _ hb]
  by_cases hroom : 2^30 < st.b.length + (st.run.pieces sub repl stop caps).bytes.length
  · rw [if_pos hroom]
    refine iff_of_false (fun h => h rfl) fun h => ?_
    have hle := (h.1.replace hact stop caps hhit).2
    have hbytes : st.run.b = st.b := rfl
    rw [hbytes] at hle
    omega
  rw [if_neg hroom]
  -- this turn is safe, so the run is safe if what follows is
  have hhere : st.run.Safe sub pat repl limit := by
    constructor
    · intro _ e
      rw [hhit]
      nofun
    · intro _ stop' caps' hhit'
      rw [hhit] at hhit'
      cases hhit'
      exact ⟨hneed, Nat.not_lt.mp hroom⟩
    · exact fun hna => absurd hact hna
  cases hraised : (st.run.pieces sub repl stop caps).raised with
  | some msg =>
    refine iff_of_true nofun ⟨hhere, fun r₁ hstep => ?_⟩
    cases hstep with
    | pass _ hnone =>
      rw [hhit] at hnone
      cases hnone
    | replace stop' caps' _ hhit' hraised' =>
      rw [hhit] at hhit'
      cases hhit'
      rw [hraised] at hraised'
      cases hraised'
  | none =>
    change (k (st.b ++ (st.run.pieces sub repl stop caps).bytes) >>= gsubFinish sub) ≠ _ ↔ _
    rw [hnext _ rfl (by rw [List.length_append]; omega)]
    constructor
    · intro h
      refine ⟨hhere, fun r₁ hstep => ?_⟩
      cases hstep with
      | pass _ hnone =>
        rw [hhit] at hnone
        cases hnone
      | replace stop' caps' _ hhit' _ =>
        rw [hhit] at hhit'
        cases hhit'
        exact h
    · intro h
      exact h.2 _ (.replace stop caps hact hhit hraised)

/-- The loop of `string.gsub`, and what comes after it. -/
theorem gsubFrom_safe (sub pat : List UInt8) (repl : Repl) (limit : ℤ) :
    ∀ (fuel : ℕ) (st : GsubState), st.caps.length = 64 → st.lastEnd ≤ st.sp → st.b.length ≤ 2^30 →
      sub.length + 1 - st.sp < fuel →
      ((gsubFrom sub pat repl limit fuel st >>= gsubFinish sub) ≠ .error .stuck ↔
        st.run.AllSafe sub pat repl limit) := by
  intro fuel
  induction fuel with
  | zero =>
    intro st _ _ _ hfuel
    omega
  | succ fuel ih =>
    intro st harr hlast hb hfuel
    unfold gsubFrom
    by_cases hcount : (st.count : ℤ) ≥ limit
    · rw [if_pos hcount, allSafe_end fun h => absurd h.2.1 (not_lt.mpr hcount)]
      exact gsubFinish_safe hb
    rw [if_neg hcount]
    by_cases hend : st.sp > sub.length
    · rw [if_pos hend, allSafe_end fun h => absurd h.2.2 (Nat.not_le.mpr hend)]
      exact gsubFinish_safe hb
    rw [if_neg hend]
    have hact : st.run.Active sub limit := ⟨rfl, not_le.mp hcount, Nat.not_lt.mp hend⟩
    have hspec := @startMatch_spec sub pat st.caps st.sp (patAnchorStart pat) harr (Nat.not_lt.mp hend)
    have hhit : st.run.hit sub pat = match matchAt walkRules sub pat (patAnchorStart pat) st.sp with
      | .error e => .error e
      | .ok m => .ok (m.filter fun m => ¬ (m.1 = st.sp ∧ (st.sp : ℤ) = st.lastMatch)) := rfl
    have hle := @matchAt_le walkRules sub pat
    -- without a match to replace, the loop goes on with the next position
    have hskip : ∀ arr' : List ℤ, arr'.length = 64 →
        ((gsubFrom sub pat repl limit fuel { st with sp := st.sp + 1, caps := arr' } >>= gsubFinish sub) ≠
            .error .stuck ↔
          ({ st with sp := st.sp + 1, caps := arr' } : GsubState).run.AllSafe sub pat repl limit) := by
      intro arr' harr'
      exact ih { st with sp := st.sp + 1, caps := arr' } harr' (Nat.le_succ_of_le hlast) hb
        (by change sub.length + 1 - (st.sp + 1) < fuel; omega)
    cases hm : matchAt walkRules sub pat (patAnchorStart pat) st.sp with
    | error e =>
      rw [hm] at hspec hhit
      dsimp only at hspec hhit
      rw [hspec]
      refine iff_of_false (fun h => h rfl) fun h => ?_
      exact (allSafe_iff.mp h).1.hit hact e hhit
    | ok m =>
      rw [hm] at hspec hhit
      cases m with
      | none =>
        obtain ⟨arr', hrun, harr'⟩ := hspec
        rw [hrun]
        exact gsub_pass hact hb hhit fun _ => hskip arr' harr'
      | some m =>
        obtain ⟨stop, caps⟩ := m
        obtain ⟨arr', hrun, hh, hp⟩ := hspec
        have hsp : st.sp ≤ stop := hle walkRules_forward hm
        rw [hrun]
        dsimp only at hhit
        change ((if stop = st.sp ∧ (st.sp : ℤ) = st.lastMatch then _ else _) >>= gsubFinish sub) ≠ _ ↔ _
        by_cases hsame : stop = st.sp ∧ (st.sp : ℤ) = st.lastMatch
        · rw [Option.filter_some_neg (by simpa using hsame)] at hhit
          rw [if_pos hsame]
          exact gsub_pass hact hb hhit fun _ => hskip arr' hh.length_arr
        rw [Option.filter_some_pos (by dsimp only; exact decide_eq_true hsame)] at hhit
        rw [if_neg hsame]
        by_cases hneed : repl.Needs caps
        · rw [turn_eq hh hp hsp hlast hneed]
          refine gsub_replace hact hb hhit hneed ?_
          intro b hb' hroom
          have hdone : ¬ (⟨if stop = st.sp then st.sp + 1 else stop, st.count + 1,
              if stop = st.sp then st.sp + 1 else stop, stop, b, true⟩ : GsubRun).Active sub limit :=
            fun h => absurd h.1 (by simp)
          have hrun' : st.run.replace sub pat repl stop caps = ⟨if stop = st.sp then st.sp + 1 else stop, st.count + 1,
              if stop = st.sp then st.sp + 1 else stop, stop, b, patAnchorStart pat = 1⟩ := by
            rw [hb']
            rfl
          rw [hrun']
          by_cases hanch : patAnchorStart pat = 1
          · rw [decide_eq_true hanch, if_pos rfl, allSafe_end hdone]
            exact @gsubFinish_safe sub ⟨if stop = st.sp then st.sp + 1 else stop, st.count + 1,
              if stop = st.sp then st.sp + 1 else stop, stop, b, arr'⟩ hroom
          · rw [decide_eq_false hanch, if_neg Bool.false_ne_true]
            refine ih _ hh.length_arr (Nat.le_refl _) hroom ?_
            dsimp only
            split <;> omega
        · rw [turn_stuck hh hp hsp hneed]
          refine iff_of_false (fun h => h rfl) fun h => ?_
          exact hneed ((allSafe_iff.mp h).1.replace hact stop caps hhit).1

/-! ## All calls -/

/-- Exactly when the pattern functions trap, for every pattern and every subject. -/
theorem pattern_calls_safe_iff (sub pat : List UInt8) :
    (∀ init, find sub pat init true ≠ .error .stuck) ∧
    (∀ init, find sub pat init false ≠ .error .stuck ↔
      ∀ sp, startPos sub init = some sp → SafeSearch AllClosed (searchAll walkRules sub pat sp)) ∧
    (∀ init, matchStr sub pat init ≠ .error .stuck ↔
      ∀ sp, startPos sub init = some sp → SafeSearch AllClosed (searchAll walkRules sub pat sp)) ∧
    (∀ init st, ReflTransGen (GmatchStep sub pat) (gmatch init) st →
      (gmatchIter sub pat st ≠ .error .stuck ↔ SafeSearch AllClosed (gmatchSearch sub pat st)) ∧
      (gmatchIterF sub pat st ≠ .error .stuck ↔ SafeSearch FirstClosed (gmatchSearch sub pat st))) ∧
    ∀ repl limit, gsub sub pat repl limit ≠ .error .stuck ↔
      ∀ r, ReflTransGen (GsubStep sub pat repl (gsubLimit limit)) GsubRun.start r →
        r.Safe sub pat repl (gsubLimit limit) := by
  refine ⟨find_plain_safe sub pat, find_safe sub pat, matchStr_safe sub pat, ?_, ?_⟩
  · intro init st hreach
    have hcaps := gmatch_caps hreach
    exact ⟨gmatchIter_safe hcaps, gmatchIterF_safe hcaps⟩
  · intro repl limit
    exact gsubFrom_safe sub pat repl (gsubLimit limit) (sub.length + 2) GsubState.start rfl (Nat.le_refl 0)
      (Nat.zero_le _) (Nat.lt_succ_self _)

/-- `a1b2`. -/
def pairsText : List UInt8 := [97, 49, 98, 50]
/-- `(%a)(%d)`. -/
def pairPattern : List UInt8 := [40, 37, 97, 41, 40, 37, 100, 41]

/-- A pattern with two captures, found and replaced. -/
theorem pattern_calls_safe_pairs : find pairsText pairPattern none false ≠ .error .stuck ∧
    SafeSearch AllClosed (searchAll walkRules pairsText pairPattern 0) ∧
    ∀ r, ReflTransGen (GsubStep pairsText pairPattern (.str [37, 50, 37, 49]) (gsubLimit none)) GsubRun.start r →
      r.Safe pairsText pairPattern (.str [37, 50, 37, 49]) (gsubLimit none) := by
  have hfind : find pairsText pairPattern none false ≠ .error .stuck := by
    decide +kernel
  have hgsub : gsub pairsText pairPattern (.str [37, 50, 37, 49]) none ≠ .error .stuck := by
    decide +kernel
  have hall := pattern_calls_safe_iff pairsText pairPattern
  exact ⟨hfind, (hall.2.1 none).mp hfind 0 rfl, (hall.2.2.2.2 (.str [37, 50, 37, 49]) none).mp hgsub⟩

/-- `%` and `[` at the end of a pattern trap, and so do an open capture as a result and the 33rd capture. -/
theorem pattern_calls_trap :
    find [97] [chr '%'] none false = .error .stuck ∧ find [97] [chr '['] none false = .error .stuck ∧
    find [97] [chr '(', 97] none false = .error .stuck ∧
    find [] (List.replicate 33 (chr '(')) none false = .error .stuck := by
  have hfull : searchAll walkRules [] (List.replicate 33 (chr '(')) 0 = .error .captures := by
    decide
  refine ⟨rfl, rfl, rfl, ?_⟩
  by_contra h
  have hsafe := (find_safe _ _ none).mp h 0 rfl
  rw [hfull] at hsafe
  exact hsafe

end Lua2wasm.Pattern
