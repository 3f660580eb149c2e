import Lua2wasm.Pattern.Drivers
import Lua2wasm.Pattern.Simulate

/-!
# The search for a match

A search tries the items of a pattern at one position after the other (`searchWith`), and the values of the
match that it finds are those of its captures (`findWith`, `matchWith`). With the rules of the code this is
what `string.find` and `string.match` do (`find_eq`, `matchStr_eq`), where an error is a trap.
-/

namespace Lua2wasm.Pattern

open Table (Fault)
open Pack (chr orTrap takeBytes)

/-- What the items of a pattern come to at a position. -/
def matchAt (R : Rules) (sub pat : List UInt8) (ppos sp : ℕ) : Except PatError (Option (ℕ × List Cap)) :=
  (outcomes R sub (itemsOf (pat.length + 1) (pat.drop ppos)) sp []).first

/-- A search: the start of the first match whose end it takes, with its end and its captures. -/
def searchWith (R : Rules) (sub pat : List UInt8) (ppos : ℕ) (anchored : Bool) (take : ℕ → Bool) :
    ℕ → ℕ → Except PatError (Option (ℕ × ℕ × List Cap))
  | 0, _ => .ok none
  | todo + 1, sp =>
    match matchAt R sub pat ppos sp with
    | .error e => .error e
    | .ok r =>
      match r.filter fun r => take r.1 with
      | some (stop, caps) => .ok (some (sp, stop, caps))
      | none => if anchored then .ok none else searchWith R sub pat ppos anchored take todo (sp + 1)

/-- The value of a capture. An open one has none. -/
def Cap.value (sub : List UInt8) : Cap → Option PatVal
  | .unclosed _ => none
  | .closed start len => some (.str ((sub.drop start).take len))
  | .position start => some (.int (start + 1))

/-- The values of a match: its captures, or the whole of it. -/
def wholeOr (sub : List UInt8) (sp stop : ℕ) (caps : List Cap) : Option (List PatVal) :=
  if caps = [] then some [.str ((sub.drop sp).take (stop - sp))] else caps.mapM (Cap.value sub)

/-- The search of `string.find` and `string.match` from a position. -/
def searchAll (R : Rules) (sub pat : List UInt8) (sp : ℕ) : Except PatError (Option (ℕ × ℕ × List Cap)) :=
  searchWith R sub pat (patAnchorStart pat) (patAnchorStart pat = 1) (fun _ => true) (sub.length + 1 - sp) sp

/-- The results of a search, where those of a match are given. -/
def resultsWith (vals : ℕ → ℕ → List Cap → Option (List PatVal)) (r : Except PatError (Option (ℕ × ℕ × List Cap))) :
    Except PatError (List PatVal) :=
  match r with
  | .error e => .error e
  | .ok none => .ok [.nil]
  | .ok (some (sp, stop, caps)) =>
    match vals sp stop caps with
    | none => .error .unfinished
    | some vs => .ok vs

/-- `string.find` from a position. -/
def findWith (R : Rules) (sub pat : List UInt8) (sp : ℕ) : Except PatError (List PatVal) :=
  resultsWith (fun sp stop caps => (caps.mapM (Cap.value sub)).map fun vs => .int (sp + 1) :: .int stop :: vs)
    (searchAll R sub pat sp)

/-- `string.match` from a position. -/
def matchWith (R : Rules) (sub pat : List UInt8) (sp : ℕ) : Except PatError (List PatVal) :=
  resultsWith (wholeOr sub) (searchAll R sub pat sp)

/-- An error is a trap. -/
def asTrap {α : Type} : Except PatError α → Except Fault α
  | .error _ => .error .stuck
  | .ok a => .ok a

/-- A capture that is closed. -/
def Cap.Closed : Cap → Prop
  | .unclosed _ => False
  | _ => True

instance (c : Cap) : Decidable c.Closed :=
  match c with
  | .unclosed _ => isFalse id
  | .closed _ _ => isTrue trivial
  | .position _ => isTrue trivial

/-- The captures are all closed. -/
def AllClosed (caps : List Cap) : Prop := ∀ c ∈ caps, c.Closed

instance (caps : List Cap) : Decidable (AllClosed caps) := inferInstanceAs (Decidable (∀ c ∈ caps, c.Closed))

/-- The search comes to no error, and the captures of a match that it finds are as they need to be. -/
def SafeSearch (need : List Cap → Prop) (r : Except PatError (Option (ℕ × ℕ × List Cap))) : Prop :=
  match r with
  | .error _ => False
  | .ok none => True
  | .ok (some (_, _, caps)) => need caps

variable {R : Rules} {sub pat : List UInt8} {arr : List ℤ} {caps : List Cap} {s sp stop ppos : ℕ}
variable {c : Outcomes PatError (ℕ × List Cap)} {cl : PClass}

/-! ## A match does not end before it starts -/

/-- The rules find the end of a balanced part behind its start. -/
def Rules.Forward (R : Rules) : Prop :=
  ∀ (x y : UInt8) (sub : List UInt8) (s stop : ℕ), R.balance x y sub s = .ok (some stop) → s ≤ stop

/-- The results of a search that goes on from a position on. -/
def Later (s : ℕ) (c : Outcomes PatError (ℕ × List Cap)) : Prop := ∀ r, Except.ok r ∈ c → s ≤ r.1

theorem later_nil : Later s [] := nofun

theorem later_error (e : PatError) : Later s [.error e] := by
  intro r hr
  rw [List.mem_singleton] at hr
  cases hr

theorem Later.mono {t : ℕ} (h : Later t c) (hst : s ≤ t) : Later s c :=
  fun r hr => Nat.le_trans hst (h r hr)

theorem Later.append {c c' : Outcomes PatError (ℕ × List Cap)} (h : Later s c) (h' : Later s c') : Later s (c ++ c') := by
  intro r hr
  obtain hr | hr := List.mem_append.mp hr
  · exact h r hr
  · exact h' r hr

theorem Later.flatMap {l : List ℕ} {k : ℕ → Outcomes PatError (ℕ × List Cap)} (h : ∀ t ∈ l, Later s (k t)) :
    Later s (l.flatMap k) := by
  intro r hr
  obtain ⟨t, ht, hr⟩ := List.mem_flatMap.mp hr
  exact h t ht r hr

theorem later_bad (e : PatError) : Later s (R.bad e) := by
  unfold Rules.bad
  by_cases h : R.raises e = true
  · rw [if_pos h]
    exact later_error e
  · rw [if_neg h]
    exact later_nil

theorem Later.whenHas {t : Except PatError Bool} (h : Later s c) : Later s (whenHas t c) := by
  unfold Pattern.whenHas
  split
  · exact later_error _
  · exact h
  · exact later_nil

theorem Later.once (h : Later s c) : Later s (once R sub cl sp c) := by
  unfold Pattern.once
  split
  · exact later_nil
  · exact h.whenHas

theorem Later.guarded {left : Bool} (h : Later s c) : Later s (guarded R cl left c) := by
  unfold Pattern.guarded
  split
  · exact h
  · split
    · exact later_error _
    · exact h

variable {k : ℕ → Outcomes PatError (ℕ × List Cap)}

theorem later_lazyFrom (h : ∀ t, s ≤ t → Later s (k t)) :
    ∀ (fuel t : ℕ), s ≤ t → Later s (lazyFrom R sub cl k fuel t) := by
  intro fuel
  induction fuel with
  | zero => exact fun _ _ => later_nil
  | succ fuel ih =>
    intro t ht
    unfold lazyFrom
    exact (h t ht).append (ih (t + 1) (by omega)).once

theorem later_quantified {q : Quant} (h : ∀ t, s ≤ t → Later s (k t)) : Later s (quantified R sub cl q s k) := by
  have hgreedy : ∀ minK, Later s (greedy R sub cl minK s k) := by
    intro minK
    unfold greedy
    split
    · exact later_error _
    · refine Later.flatMap fun t ht => h t ?_
      rw [List.mem_reverse, List.mem_range'_1] at ht
      omega
  cases q with
  | one => exact (h (s + 1) (by omega)).once
  | opt => exact (h (s + 1) (by omega)).once.append (h s (Nat.le_refl s))
  | lazy => exact later_lazyFrom h _ s (Nat.le_refl s)
  | star => exact hgreedy 0
  | plus => exact hgreedy 1

/-- The results of an item are those of what comes after it. -/
theorem later_item (hR : R.Forward) (it : PItem) {k : Cont} (h : ∀ t caps, s ≤ t → Later s (k t caps)) :
    Later s (it.outcomes R sub s caps k) := by
  unfold PItem.outcomes
  cases it with
  | eos =>
    dsimp only
    split
    · exact h s caps (Nat.le_refl s)
    · exact later_nil
  | posCap =>
    dsimp only
    split
    · exact later_bad _
    · exact h s _ (Nat.le_refl s)
  | openCap =>
    dsimp only
    split
    · exact later_bad _
    · exact h s _ (Nat.le_refl s)
  | closeCap =>
    dsimp only
    split
    · exact later_bad _
    · exact h s _ (Nat.le_refl s)
  | backref idx =>
    dsimp only
    split
    · split
      · exact h _ caps (by omega)
      · exact later_nil
    · exact later_nil
    · exact later_bad _
  | balance x y =>
    dsimp only
    split
    · cases hb : R.balance x y sub (s + 1) with
      | error e => exact later_error e
      | ok r =>
        cases r with
        | none => exact later_nil
        | some stop =>
          -- a balanced run ends behind its first byte
          have hle := hR x y sub (s + 1) stop hb
          exact h stop caps (by omega)
    · exact later_nil
  | noBalance => exact later_bad _
  | frontier cl =>
    refine Later.guarded ?_
    split
    · exact later_error _
    · exact later_nil
    · exact (h s caps (Nat.le_refl s)).whenHas
  | noFrontier => exact later_bad _
  | single cl q => exact (later_quantified fun t ht => h t caps ht).guarded

/-- A match does not end before it starts. -/
theorem outcomes_later (hR : R.Forward) (items : List PItem) :
    ∀ (s : ℕ) (caps : List Cap), Later s (outcomes R sub items s caps) := by
  induction items with
  | nil =>
    intro s caps r hr
    obtain hr := List.mem_singleton.mp (show Except.ok r ∈ [Except.ok (s, caps)] from hr)
    cases hr
    exact Nat.le_refl s
  | cons it items ih =>
    intro s caps
    exact later_item hR it fun t caps ht => (ih t caps).mono ht

/-- A balanced run does not end before it starts. -/
theorem walkBalance_le {x y : UInt8} : ∀ (text : List UInt8) (k depth stop : ℕ),
    walkBalance x y k depth text = some stop → k ≤ stop := by
  intro text
  induction text with
  | nil => nofun
  | cons b r ih =>
    intro k depth stop h
    unfold walkBalance at h
    generalize (if b = x then depth + 1 else depth) = d at h
    by_cases hb : b = y
    · rw [if_pos hb] at h
      by_cases hd : d - 1 = 0
      · rw [if_pos hd] at h
        cases h
        omega
      · rw [if_neg hd] at h
        have := ih _ _ _ h
        omega
    · rw [if_neg hb] at h
      have := ih _ _ _ h
      omega

theorem walkRules_forward : walkRules.Forward := by
  intro x y sub s stop h
  exact walkBalance_le _ _ _ _ (Except.ok.inj h)

/-- A match ends at or behind its start. -/
theorem matchAt_le (hR : R.Forward) (h : matchAt R sub pat ppos sp = .ok (some (stop, caps))) : sp ≤ stop := by
  unfold matchAt at h
  have hlater := @outcomes_later R sub hR (itemsOf (pat.length + 1) (pat.drop ppos)) sp []
  cases hc : outcomes R sub (itemsOf (pat.length + 1) (pat.drop ppos)) sp [] with
  | nil =>
    rw [hc] at h
    cases h
  | cons r c =>
    rw [hc] at h hlater
    cases r with
    | error e => cases h
    | ok r =>
      cases h
      exact hlater (stop, caps) List.mem_cons_self

/-! ## The matcher -/

/-- An array without captures. -/
theorem holds_nil (h : arr.length = 64) : Holds arr [] := by
  constructor
  · exact h
  · exact Nat.zero_le _
  · nofun
  · nofun

/-- A call from outside does what the items come to. -/
theorem startMatch_spec (harr : arr.length = 64) (hsp : sp ≤ sub.length) :
    match matchAt walkRules sub pat ppos sp with
    | .error _ => startMatch sub pat ppos sp arr = .error .stuck
    | .ok none => ∃ arr', startMatch sub pat ppos sp arr = .ok (none, arr') ∧ arr'.length = 64
    | .ok (some (stop, caps)) =>
      ∃ arr', startMatch sub pat ppos sp arr = .ok (some (stop, caps.length), arr') ∧ Holds arr' caps ∧
        Placed sub stop caps := by
  have hplaced : Placed sub sp [] := by
    constructor
    · exact hsp
    · nofun
  have hsim := matchPat_sim sub pat (pat.length + 1) ppos (by omega) sp [] arr (holds_nil harr) hplaced
  unfold Sim at hsim
  change match matchAt walkRules sub pat ppos sp with
    | .error _ => startMatch sub pat ppos sp arr = .error .stuck
    | .ok none => ∃ arr', startMatch sub pat ppos sp arr = .ok (none, arr') ∧ Holds arr' []
    | .ok (some (stop, caps)) =>
      ∃ arr', startMatch sub pat ppos sp arr = .ok (some (stop, caps.length), arr') ∧ Holds arr' caps ∧
        Placed sub stop caps at hsim
  cases hm : matchAt walkRules sub pat ppos sp with
  | error e =>
    rw [hm] at hsim
    exact hsim
  | ok r =>
    rw [hm] at hsim
    cases r with
    | none =>
      obtain ⟨arr', hrun, hh⟩ := hsim
      exact ⟨arr', hrun, hh.length_arr⟩
    | some r => exact hsim

/-! ## The values of captures -/

theorem strFromRange_ok {src : List UInt8} {start len : ℤ} (h₀ : 0 ≤ start) (h₁ : 0 ≤ len)
    (h₂ : start + len ≤ src.length) :
    strFromRange src start len = .ok ((src.drop start.toNat).take len.toNat) := by
  unfold strFromRange takeBytes
  rw [if_neg (by omega), if_pos (by omega)]

/-- The value of a capture is that of the reference. -/
theorem capToValue_eq (hh : Holds arr caps) (hp : Placed sub s caps) {i : ℕ} {c : Cap} (hc : caps[i]? = some c) :
    capToValue sub arr i = orTrap (c.value sub) := by
  have hle := hp.le
  have hwin := hp.within c (List.mem_of_getElem? hc)
  unfold capToValue
  rw [hh.starts i c hc, hh.codes i c hc]
  change (if c.code = -2 then pure (PatVal.int (c.start + 1)) else _) = _
  cases c with
  | unclosed start =>
    have hcode : (Cap.unclosed start).code = -1 := rfl
    rw [hcode, if_neg (by omega)]
    unfold strFromRange
    rw [if_pos (Or.inr (by omega))]
    rfl
  | closed start len =>
    unfold Cap.Within at hwin
    have hcode : (Cap.closed start len).code = (len : ℤ) := rfl
    rw [hcode, if_neg (by omega)]
    change (strFromRange sub (start : ℤ) (len : ℤ) >>= fun x => pure (PatVal.str x)) = _
    rw [strFromRange_ok (by omega) (by omega) (by omega)]
    rfl
  | position start => rfl

theorem capValues_eq (hh : Holds arr caps) (hp : Placed sub s caps) :
    ∀ (todo i : ℕ), i + todo = caps.length →
      capValues sub arr todo i = orTrap ((caps.drop i).mapM (Cap.value sub)) := by
  intro todo
  induction todo with
  | zero =>
    intro i hi
    rw [List.drop_eq_nil_of_le (by omega)]
    rfl
  | succ todo ih =>
    intro i hi
    have hlt : i < caps.length := by omega
    rw [List.drop_eq_getElem_cons hlt, List.mapM_cons]
    unfold capValues
    rw [capToValue_eq hh hp (List.getElem?_eq_getElem hlt), ih (i + 1) (by omega)]
    cases (caps[i]).value sub with
    | none => rfl
    | some v =>
      cases (caps.drop (i + 1)).mapM (Cap.value sub) with
      | none => rfl
      | some vs => rfl

/-- The captures have values if they are closed. -/
theorem mapM_value (caps : List Cap) : caps.mapM (Cap.value sub) = none ↔ ¬ AllClosed caps := by
  induction caps with
  | nil =>
    refine iff_of_false nofun ?_
    intro h
    exact h nofun
  | cons c caps ih =>
    have hcons : AllClosed (c :: caps) ↔ c.Closed ∧ AllClosed caps := List.forall_mem_cons
    rw [List.mapM_cons, hcons]
    cases c with
    | unclosed start => exact iff_of_true rfl fun h => h.1
    | closed start len =>
      have hc : (Cap.closed start len).Closed := trivial
      rw [and_iff_right hc, ← ih]
      cases caps.mapM (Cap.value sub) with
      | none => exact iff_of_true rfl rfl
      | some vs => exact iff_of_false nofun nofun
    | position start =>
      have hc : (Cap.position start).Closed := trivial
      rw [and_iff_right hc, ← ih]
      cases caps.mapM (Cap.value sub) with
      | none => exact iff_of_true rfl rfl
      | some vs => exact iff_of_false nofun nofun

theorem wholeOr_none : wholeOr sub sp stop caps = none ↔ ¬ AllClosed caps := by
  unfold wholeOr
  by_cases hcaps : caps = []
  · subst hcaps
    rw [if_pos rfl]
    refine iff_of_false nofun ?_
    intro h
    exact h nofun
  · rw [if_neg hcaps]
    exact mapM_value caps

theorem whole_eq (hsp : sp ≤ stop) (hstop : stop ≤ sub.length) :
    strFromRange sub sp (stop - sp) = .ok ((sub.drop sp).take (stop - sp)) := by
  rw [strFromRange_ok (by omega) (by omega) (by omega)]
  congr 2
  omega

/-- So are the values of a match. -/
theorem matchValues_eq (hh : Holds arr caps) (hp : Placed sub stop caps) (hsp : sp ≤ stop) :
    matchValues sub arr sp stop caps.length = orTrap (wholeOr sub sp stop caps) := by
  unfold matchValues wholeOr
  by_cases hcaps : caps = []
  · rw [if_pos hcaps, if_pos (by rw [hcaps]; rfl), whole_eq hsp hp.le]
    rfl
  · rw [if_neg hcaps, if_neg (by rwa [List.length_eq_zero_iff]), capValues_eq hh hp _ _ (Nat.zero_add _)]
    rfl

/-! ## The search -/

/-- A run of a search of the code does what the search comes to. -/
def Finds (sub : List UInt8) (x : Except Fault (Option (ℕ × ℕ × ℕ) × List ℤ))
    (r : Except PatError (Option (ℕ × ℕ × List Cap))) : Prop :=
  match r with
  | .error _ => x = .error .stuck
  | .ok none => ∃ arr', x = .ok (none, arr') ∧ arr'.length = 64
  | .ok (some (sp, stop, caps)) =>
    ∃ arr', x = .ok (some (sp, stop, caps.length), arr') ∧ Holds arr' caps ∧ Placed sub stop caps ∧ sp ≤ stop

/-- The loop of `string.find` and `string.match`. -/
theorem searchFrom_spec (sub pat : List UInt8) (ppos : ℕ) (anchored : Bool) :
    ∀ (fuel sp : ℕ) (arr : List ℤ), arr.length = 64 → sp ≤ sub.length → sub.length - sp < fuel →
      Finds sub (searchFrom sub pat ppos anchored fuel sp arr)
        (searchWith walkRules sub pat ppos anchored (fun _ => true) (sub.length + 1 - sp) sp) := by
  intro fuel
  induction fuel with
  | zero =>
    intro sp arr _ _ hfuel
    omega
  | succ fuel ih =>
    intro sp arr harr hsp hfuel
    have htodo : sub.length + 1 - sp = sub.length - sp + 1 := by omega
    have hspec := @startMatch_spec sub pat arr sp ppos harr hsp
    have hle := @matchAt_le walkRules sub pat
    rw [htodo]
    unfold searchFrom searchWith
    cases hm : matchAt walkRules sub pat ppos sp with
    | error e =>
      rw [hm] at hspec
      dsimp only at hspec ⊢
      rw [hspec]
      rfl
    | ok r =>
      rw [hm] at hspec
      cases r with
      | none =>
        obtain ⟨arr', hrun, harr'⟩ := hspec
        rw [hrun]
        change Finds sub (if anchored = true then _ else if sub.length < sp + 1 then _ else _)
          (if anchored = true then _ else _)
        by_cases hanch : anchored = true
        · rw [if_pos hanch, if_pos hanch]
          exact ⟨arr', rfl, harr'⟩
        rw [if_neg hanch, if_neg hanch]
        by_cases hend : sub.length < sp + 1
        · rw [if_pos hend, show sub.length - sp = 0 by omega]
          exact ⟨arr', rfl, harr'⟩
        · rw [if_neg hend, show sub.length - sp = sub.length + 1 - (sp + 1) by omega]
          exact ih (sp + 1) arr' harr' (by omega) (by omega)
      | some r =>
        obtain ⟨stop, caps⟩ := r
        obtain ⟨arr', hrun, hh, hp⟩ := hspec
        rw [hrun]
        exact ⟨arr', rfl, hh, hp, hle walkRules_forward hm⟩

/-- The search finds what the reference finds. -/
theorem search_spec (hsp : sp ≤ sub.length) : Finds sub (search sub pat sp) (searchAll walkRules sub pat sp) := by
  unfold search searchAll
  exact searchFrom_spec sub pat _ _ _ sp newCaps rfl hsp (by omega)

theorem startPos_le {init : Option Int64} (h : startPos sub init = some sp) : sp ≤ sub.length := by
  unfold startPos at h
  generalize normStrInit _ sub.length = z at h
  by_cases hz : z > sub.length + 1
  · rw [if_pos hz] at h
    cases h
  · rw [if_neg hz] at h
    cases h
    omega

/-- A result that needs all captures is there if the search is safe. -/
theorem resultsWith_safe {vals : ℕ → ℕ → List Cap → Option (List PatVal)}
    {r : Except PatError (Option (ℕ × ℕ × List Cap))}
    (hvals : ∀ sp stop caps, vals sp stop caps = none ↔ ¬ AllClosed caps) :
    asTrap (resultsWith vals r) ≠ .error .stuck ↔ SafeSearch AllClosed r := by
  unfold resultsWith SafeSearch
  cases r with
  | error e => exact iff_of_false (fun h => h rfl) id
  | ok r =>
    cases r with
    | none => exact iff_of_true nofun trivial
    | some r =>
      obtain ⟨sp, stop, caps⟩ := r
      dsimp only
      have hiff := hvals sp stop caps
      cases hv : vals sp stop caps with
      | none => exact iff_of_false (fun h => h rfl) (hiff.mp hv)
      | some vs =>
        refine iff_of_true nofun ?_
        by_contra hopen
        rw [hiff.mpr hopen] at hv
        cases hv

/-- What is done after a search, if it is done with what the search finds. -/
theorem search_results {f : Option (ℕ × ℕ × ℕ) × List ℤ → Except Fault (List PatVal)}
    {vals : ℕ → ℕ → List Cap → Option (List PatVal)} (hsp : sp ≤ sub.length) (hnone : ∀ arr, f (none, arr) = .ok [.nil])
    (hsome : ∀ {t stop : ℕ} {caps : List Cap} {arr : List ℤ}, Holds arr caps → Placed sub stop caps → t ≤ stop →
      f (some (t, stop, caps.length), arr) = orTrap (vals t stop caps)) :
    (search sub pat sp >>= f) = asTrap (resultsWith vals (searchAll walkRules sub pat sp)) := by
  have hspec := @search_spec sub pat sp hsp
  cases hr : searchAll walkRules sub pat sp with
  | error e =>
    rw [hr] at hspec
    rw [show search sub pat sp = .error .stuck from hspec]
    rfl
  | ok r =>
    rw [hr] at hspec
    cases r with
    | none =>
      obtain ⟨arr', hrun, -⟩ := hspec
      rw [hrun]
      exact hnone arr'
    | some r =>
      obtain ⟨t, stop, caps⟩ := r
      obtain ⟨arr', hrun, hh, hp, hle⟩ := hspec
      rw [hrun]
      refine (hsome hh hp hle).trans ?_
      unfold resultsWith
      dsimp only
      cases vals t stop caps with
      | none => rfl
      | some vs => rfl

/-- `string.find` of a pattern. -/
theorem find_eq (sub pat : List UInt8) (init : Option Int64) :
    find sub pat init false = match startPos sub init with
      | none => .ok [.nil]
      | some sp => asTrap (findWith walkRules sub pat sp) := by
  unfold find
  cases hstart : startPos sub init with
  | none => rfl
  | some sp =>
    refine search_results (startPos_le hstart) (fun _ => rfl) fun {t stop caps arr} hh hp _ => ?_
    change (capValues sub arr caps.length 0 >>= _) = _
    rw [capValues_eq hh hp _ _ (Nat.zero_add _), List.drop_zero]
    cases caps.mapM (Cap.value sub) with
    | none => rfl
    | some vs => rfl

/-- `string.match`. -/
theorem matchStr_eq (sub pat : List UInt8) (init : Option Int64) :
    matchStr sub pat init = match startPos sub init with
      | none => .ok [.nil]
      | some sp => asTrap (matchWith walkRules sub pat sp) := by
  unfold matchStr
  cases hstart : startPos sub init with
  | none => rfl
  | some sp => exact search_results (startPos_le hstart) (fun _ => rfl) fun hh hp hle => matchValues_eq hh hp hle

end Lua2wasm.Pattern
