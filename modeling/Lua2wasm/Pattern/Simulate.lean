import Lua2wasm.Pattern.Matcher
import Lua2wasm.Pattern.Semantics
import Lua2wasm.Table.Shapes

/-!
# The matcher searches

`matchPat_sim`: a call of `$match_pat` does what the first outcome of its items is. An error is a trap; if
there is a result, the array has its captures; and if there is none, the array has the captures that it had
before (`Holds`), for each branch undoes what it did to them.
-/

namespace Lua2wasm.Pattern

open Table (Fault setAt setAt_of_lt)
open Pack (chr)

/-- The start of a capture. -/
def Cap.start : Cap → ℕ
  | .unclosed start => start
  | .closed start _ => start
  | .position start => start

/-- How the array has the length of a capture. -/
def Cap.code : Cap → ℤ
  | .unclosed _ => -1
  | .closed _ len => len
  | .position _ => -2

/-- A capture is of what comes before a position. -/
def Cap.Within (s : ℕ) : Cap → Prop
  | .unclosed start => start ≤ s
  | .closed start len => start + len ≤ s
  | .position start => start ≤ s

/-- The array has the captures. -/
structure Holds (arr : List ℤ) (caps : List Cap) : Prop where
  length_arr : arr.length = 64
  length_caps : caps.length ≤ 32
  starts : ∀ i c, caps[i]? = some c → arr[2 * i]? = some (c.start : ℤ)
  codes : ∀ i c, caps[i]? = some c → arr[2 * i + 1]? = some c.code

/-- What a search that has come to a position knows. -/
structure Placed (sub : List UInt8) (s : ℕ) (caps : List Cap) : Prop where
  le : s ≤ sub.length
  within : ∀ c ∈ caps, c.Within s

/-- From the array `arr`, a computation does what the first outcome is. -/
def Sim (sub : List UInt8) (m : PatM Found) (arr : List ℤ) (caps : List Cap) (c : Outcomes PatError (ℕ × List Cap)) :
    Prop :=
  match c.first with
  | .error _ => m.run arr = .error .stuck
  | .ok none => ∃ arr', m.run arr = .ok (none, arr') ∧ Holds arr' caps
  | .ok (some (stop, caps')) =>
    ∃ arr', m.run arr = .ok (some (stop, caps'.length), arr') ∧ Holds arr' caps' ∧ Placed sub stop caps'

variable {sub pat : List UInt8} {arr : List ℤ} {caps : List Cap} {s p : ℕ} {m m' : PatM Found}
  {c c' : Outcomes PatError (ℕ × List Cap)}

/-! ## Outcomes of computations -/

theorem sim_none (hh : Holds arr caps) : Sim sub (pure none) arr caps [] := ⟨arr, rfl, hh⟩

theorem sim_error (e : PatError) (hm : m.run arr = .error .stuck) : Sim sub m arr caps [.error e] := hm

/-- A computation that gives what another gives. -/
theorem Sim.congr {arr₁ : List ℤ} (h : Sim sub m arr₁ caps c) (hm : m'.run arr = m.run arr₁) :
    Sim sub m' arr caps c := by
  unfold Sim at h ⊢
  rw [hm]
  exact h

/-- A read that succeeds. -/
theorem trapM_bind {α β : Type} {x : Option α} {a : α} {f : α → PatM β} (hx : x = some a) :
    (trapM x >>= f).run arr = (f a).run arr := by
  subst hx
  rfl

/-- What was found, or else what is found by `m`. -/
def orFind (m : PatM Found) : Found → PatM Found
  | some r => pure (some r)
  | none => m

/-- One thing is tried, and then another. -/
theorem Sim.orElse {f : Found → PatM Found} (h : Sim sub m arr caps c) (hsome : ∀ r, f (some r) = pure (some r))
    (hnone : ∀ arr', Holds arr' caps → Sim sub (f none) arr' caps c') : Sim sub (m >>= f) arr caps (c ++ c') := by
  have hrun : (m >>= f).run arr = m.run arr >>= fun r => (f r.1).run r.2 := rfl
  unfold Sim at h
  cases hc : c.first with
  | error e =>
    rw [hc] at h
    unfold Sim
    rw [Outcomes.first_append_of_error hc, hrun, h]
    rfl
  | ok r =>
    rw [hc] at h
    cases r with
    | none =>
      obtain ⟨arr', hm, hh⟩ := h
      have := hnone arr' hh
      unfold Sim at this ⊢
      rw [Outcomes.first_append_of_none hc, hrun, hm]
      exact this
    | some r =>
      obtain ⟨arr', hm, hrest⟩ := h
      unfold Sim
      rw [Outcomes.first_append_of_some hc]
      refine ⟨arr', ?_, hrest⟩
      rw [hrun, hm]
      change (f (some (r.1, r.2.length))).run arr' = _
      rw [hsome]
      rfl

/-! ## Captures -/

theorem Placed.mono {t : ℕ} (hp : Placed sub s caps) (hst : s ≤ t) (ht : t ≤ sub.length) : Placed sub t caps := by
  refine ⟨ht, fun c hc => ?_⟩
  have hw := hp.within c hc
  cases c with
  | unclosed start =>
    unfold Cap.Within at hw ⊢
    omega
  | closed start len =>
    unfold Cap.Within at hw ⊢
    omega
  | position start =>
    unfold Cap.Within at hw ⊢
    omega

/-- A capture that is read. -/
theorem capAt_run {α : Type} {i : ℕ} {v : ℤ} {f : ℤ → PatM α} (h : arr[i]? = some v) :
    (capAt i >>= f).run arr = (f v).run arr := by
  unfold capAt
  change (trapM arr[i]? >>= f).run arr = _
  exact trapM_bind h

/-- A capture that is written. -/
theorem setCap_run {α : Type} {i : ℕ} {v : ℤ} {f : Unit → PatM α} (h : i < arr.length) :
    (setCap i v >>= f).run arr = (f ()).run (arr.set i v) := by
  unfold setCap
  change ((trapM (setAt arr i v) >>= fun caps => set caps) >>= f).run arr = _
  rw [setAt_of_lt h]
  rfl

theorem setCap_trap {α : Type} {i : ℕ} {v : ℤ} {f : Unit → PatM α} (h : arr.length ≤ i) :
    (setCap i v >>= f).run arr = .error .stuck := by
  unfold setCap
  change ((trapM (setAt arr i v) >>= fun caps => set caps) >>= f).run arr = _
  have hset : setAt arr i v = none := if_neg (Nat.not_lt.mpr h)
  rw [hset]
  rfl

/-- A capture is put behind the others. -/
theorem Holds.push (hh : Holds arr caps) (hlen : caps.length < 32) (c : Cap) :
    Holds ((arr.set (2 * caps.length) (c.start : ℤ)).set (2 * caps.length + 1) c.code) (caps ++ [c]) := by
  have h64 := hh.length_arr
  have hold : ∀ {i : ℕ} {c' : Cap}, (caps ++ [c])[i]? = some c' →
      (i = caps.length ∧ c' = c) ∨ (i < caps.length ∧ caps[i]? = some c') := by
    intro i c' hi
    by_cases hlt : i < caps.length
    · rw [List.getElem?_append_left hlt] at hi
      exact Or.inr ⟨hlt, hi⟩
    · rw [List.getElem?_append_right (Nat.not_lt.mp hlt)] at hi
      left
      by_cases h0 : i - caps.length = 0
      · rw [h0] at hi
        cases hi
        exact ⟨by omega, rfl⟩
      · rw [List.getElem?_eq_none (by simp; omega)] at hi
        cases hi
  refine ⟨by simp [h64], by simp; omega, ?_, ?_⟩
  · intro i c' hi
    obtain ⟨rfl, rfl⟩ | ⟨hlt, hi⟩ := hold hi
    · rw [List.getElem?_set_ne (by omega), List.getElem?_set_self (by omega)]
    · rw [List.getElem?_set_ne (by omega), List.getElem?_set_ne (by omega)]
      exact hh.starts i c' hi
  · intro i c' hi
    obtain ⟨rfl, rfl⟩ | ⟨hlt, hi⟩ := hold hi
    · rw [List.getElem?_set_self (by simp; omega)]
    · rw [List.getElem?_set_ne (by omega), List.getElem?_set_ne (by omega)]
      exact hh.codes i c' hi

/-- What holds of the captures holds of the first of them. -/
theorem Holds.of_append (hh : Holds arr (caps ++ [c₁])) : Holds arr caps := by
  have hlen := hh.length_caps
  rw [List.length_append] at hlen
  have hget : ∀ {i : ℕ} {c' : Cap}, caps[i]? = some c' → (caps ++ [c₁])[i]? = some c' := by
    intro i c' hi
    rw [List.getElem?_append_left (List.getElem?_eq_some_iff.mp hi).1]
    exact hi
  exact ⟨hh.length_arr, by simp at hlen; omega, fun i c' hi => hh.starts i c' (hget hi),
    fun i c' hi => hh.codes i c' (hget hi)⟩

/-- If a longer list of captures is given up, the shorter one still holds. -/
theorem Sim.of_append (h : Sim sub m arr (caps ++ [c₁]) c) : Sim sub m arr caps c := by
  unfold Sim at h ⊢
  cases hc : c.first with
  | error e =>
    rw [hc] at h
    exact h
  | ok r =>
    rw [hc] at h
    cases r with
    | none =>
      obtain ⟨arr', hm, hh⟩ := h
      exact ⟨arr', hm, hh.of_append⟩
    | some r => exact h

/-! ## Items -/

/-- The call that goes on does what the outcomes are. -/
def Goes (sub : List UInt8) (next : Next) (p : ℕ) (k : Cont) : Prop :=
  ∀ (s : ℕ) (caps : List Cap) (arr : List ℤ), Holds arr caps → Placed sub s caps →
    Sim sub (next s p caps.length) arr caps (k s caps)

variable {next : Next} {k : Cont}

/-- A new capture, which the array has no room for if it is the 33rd. -/
theorem newCap_sim (hh : Holds arr caps) (hp : Placed sub s caps) (hk : Goes sub next p k) (c : Cap)
    (hc : c.start = s) (hw : c.Within s) :
    Sim sub (do
      setCap (2 * caps.length) s
      setCap (2 * caps.length + 1) c.code
      next s p (caps.length + 1)) arr caps
      (if 32 ≤ caps.length then walkRules.bad .captures else k s (caps ++ [c])) := by
  have h64 := hh.length_arr
  by_cases hfull : 32 ≤ caps.length
  · rw [if_pos hfull]
    exact sim_error _ (setCap_trap (by omega))
  · rw [if_neg hfull]
    have hh' := hh.push (by omega) c
    have hp' : Placed sub s (caps ++ [c]) := by
      refine ⟨hp.le, fun c' hc' => ?_⟩
      rw [List.mem_append, List.mem_singleton] at hc'
      obtain hc' | rfl := hc'
      · exact hp.within c' hc'
      · exact hw
    have hnext := hk s (caps ++ [c]) _ hh' hp'
    rw [List.length_append, List.length_singleton] at hnext
    refine hnext.of_append.congr ?_
    rw [setCap_run (by omega), setCap_run (by simp; omega), hc]

/-- The scan for the last open capture. -/
theorem findOpen_run {f : Option ℕ → PatM Found} (hh : Holds arr caps) :
    ∀ i, i ≤ caps.length → (findOpen i >>= f).run arr = (f ((lastOpen caps i).map Prod.fst)).run arr := by
  intro i
  induction i with
  | zero => exact fun _ => rfl
  | succ i ih =>
    intro hi
    have hget : caps[i]? = some caps[i] := List.getElem?_eq_getElem (by omega)
    have hcode := hh.codes i _ hget
    unfold findOpen lastOpen
    rw [bind_assoc, capAt_run hcode, hget]
    cases hcap : caps[i] with
    | unclosed start => rfl
    | closed start len =>
      have hne : ¬ ((len : ℤ) = -1) := by omega
      change ((if (len : ℤ) = -1 then pure (some i) else findOpen i) >>= f).run arr = _
      rw [if_neg hne]
      exact ih (by omega)
    | position start => exact ih (by omega)

theorem lastOpen_some {idx start : ℕ} :
    ∀ i, lastOpen caps i = some (idx, start) → idx < i ∧ caps[idx]? = some (.unclosed start) := by
  intro i
  induction i with
  | zero => nofun
  | succ i ih =>
    intro h
    unfold lastOpen at h
    split at h
    · rename_i heq
      cases h
      exact ⟨Nat.lt_succ_self _, heq⟩
    · obtain ⟨hlt, hget⟩ := ih h
      exact ⟨by omega, hget⟩

/-- The length of a capture is changed. -/
theorem Holds.setCode (hh : Holds arr caps) {idx : ℕ} {c : Cap} (hget : caps[idx]? = some c) (c' : Cap)
    (hstart : c'.start = c.start) : Holds (arr.set (2 * idx + 1) c'.code) (caps.set idx c') := by
  have h64 := hh.length_arr
  have h32 := hh.length_caps
  have hlt : idx < caps.length := (List.getElem?_eq_some_iff.mp hget).1
  refine ⟨by simp [h64], by simp [h32], ?_, ?_⟩
  · intro i d hi
    rw [List.getElem?_set_ne (by omega)]
    obtain ⟨rfl, rfl⟩ | ⟨-, hi⟩ := Probe.of_getElem?_set hi
    · rw [hstart]
      exact hh.starts i c hget
    · exact hh.starts i d hi
  · intro i d hi
    obtain ⟨rfl, rfl⟩ | ⟨hne, hi⟩ := Probe.of_getElem?_set hi
    · rw [List.getElem?_set_self (by omega)]
    · rw [List.getElem?_set_ne (by omega)]
      exact hh.codes i d hi

/-- `)` closes the last open capture, and opens it again if what comes after it fails. -/
theorem close_sim {ppos : ℕ} (hh : Holds arr caps) (hp : Placed sub s caps) (hk : Goes sub next (ppos + 1) k) :
    Sim sub (matchClose next s ppos caps.length) arr caps (PItem.closeCap.outcomes walkRules sub s caps k) := by
  unfold matchClose PItem.outcomes
  cases hlast : lastOpen caps caps.length with
  | none =>
    refine (sim_none hh).congr ?_
    rw [findOpen_run hh _ (Nat.le_refl _), hlast]
    rfl
  | some r =>
    obtain ⟨idx, start⟩ := r
    obtain ⟨hlt, hget⟩ := lastOpen_some _ hlast
    have h64 := hh.length_arr
    have h32 := hh.length_caps
    have hwin : start ≤ s := hp.within _ (List.mem_of_getElem? hget)
    have hclosed : Holds (arr.set (2 * idx + 1) (s - start : ℤ)) (caps.set idx (.closed start (s - start))) := by
      have hcode : (Cap.closed start (s - start)).code = (s - start : ℤ) := Int.ofNat_sub hwin
      have hset := hh.setCode hget (.closed start (s - start)) rfl
      rwa [hcode] at hset
    have hplaced : Placed sub s (caps.set idx (.closed start (s - start))) := by
      refine ⟨hp.le, fun c hc => ?_⟩
      obtain hc | rfl := List.mem_or_eq_of_mem_set hc
      · exact hp.within c hc
      · unfold Cap.Within
        omega
    have hnext := hk s _ _ hclosed hplaced
    rw [List.length_set] at hnext
    have hrun : (matchClose next s ppos caps.length).run arr =
        (next s (ppos + 1) caps.length).run (arr.set (2 * idx + 1) (s - start : ℤ)) >>= fun r =>
          (orFind (setCap (2 * idx + 1) (-1) >>= fun _ => pure none) r.1).run r.2 := by
      unfold matchClose
      rw [findOpen_run hh _ (Nat.le_refl _), hlast]
      change (capAt (2 * idx) >>= _).run arr = _
      rw [capAt_run (hh.starts idx _ hget), setCap_run (by omega)]
      rfl
    -- what comes after the closing fails, or has the result
    change Sim sub (matchClose next s ppos caps.length) arr caps (k s (caps.set idx (.closed start (s - start))))
    unfold Sim at hnext ⊢
    rw [hrun]
    cases hc : (k s (caps.set idx (.closed start (s - start)))).first with
    | error e =>
      rw [hc] at hnext
      rw [hnext]
      rfl
    | ok r =>
      rw [hc] at hnext
      cases r with
      | none =>
        obtain ⟨arr', hm, hh'⟩ := hnext
        have hopen := hh'.setCode (List.getElem?_set_self hlt) (.unclosed start) rfl
        rw [List.set_set, ← (List.getElem?_eq_some_iff.mp hget).2, List.set_getElem_self] at hopen
        refine ⟨_, ?_, hopen⟩
        rw [hm]
        change ((setCap (2 * idx + 1) (-1) >>= fun _ => pure none : PatM Found)).run arr' = _
        rw [setCap_run (by rw [hh'.length_arr]; omega), (List.getElem?_eq_some_iff.mp hget).2]
        rfl
      | some r =>
        obtain ⟨arr', hm, hrest⟩ := hnext
        refine ⟨arr', ?_, hrest⟩
        rw [hm]
        rfl

/-- A byte of the subject. -/
theorem byteAt_run {α : Type} {i : ℕ} {z : ℤ} {b : UInt8} {f : UInt8 → PatM α} (hz : z = i) (hb : sub[i]? = some b) :
    (byteAt sub z >>= f).run arr = (f b).run arr := by
  unfold byteAt
  rw [hz, if_neg (by omega), Int.toNat_natCast]
  exact trapM_bind hb

/-- The loop that compares a back-reference. -/
theorem sameBytes_run {f : Bool → PatM Found} {start : ℕ} :
    ∀ (todo i : ℕ), s + i + todo ≤ sub.length → start + i + todo ≤ sub.length →
      (sameBytes sub s start todo i >>= f).run arr =
        (f (decide ((sub.drop (s + i)).take todo = (sub.drop (start + i)).take todo))).run arr := by
  intro todo
  induction todo with
  | zero =>
    intro i _ _
    rw [List.take_zero, List.take_zero, decide_eq_true rfl]
    rfl
  | succ todo ih =>
    intro i h₁ h₂
    have hcut : ∀ q, q < sub.length → (sub.drop q).take (todo + 1) = sub.getD q 0 :: (sub.drop (q + 1)).take todo := by
      intro q hq
      rw [List.drop_eq_getElem_cons hq, List.take_succ_cons, List.getD_eq_getElem?_getD,
        List.getElem?_eq_getElem hq]
      rfl
    have hget : ∀ q, q < sub.length → sub[q]? = some (sub.getD q 0) := by
      intro q hq
      rw [List.getD_eq_getElem?_getD, List.getElem?_eq_getElem hq]
      rfl
    unfold sameBytes
    rw [bind_assoc, byteAt_run (Int.natCast_add s i).symm (hget _ (by omega)), bind_assoc,
      byteAt_run (Int.natCast_add start i).symm (hget _ (by omega)), hcut _ (by omega), hcut _ (by omega)]
    by_cases heq : sub.getD (s + i) 0 = sub.getD (start + i) 0
    · rw [if_neg (not_not.mpr heq), ih (i + 1) (by omega) (by omega), heq, ← Nat.add_assoc, ← Nat.add_assoc]
      congr 2
      simp
    · rw [if_pos heq]
      have hne : ¬ (sub.getD (s + i) 0 :: (sub.drop (s + i + 1)).take todo
          = sub.getD (start + i) 0 :: (sub.drop (start + i + 1)).take todo) := by
        intro h
        exact heq (List.cons.inj h).1
      rw [decide_eq_false hne]
      rfl

/-- A back-reference. -/
theorem backref_sim {ppos idx : ℕ} (hh : Holds arr caps) (hp : Placed sub s caps) (hk : Goes sub next (ppos + 2) k) :
    Sim sub (matchBackref next sub idx s ppos caps.length) arr caps
      ((PItem.backref idx).outcomes walkRules sub s caps k) := by
  unfold PItem.outcomes
  dsimp only
  cases hget : caps[idx]? with
  | none =>
    refine (sim_none hh).congr ?_
    unfold matchBackref
    rw [if_pos (List.getElem?_eq_none_iff.mp hget)]
  | some c =>
    have hlt : idx < caps.length := (List.getElem?_eq_some_iff.mp hget).1
    have hstart := hh.starts idx c hget
    have hcode := hh.codes idx c hget
    have hrefers : (matchBackref next sub idx s ppos caps.length).run arr =
        (if c.code < 0 then pure none
          else if s + c.code > sub.length then pure none
          else do
            let same ← sameBytes sub s c.start c.code.toNat 0
            if same then next (s + c.code.toNat) (ppos + 2) caps.length else pure none : PatM Found).run arr := by
      unfold matchBackref
      rw [if_neg (Nat.not_le.mpr hlt), capAt_run hstart, capAt_run hcode]
    -- only a closed capture has a length to compare
    cases c with
    | unclosed start => exact (sim_none hh).congr hrefers
    | position start => exact (sim_none hh).congr hrefers
    | closed start len =>
      have hw : start + len ≤ s := hp.within _ (List.mem_of_getElem? hget)
      have hrun : (matchBackref next sub idx s ppos caps.length).run arr =
          (if s + len ≤ sub.length then do
              let same ← sameBytes sub s start len 0
              if same then next (s + len) (ppos + 2) caps.length else pure none
            else pure none : PatM Found).run arr := by
        rw [hrefers]
        change (if ((len : ℤ) < 0) then pure none else if ((s : ℤ) + len > sub.length) then pure none
          else _ : PatM Found).run arr = _
        rw [if_neg (by omega)]
        by_cases hroom : s + len ≤ sub.length
        · rw [if_neg (by omega), if_pos hroom]
          rfl
        · rw [if_pos (by omega), if_neg hroom]
      change Sim sub (matchBackref next sub idx s ppos caps.length) arr caps
        (if s + len ≤ sub.length ∧ (sub.drop s).take len = (sub.drop start).take len then k (s + len) caps else [])
      by_cases hroom : s + len ≤ sub.length
      · rw [if_pos hroom, sameBytes_run len 0 hroom (by omega), Nat.add_zero, Nat.add_zero] at hrun
        by_cases hsame : (sub.drop s).take len = (sub.drop start).take len
        · rw [if_pos ⟨hroom, hsame⟩]
          refine (hk (s + len) caps arr hh (hp.mono (by omega) hroom)).congr ?_
          rw [hrun, decide_eq_true hsame]
          rfl
        · rw [if_neg fun h => hsame h.2]
          refine (sim_none hh).congr ?_
          rw [hrun, decide_eq_false hsame]
          rfl
      · rw [if_neg fun h => hroom h.1]
        refine (sim_none hh).congr ?_
        rw [hrun, if_neg hroom]

/-- The scan of `%b`. -/
theorem balanceFrom_run {x y : UInt8} {f : Option ℕ → PatM Found} :
    ∀ (fuel i depth : ℕ), sub.length - i < fuel → ∃ o : Option ℕ, (∀ q, o = some q → q < sub.length ∧ i ≤ q) ∧
      walkBalance x y i depth (sub.drop i) = o.map (· + 1) ∧
      (balanceFrom sub x y fuel i depth >>= f).run arr = (f o).run arr := by
  intro fuel
  induction fuel with
  | zero =>
    intro i depth h
    omega
  | succ fuel ih =>
    intro i depth h
    unfold balanceFrom
    cases hs : sub.drop i with
    | nil =>
      rw [if_pos (drop_nil hs)]
      exact ⟨none, nofun, rfl, rfl⟩
    | cons b r =>
      obtain ⟨hget, hdrop, hlt, -⟩ := drop_cons hs
      rw [if_neg (Nat.not_le.mpr hlt), bind_assoc, trapM_bind hget]
      unfold walkBalance
      generalize (if b = x then depth + 1 else depth) = d
      by_cases hclose : b = y
      · rw [if_pos hclose, if_pos hclose]
        by_cases hd : d - 1 = 0
        · rw [if_pos hd, if_pos hd]
          refine ⟨some i, ?_, rfl, rfl⟩
          intro q hq
          cases hq
          exact ⟨hlt, Nat.le_refl _⟩
        · rw [if_neg hd, if_neg hd, ← hdrop]
          obtain ⟨o, ho, hwalk, hrun⟩ := ih (i + 1) (d - 1) (by omega)
          exact ⟨o, fun q hq => ⟨(ho q hq).1, by have := (ho q hq).2; omega⟩, hwalk, hrun⟩
      · rw [if_neg hclose, if_neg hclose, ← hdrop]
        obtain ⟨o, ho, hwalk, hrun⟩ := ih (i + 1) d (by omega)
        exact ⟨o, fun q hq => ⟨(ho q hq).1, by have := (ho q hq).2; omega⟩, hwalk, hrun⟩

/-- How `%b` goes on behind the closing byte. -/
def afterBalance (next : ℕ → ℕ → ℕ → PatM Found) (ppos level : ℕ) : Option ℕ → PatM Found
  | none => pure none
  | some k => next (k + 1) ppos level

/-- `%b` with its two bytes. -/
theorem balance_sim {ppos : ℕ} {x y : UInt8} {r : List UInt8} (hpat : pat.drop (ppos + 2) = x :: y :: r)
    (hh : Holds arr caps) (hp : Placed sub s caps) (hk : Goes sub next (ppos + 4) k) :
    Sim sub (matchBalance next sub pat s ppos caps.length) arr caps
      ((PItem.balance x y).outcomes walkRules sub s caps k) := by
  obtain ⟨hx, hpat', -⟩ := drop_cons hpat
  obtain ⟨hy, -, hlt, -⟩ := drop_cons hpat'
  have hrun : (matchBalance next sub pat s ppos caps.length).run arr =
      (if sub.length ≤ s then pure none
        else do
          let b ← trapM sub[s]?
          if b ≠ x then pure none
          else do
            let k ← balanceFrom sub x y (sub.length + 1) (s + 1) 1
            afterBalance next (ppos + 4) caps.length k : PatM Found).run arr := by
    unfold matchBalance
    rw [if_neg (by omega), trapM_bind hx]
    exact trapM_bind hy
  unfold PItem.outcomes
  dsimp only
  by_cases hend : sub.length ≤ s
  · rw [List.getElem?_eq_none hend, if_neg nofun]
    refine (sim_none hh).congr ?_
    rw [hrun, if_pos hend]
  have hget : sub[s]? = some sub[s] := List.getElem?_eq_getElem (by omega)
  rw [if_neg hend, trapM_bind hget] at hrun
  by_cases hb : sub[s] = x
  · rw [hget, if_pos (congrArg some hb)]
    rw [if_neg (not_not.mpr hb)] at hrun
    obtain ⟨o, ho, hwalk, hscan⟩ := @balanceFrom_run sub arr x y (afterBalance next (ppos + 4) caps.length)
      (sub.length + 1) (s + 1) 1 (by omega)
    rw [hscan] at hrun
    have hbalance : walkRules.balance x y sub (s + 1) = .ok (o.map (· + 1)) := congrArg Except.ok hwalk
    rw [hbalance]
    cases o with
    | none => exact (sim_none hh).congr hrun
    | some q =>
      have hq := ho q rfl
      exact (hk (q + 1) caps arr hh (hp.mono (by omega) (by omega))).congr hrun
  · rw [hget, if_neg fun h => hb (Option.some.inj h)]
    refine (sim_none hh).congr ?_
    rw [hrun, if_pos hb]

/-! ## Classes -/

/-- A helper that does not use the captures. -/
theorem lift_run {α β : Type} {x : Except Fault α} {v : α} {f : α → PatM β} (h : x = .ok v) :
    ((liftM x : PatM α) >>= f).run arr = (f v).run arr := by
  subst h
  rfl

theorem lift_trap {α β : Type} {x : Except Fault α} {f : α → PatM β} (h : x = .error .stuck) :
    ((liftM x : PatM α) >>= f).run arr = .error .stuck := by
  subst h
  rfl

/-- A class that is not at the end of the pattern. -/
def PClass.Plain (c : PClass) : Prop := c ≠ .bracket ∧ c ≠ .percent

/-- A plain class is never wrong for the code. -/
theorem guarded_plain {cl : PClass} (h : cl.Plain) (left : Bool) : guarded walkRules cl left c = c := by
  unfold guarded PClass.fault
  cases cl with
  | any => rfl
  | lit b => rfl
  | esc letter =>
    dsimp only
    by_cases hzero : letter = chr '0'
    · rw [if_pos hzero]
      rfl
    · rw [if_neg hzero]
  | set neg text =>
    dsimp only
    by_cases hopen : (setRest (text.length + 1) true text).isNone = true
    · rw [if_pos hopen]
      rfl
    · rw [if_neg hopen]
  | bracket => exact absurd rfl h.1
  | percent => exact absurd rfl h.2

/-- `%f` with its set. -/
theorem frontier_sim {ppos : ℕ} {r : List UInt8} (hpat : pat.drop (ppos + 2) = chr '[' :: r)
    (hh : Holds arr caps) (hp : Placed sub s caps)
    (hk : ∀ j, pat.drop j = (readSet r).after → Goes sub next j k) :
    Sim sub (matchFrontier next sub pat s ppos caps.length) arr caps
      ((PItem.frontier (readSet r)).outcomes walkRules sub s caps k) := by
  obtain ⟨hget, -, hlt, -⟩ := drop_cons hpat
  obtain ⟨-, hbracket⟩ | ⟨neg, text, hread⟩ := readSet_cases r
  · rw [hbracket]
    apply sim_error .bracket
    unfold matchFrontier
    rw [if_neg (by omega), trapM_bind hget, if_neg (by simp), lift_trap ((itemEnd_set hpat).1 hbracket)]
  · have hne : readSet r ≠ .bracket := by
      rw [hread]
      nofun
    have hplain : (readSet r).Plain := by
      refine ⟨hne, ?_⟩
      rw [hread]
      nofun
    obtain ⟨j, hj, hafter⟩ := (itemEnd_set hpat).2 hne
    have hle := hp.le
    -- the bytes around the position
    have hrun : (matchFrontier next sub pat s ppos caps.length).run arr =
        ((liftM (matchSet (if 0 < s then sub.getD (s - 1) 0 else 0) pat (ppos + 2)) : PatM Bool) >>= fun before =>
          if before then pure none
          else do
            let here ← matchSet (sub.getD s 0) pat (ppos + 2)
            if here then next s j caps.length else pure none : PatM Found).run arr := by
      unfold matchFrontier
      rw [if_neg (by omega), trapM_bind hget, if_neg (by simp), lift_run hj, List.getD_eq_getElem?_getD,
        List.getD_eq_getElem?_getD]
      have hcur : ∀ {f : UInt8 → PatM Found}, (if s < sub.length then trapM sub[s]? >>= f else pure 0 >>= f).run arr =
          (f (sub[s]?.getD 0)).run arr := by
        intro f
        by_cases hlt' : s < sub.length
        · rw [if_pos hlt', trapM_bind (List.getElem?_eq_getElem hlt'), List.getElem?_eq_getElem hlt']
          rfl
        · rw [if_neg hlt', List.getElem?_eq_none (Nat.not_lt.mp hlt')]
          rfl
      by_cases hpos : 0 < s
      · rw [if_pos hpos, if_pos hpos, trapM_bind (List.getElem?_eq_getElem (show s - 1 < sub.length by omega)), hcur,
          List.getElem?_eq_getElem (show s - 1 < sub.length by omega)]
        rfl
      · rw [if_neg hpos, if_neg hpos]
        change (if s < sub.length then _ else _ : PatM Found).run arr = _
        rw [hcur]
    rw [lift_run (matchSet_spec hpat hne _)] at hrun
    unfold PItem.outcomes
    dsimp only
    rw [guarded_plain hplain]
    generalize (if 0 < s then sub.getD (s - 1) 0 else 0) = prev at hrun ⊢
    have hhas : ∀ c, walkRules.has (readSet r) c = .ok ((readSet r).walkHas c) := fun _ => rfl
    rw [hhas, hhas]
    cases hbefore : (readSet r).walkHas prev with
    | true =>
      rw [hbefore, if_pos rfl] at hrun
      exact (sim_none hh).congr hrun
    | false =>
      rw [hbefore, if_neg (by decide), lift_run (matchSet_spec hpat hne _)] at hrun
      cases hhere : (readSet r).walkHas (sub.getD s 0) with
      | true =>
        rw [hhere, if_pos rfl] at hrun
        exact (hk j hafter s caps arr hh hp).congr hrun
      | false =>
        rw [hhere, if_neg (by decide)] at hrun
        exact (sim_none hh).congr hrun

variable {cl : PClass} {j : ℕ}

theorem once_sim (htest : ∀ b, matchOneItem b pat p = .ok (cl.walkHas b)) (hh : Holds arr caps)
    (hp : Placed sub s caps) (hk : Goes sub next j k) :
    Sim sub (matchOnce next sub pat j s p caps.length) arr caps (once walkRules sub cl s (k (s + 1) caps)) := by
  unfold matchOnce once
  by_cases hend : sub.length ≤ s
  · rw [if_pos hend, List.getElem?_eq_none hend]
    exact sim_none hh
  have hget : sub[s]? = some sub[s] := List.getElem?_eq_getElem (by omega)
  rw [if_neg hend, hget]
  change Sim sub _ arr caps (whenHas (.ok (cl.walkHas sub[s])) (k (s + 1) caps))
  cases hhit : cl.walkHas sub[s] with
  | true =>
    refine (hk (s + 1) caps arr hh (hp.mono (by omega) (by omega))).congr ?_
    rw [trapM_bind rfl, lift_run (htest _), hhit, if_pos rfl]
  | false =>
    refine (sim_none hh).congr ?_
    rw [trapM_bind rfl, lift_run (htest _), hhit, if_neg (by decide)]

theorem opt_sim (htest : ∀ b, matchOneItem b pat p = .ok (cl.walkHas b)) (hh : Holds arr caps)
    (hp : Placed sub s caps) (hk : Goes sub next j k) :
    Sim sub (matchOpt next sub pat j s p caps.length) arr caps
      (once walkRules sub cl s (k (s + 1) caps) ++ k s caps) := by
  have hskip := hk s caps arr hh hp
  unfold matchOpt once
  by_cases hend : sub.length ≤ s
  · rw [if_neg (Nat.not_lt.mpr hend), List.getElem?_eq_none hend]
    exact hskip
  have hget : sub[s]? = some sub[s] := List.getElem?_eq_getElem (by omega)
  rw [if_pos (Nat.not_le.mp hend), hget]
  change Sim sub _ arr caps (whenHas (.ok (cl.walkHas sub[s])) (k (s + 1) caps) ++ k s caps)
  cases hhit : cl.walkHas sub[s] with
  | true =>
    have htry := (hk (s + 1) caps arr hh (hp.mono (by omega) (by omega))).orElse
      (f := orFind (next s j caps.length)) (fun _ => rfl) fun arr' hh' => hk s caps arr' hh' hp
    refine htry.congr ?_
    rw [trapM_bind rfl, lift_run (htest _), hhit]
    exact congrArg (StateT.run · arr) (if_pos rfl)
  | false =>
    refine hskip.congr ?_
    rw [trapM_bind rfl, lift_run (htest _), hhit, if_neg (by decide)]
    rfl

theorem lazy_sim (htest : ∀ b, matchOneItem b pat p = .ok (cl.walkHas b)) (hk : Goes sub next j k) :
    ∀ (fuel i : ℕ) (arr : List ℤ), sub.length - (s + i) < fuel → Holds arr caps → Placed sub (s + i) caps →
      Sim sub (matchLazy next sub pat j s p caps.length fuel i) arr caps
        (lazyFrom walkRules sub cl (fun s => k s caps) fuel (s + i)) := by
  intro fuel
  induction fuel with
  | zero =>
    intro i arr h
    omega
  | succ fuel ih =>
    intro i arr h hh hp
    unfold matchLazy lazyFrom
    refine (hk (s + i) caps arr hh hp).orElse (fun _ => rfl) fun arr' hh' => ?_
    unfold once
    by_cases hend : sub.length ≤ s + i
    · rw [if_pos hend, List.getElem?_eq_none hend]
      exact sim_none hh'
    have hget : sub[s + i]? = some sub[s + i] := List.getElem?_eq_getElem (by omega)
    rw [if_neg hend, hget]
    change Sim sub _ arr' caps (whenHas (.ok (cl.walkHas sub[s + i])) _)
    cases hhit : cl.walkHas sub[s + i] with
    | true =>
      refine (ih (i + 1) arr' (by omega) hh' (hp.mono (by omega) (by omega))).congr ?_
      rw [trapM_bind rfl, lift_run (htest _), hhit, if_pos rfl]
    | false =>
      refine (sim_none hh').congr ?_
      rw [trapM_bind rfl, lift_run (htest _), hhit, if_neg (by decide)]

/-- The loop that counts. -/
theorem countItem_run {f : ℕ → PatM Found} (htest : ∀ b, matchOneItem b pat p = .ok (cl.walkHas b)) :
    ∀ (fuel i : ℕ), sub.length - (s + i) < fuel → s + i ≤ sub.length → ∃ m, countFrom walkRules sub cl fuel (s + i) = .ok m ∧
      s + i + m ≤ sub.length ∧ (countItem sub pat s p fuel i >>= f).run arr = (f (i + m)).run arr := by
  intro fuel
  induction fuel with
  | zero =>
    intro i h
    omega
  | succ fuel ih =>
    intro i h hle
    unfold countItem countFrom
    by_cases hend : sub.length ≤ s + i
    · rw [if_pos hend, List.getElem?_eq_none hend]
      exact ⟨0, rfl, hle, rfl⟩
    have hget : sub[s + i]? = some sub[s + i] := List.getElem?_eq_getElem (by omega)
    rw [if_neg hend, hget]
    have hhas : ∀ c, walkRules.has cl c = .ok (cl.walkHas c) := fun _ => rfl
    dsimp only
    rw [hhas, bind_assoc, trapM_bind rfl, bind_assoc, lift_run (htest _)]
    cases hhit : cl.walkHas sub[s + i] with
    | true =>
      obtain ⟨m, hm, hroom, hrun⟩ := ih (i + 1) (by omega) (by omega)
      rw [← Nat.add_assoc] at hm hroom
      refine ⟨m + 1, ?_, by omega, ?_⟩
      · dsimp only
        rw [hm]
      · rw [if_pos rfl, hrun]
        congr 2
        omega
    | false => exact ⟨0, rfl, hle, rfl⟩

/-- The loop that gives back. -/
theorem backoff_sim {minK : ℕ} (hk : Goes sub next j k) :
    ∀ (m : ℕ) (arr : List ℤ), minK ≤ m → Holds arr caps → (∀ i, i ≤ m → Placed sub (s + i) caps) →
      Sim sub (matchBackoff next j s caps.length minK m) arr caps
        ((List.range' (s + minK) (m + 1 - minK)).reverse.flatMap fun s => k s caps) := by
  intro m
  induction m with
  | zero =>
    intro arr hmin hh hp
    have h0 : minK = 0 := by omega
    subst h0
    change Sim sub (next s j caps.length) arr caps (k s caps ++ [])
    rw [List.append_nil]
    exact hk s caps arr hh (hp 0 (Nat.le_refl _))
  | succ m ih =>
    intro arr hmin hh hp
    have hlist : (List.range' (s + minK) (m + 1 + 1 - minK)).reverse =
        (s + (m + 1)) :: (List.range' (s + minK) (m + 1 - minK)).reverse := by
      rw [show m + 1 + 1 - minK = (m + 1 - minK) + 1 by omega, List.range'_concat, List.reverse_append,
        List.reverse_singleton, List.singleton_append]
      congr 1
      omega
    rw [hlist, List.flatMap_cons]
    unfold matchBackoff
    refine (hk (s + (m + 1)) caps arr hh (hp (m + 1) (Nat.le_refl _))).orElse (fun _ => rfl) fun arr' hh' => ?_
    by_cases hlast : m + 1 ≤ minK
    · rw [if_pos hlast, show m + 1 - minK = 0 by omega]
      exact sim_none hh'
    · rw [if_neg hlast]
      exact ih arr' (by omega) hh' fun i hi => hp i (by omega)

theorem greedy_sim {minK : ℕ} (htest : ∀ b, matchOneItem b pat p = .ok (cl.walkHas b)) (hh : Holds arr caps)
    (hp : Placed sub s caps) (hk : Goes sub next j k) :
    Sim sub (matchGreedy next sub pat j s p caps.length minK) arr caps
      (greedy walkRules sub cl minK s fun s => k s caps) := by
  unfold matchGreedy greedy
  have hle := hp.le
  obtain ⟨m, hm, hroom, hrun⟩ := @countItem_run sub pat arr s p cl
    (fun m => if m < minK then pure none else matchBackoff next j s caps.length minK m) htest (sub.length + 1) 0
    (by omega) (by omega)
  rw [Nat.add_zero] at hroom
  rw [Nat.zero_add] at hrun
  rw [show countFrom walkRules sub cl (sub.length + 1) s = .ok m from hm]
  dsimp only
  by_cases hfew : m < minK
  · rw [if_pos hfew] at hrun
    rw [show m + 1 - minK = 0 by omega]
    exact (sim_none hh).congr hrun
  · rw [if_neg hfew] at hrun
    exact (backoff_sim hk m arr (by omega) hh fun i hi => hp.mono (by omega) (by omega)).congr hrun

/-! ## The matcher -/

/-- The quantifier that is there. -/
theorem quantAt_run {rest : List UInt8} {f : Option UInt8 → PatM Found} (hj : pat.drop j = rest) :
    ∃ o : Option UInt8, (quantAt pat j >>= f).run arr = (f o).run arr ∧
      match o with
      | none => readQuant rest = (.one, rest)
      | some q => ∃ r, pat.drop (j + 1) = r ∧ ((q = chr '?' ∧ readQuant rest = (.opt, r)) ∨
          (q = chr '-' ∧ readQuant rest = (.lazy, r)) ∨ (q = chr '*' ∧ readQuant rest = (.star, r)) ∨
          (q = chr '+' ∧ readQuant rest = (.plus, r))) := by
  unfold quantAt
  cases rest with
  | nil =>
    rw [if_neg (Nat.not_lt.mpr (drop_nil hj))]
    exact ⟨none, rfl, rfl⟩
  | cons b r =>
    obtain ⟨hget, hdrop, hlt, -⟩ := drop_cons hj
    rw [if_pos hlt, bind_assoc, trapM_bind hget]
    refine ⟨if b = chr '*' ∨ b = chr '+' ∨ b = chr '-' ∨ b = chr '?' then some b else none, rfl, ?_⟩
    by_cases h1 : b = chr '?'
    · subst h1
      exact ⟨r, hdrop, Or.inl ⟨rfl, rfl⟩⟩
    by_cases h2 : b = chr '-'
    · subst h2
      exact ⟨r, hdrop, Or.inr (Or.inl ⟨rfl, rfl⟩)⟩
    by_cases h3 : b = chr '*'
    · subst h3
      exact ⟨r, hdrop, Or.inr (Or.inr (Or.inl ⟨rfl, rfl⟩))⟩
    by_cases h4 : b = chr '+'
    · subst h4
      exact ⟨r, hdrop, Or.inr (Or.inr (Or.inr ⟨rfl, rfl⟩))⟩
    rw [if_neg (by simp [h1, h2, h3, h4])]
    change readQuant (b :: r) = (.one, b :: r)
    unfold readQuant
    dsimp only
    rw [if_neg h1, if_neg h2, if_neg h3, if_neg h4]

/-- `%` is at the end of the pattern. -/
theorem readClass_percent {b : UInt8} {r : List UInt8} (h : (readClass b r).1 = .percent) : (readClass b r).2 = [] := by
  unfold readClass at h ⊢
  by_cases hesc : b = chr '%'
  · rw [if_pos hesc] at h ⊢
    cases r with
    | nil => rfl
    | cons c r => cases h
  rw [if_neg hesc] at h ⊢
  by_cases hset : b = chr '['
  · rw [if_pos hset] at h
    obtain ⟨-, hread⟩ | ⟨neg, text, hread⟩ := readSet_cases r
    · rw [hread] at h
      cases h
    · rw [hread] at h
      cases h
  · rw [if_neg hset] at h
    split at h <;> cases h

/-- A class with its quantifier. -/
theorem item_sim {b : UInt8} {r : List UInt8} (hpat : pat.drop p = b :: r) (hh : Holds arr caps)
    (hp : Placed sub s caps) (hk : ∀ j, pat.drop j = (readSingle b r).2 → Goes sub next j k) :
    Sim sub (matchItem next sub pat s p caps.length) arr caps
      ((readSingle b r).1.outcomes walkRules sub s caps k) := by
  have hitem : readSingle b r = (.single (readClass b r).1 (readQuant (readClass b r).2).1,
      (readQuant (readClass b r).2).2) := rfl
  rw [hitem] at hk ⊢
  obtain ⟨hstuck, hend⟩ := itemEnd_spec hpat
  have hone := matchOneItem_spec hpat
  have hlast := @readClass_percent b r
  unfold PItem.outcomes
  generalize readClass b r = cr at hk hstuck hend hone hlast ⊢
  obtain ⟨cl, rest⟩ := cr
  dsimp only at hk hstuck hend hone hlast ⊢
  by_cases hbracket : cl = .bracket
  · subst hbracket
    apply sim_error .bracket
    unfold matchItem
    rw [lift_trap (hstuck rfl)]
  obtain ⟨j, hj, hrest⟩ := hend hbracket
  have hrun : ∀ {f : ℕ → PatM Found}, ((liftM (itemEnd pat p) : PatM ℕ) >>= f).run arr = (f j).run arr := lift_run hj
  -- the byte behind the item decides which quantifier it has
  obtain ⟨o, hquant, ho⟩ := @quantAt_run pat arr j _ (fun quant => match quant with
    | none => matchOnce next sub pat j s p caps.length
    | some q =>
      if q = chr '?' then matchOpt next sub pat (j + 1) s p caps.length
      else if q = chr '-' then matchLazy next sub pat (j + 1) s p caps.length (sub.length + 1) 0
      else matchGreedy next sub pat (j + 1) s p caps.length (if q = chr '+' then 1 else 0)) hrest
  have hitem : (matchItem next sub pat s p caps.length).run arr = _ := hrun.trans hquant
  by_cases hpercent : cl = .percent
  · -- it reads the pattern beyond its end, if a byte is left
    have hnil : rest = [] := hlast hpercent
    subst hnil hpercent
    have ho' : o = none := by
      cases o with
      | none => rfl
      | some q => obtain ⟨r', -, ⟨-, ho⟩ | ⟨-, ho⟩ | ⟨-, ho⟩ | ⟨-, ho⟩⟩ := ho <;> cases ho
    subst ho'
    by_cases hleft : s < sub.length
    · rw [decide_eq_true hleft]
      apply sim_error .percent
      rw [hitem]
      unfold matchOnce
      rw [if_neg (Nat.not_le.mpr hleft), trapM_bind (List.getElem?_eq_getElem hleft), lift_trap ((hone _).1 rfl)]
    · rw [decide_eq_false hleft]
      change Sim sub _ arr caps (once walkRules sub .percent s (k (s + 1) caps))
      unfold once
      rw [List.getElem?_eq_none (Nat.not_lt.mp hleft)]
      refine (sim_none hh).congr ?_
      rw [hitem]
      unfold matchOnce
      rw [if_pos (Nat.not_lt.mp hleft)]
  have htest : ∀ b, matchOneItem b pat p = .ok (cl.walkHas b) := fun b => (hone b).2 hpercent hbracket
  rw [guarded_plain ⟨hbracket, hpercent⟩]
  cases o with
  | none =>
    rw [ho] at hk ⊢
    exact (once_sim htest hh hp (hk j hrest)).congr hitem
  | some q =>
    obtain ⟨r', hr', ⟨rfl, ho⟩ | ⟨rfl, ho⟩ | ⟨rfl, ho⟩ | ⟨rfl, ho⟩⟩ := ho
    · rw [ho] at hk ⊢
      exact (opt_sim htest hh hp (hk (j + 1) hr')).congr hitem
    · rw [ho] at hk ⊢
      exact (lazy_sim htest (hk (j + 1) hr') (sub.length + 1) 0 arr (by omega) hh hp).congr hitem
    · rw [ho] at hk ⊢
      exact (greedy_sim htest hh hp (hk (j + 1) hr')).congr hitem
    · rw [ho] at hk ⊢
      exact (greedy_sim htest hh hp (hk (j + 1) hr')).congr hitem

/-- `(` opens a capture or is one of a position. -/
theorem open_sim {r : List UInt8} (hpat : pat.drop p = chr '(' :: r) (hh : Holds arr caps) (hp : Placed sub s caps)
    (hk : ∀ j, pat.drop j = (readItem (chr '(') r).2 → Goes sub next j k) :
    Sim sub (matchOpen next pat s p caps.length) arr caps ((readItem (chr '(') r).1.outcomes walkRules sub s caps k) := by
  obtain ⟨-, hdrop, -, hlen⟩ := drop_cons hpat
  unfold matchOpen
  cases r with
  | nil =>
    refine (newCap_sim hh hp (hk (p + 1) hdrop) (.unclosed s) rfl (Nat.le_refl s)).congr ?_
    rw [if_neg (by simp at hlen; omega)]
    rfl
  | cons c r =>
    obtain ⟨hget', hdrop', hlt', -⟩ := drop_cons hdrop
    have hread : readItem (chr '(') (c :: r) = if c = chr ')' then (.posCap, r) else (.openCap, c :: r) := rfl
    rw [if_pos hlt', hread]
    rw [hread] at hk
    by_cases hc : c = chr ')'
    · rw [if_pos hc] at hk ⊢
      refine (newCap_sim hh hp (hk (p + 2) hdrop') (.position s) rfl (Nat.le_refl s)).congr ?_
      rw [trapM_bind hget']
      dsimp only
      rw [if_pos hc]
      rfl
    · rw [if_neg hc] at hk ⊢
      refine (newCap_sim hh hp (hk (p + 1) hdrop) (.unclosed s) rfl (Nat.le_refl s)).congr ?_
      rw [trapM_bind hget']
      dsimp only
      rw [if_neg hc]
      rfl

/-- The item behind a `%`. -/
def readEscaped (d : UInt8) (r : List UInt8) : PItem × List UInt8 :=
  if 49 ≤ d ∧ d ≤ 57 then (.backref (d.toNat - 49), r)
  else if d = chr 'b' then
    match r with
    | x :: y :: r => (.balance x y, r)
    | _ => (.noBalance, [])
  else if d = chr 'f' then
    match r with
    | e :: r => if e = chr '[' then (.frontier (readSet r), (readSet r).after) else (.noFrontier, [])
    | [] => (.noFrontier, [])
  else readSingle (chr '%') (d :: r)

/-- `%` and a byte. -/
theorem esc_sim {d : UInt8} {r : List UInt8} (hpat : pat.drop p = chr '%' :: d :: r) (hh : Holds arr caps)
    (hp : Placed sub s caps) (hk : ∀ j, pat.drop j = (readItem (chr '%') (d :: r)).2 → Goes sub next j k) :
    Sim sub (if 49 ≤ d ∧ d ≤ 57 then matchBackref next sub (d.toNat - 49) s p caps.length
        else if d = chr 'b' then matchBalance next sub pat s p caps.length
        else if d = chr 'f' then matchFrontier next sub pat s p caps.length
        else matchItem next sub pat s p caps.length) arr caps
      ((readItem (chr '%') (d :: r)).1.outcomes walkRules sub s caps k) := by
  obtain ⟨-, hdrop, -⟩ := drop_cons hpat
  obtain ⟨-, hdrop', -, hlen⟩ := drop_cons hdrop
  have hread : readItem (chr '%') (d :: r) = readEscaped d r := rfl
  rw [hread] at hk ⊢
  unfold readEscaped at hk ⊢
  by_cases hdigit : 49 ≤ d ∧ d ≤ 57
  · rw [if_pos hdigit] at hk ⊢
    rw [if_pos hdigit]
    exact backref_sim hh hp (hk (p + 2) hdrop')
  rw [if_neg hdigit] at hk ⊢
  rw [if_neg hdigit]
  -- `%b` needs two bytes behind it
  by_cases hb : d = chr 'b'
  · rw [if_pos hb] at hk ⊢
    rw [if_pos hb]
    obtain _ | ⟨x, _ | ⟨y, r⟩⟩ := r
    · refine (sim_none hh).congr ?_
      unfold matchBalance
      rw [if_pos (by simp at hlen; omega)]
    · refine (sim_none hh).congr ?_
      unfold matchBalance
      rw [if_pos (by simp at hlen; omega)]
    · have hdrop₂ := (drop_cons hdrop').2.1
      exact balance_sim hdrop' hh hp (hk (p + 4) (drop_cons hdrop₂).2.1)
  rw [if_neg hb] at hk ⊢
  rw [if_neg hb]
  -- `%f` needs a set behind it
  by_cases hf : d = chr 'f'
  · rw [if_pos hf] at hk ⊢
    rw [if_pos hf]
    cases r with
    | nil =>
      refine (sim_none hh).congr ?_
      unfold matchFrontier
      rw [if_pos (by simp at hlen; omega)]
    | cons e r =>
      dsimp only at hk ⊢
      by_cases hset : e = chr '['
      · subst hset
        rw [if_pos rfl] at hk ⊢
        exact frontier_sim hdrop' hh hp hk
      · rw [if_neg hset]
        refine (sim_none hh).congr ?_
        obtain ⟨hget, -, hlt, -⟩ := drop_cons hdrop'
        unfold matchFrontier
        rw [if_neg (by omega), trapM_bind hget, if_pos hset]
  · rw [if_neg hf] at hk ⊢
    rw [if_neg hf]
    exact item_sim hpat hh hp hk

/-- A call of `$match_pat` does what the first outcome of its items is. -/
theorem matchPat_sim (sub pat : List UInt8) :
    ∀ (fuel p : ℕ), pat.length - p < fuel →
      Goes sub (matchPat sub pat fuel) p (outcomes walkRules sub (itemsOf fuel (pat.drop p))) := by
  intro fuel
  induction fuel with
  | zero =>
    intro p h
    omega
  | succ fuel ih =>
    intro p h s caps arr hh hp
    unfold matchPat
    cases hs : pat.drop p with
    | nil =>
      rw [if_pos (drop_nil hs)]
      exact ⟨arr, rfl, hh, hp⟩
    | cons b r =>
      obtain ⟨hget, hdrop, hlt, hlen⟩ := drop_cons hs
      -- what follows this item is matched by the induction hypothesis
      have hnext : ∀ j, pat.drop j = (readItem b r).2 → Goes sub (matchPat sub pat fuel) j
          (outcomes walkRules sub (itemsOf fuel (readItem b r).2)) := by
        intro j hj
        have hshort := readItem_length b r
        have hj' : pat.length - j = (readItem b r).2.length := by
          rw [← hj, List.length_drop]
        have hgo := ih j (by omega)
        rwa [hj] at hgo
      change Sim sub _ arr caps ((readItem b r).1.outcomes walkRules sub s caps
        (outcomes walkRules sub (itemsOf fuel (readItem b r).2)))
      rw [if_neg (Nat.not_le.mpr hlt)]
      have hlast : p + 1 = pat.length ↔ r = [] := by
        rw [← List.length_eq_zero_iff]
        omega
      -- a last `$` matches only at the end
      by_cases hdollar : b = chr '$' ∧ r = []
      · obtain ⟨rfl, rfl⟩ := hdollar
        have hitems : itemsOf fuel [] = [] := by
          cases fuel <;> rfl
        have heos : Sim sub (pure (if s = sub.length then some (s, caps.length) else none)) arr caps
            (if s = sub.length then outcomes walkRules sub (itemsOf fuel []) s caps else []) := by
          rw [hitems]
          by_cases hat : s = sub.length
          · simp only [if_pos hat]
            exact ⟨arr, rfl, hh, hp⟩
          · simp only [if_neg hat]
            exact sim_none hh
        refine heos.congr ?_
        rw [trapM_bind hget, if_pos ⟨rfl, hlast.mpr rfl⟩]
      have hrun : ∀ {x : PatM Found}, (if b = chr '$' ∧ p + 1 = pat.length then
          (pure (if s = sub.length then some (s, caps.length) else none) : PatM Found) else x) = x :=
        if_neg fun h => hdollar ⟨h.1, hlast.mp h.2⟩
      by_cases hopen : b = chr '('
      · subst hopen
        refine (open_sim hs hh hp hnext).congr ?_
        rw [trapM_bind hget, hrun, if_pos rfl]
      by_cases hclose : b = chr ')'
      · subst hclose
        refine (close_sim hh hp (hnext (p + 1) hdrop)).congr ?_
        rw [trapM_bind hget, hrun]
        rfl
      by_cases hesc : b = chr '%'
      · subst hesc
        cases r with
        | nil =>
          refine (item_sim hs hh hp hnext).congr ?_
          rw [trapM_bind hget, hrun, if_neg hopen, if_neg hclose, if_neg fun h => by simp at hlen; omega]
        | cons d r =>
          obtain ⟨hget', -, hlt', -⟩ := drop_cons hdrop
          refine (esc_sim hs hh hp hnext).congr ?_
          rw [trapM_bind hget, hrun, if_neg hopen, if_neg hclose, if_pos ⟨rfl, hlt'⟩, trapM_bind hget']
      · have hread : readItem b r = readSingle b r := by
          unfold readItem
          rw [if_neg hdollar, if_neg hopen, if_neg hclose, if_neg hesc]
        rw [hread] at hnext ⊢
        refine (item_sim hs hh hp hnext).congr ?_
        rw [trapM_bind hget, hrun, if_neg hopen, if_neg hclose, if_neg fun h => hesc h.1]

end Lua2wasm.Pattern
