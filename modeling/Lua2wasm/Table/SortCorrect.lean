import Lua2wasm.Table.Quicksort
import Lua2wasm.Table.World

/-!
# When `table.sort` sorts

`Sorting` is what is asked of one call on an array, whatever the comparison is: it ends, it touches no position outside of
the array, what it returns with is a permutation, and sorted where the comparison is a strict weak order.
`tableSort_sorts_iff` says that all calls on an array do this exactly if it has at most `2^30` values. No engine makes
an array of references that long, so that the sort is right for every array that there can be.

In an array with one value more, which only the model has, the last three positions could become a segment of its own,
and the sum of its ends does not fit 32 bits: the middle is a negative number, and the sort reads and writes there
(`qsort_escapes`).
-/

namespace Lua2wasm.Table

open Raising Segment

/-- The comparison that an argument stands for, if it is one. -/
def CmpArg.cmp : CmpArg → Option (Option (ℕ → Val → Val → Except String Val))
  | .absent => some none
  | .fn f => some (some f)
  | .other => none

/-- What is asked of a call of `table.sort` on an array of `n` values. -/
structure Sorting (ltRaw : Oracle) (arg : CmpArg) (s : TabState) (n : ℤ) (res : Except Fault Unit) (s' : SortState) :
    Prop where
  /-- It ends, and does not trap. -/
  ends : res ≠ .error .stuck
  /-- It reads and writes positions of the array. -/
  touched : ∀ p ∈ s'.touched, 1 ≤ p ∧ p ≤ n
  /-- The other keys are as they were. -/
  other : ∀ key, (∀ p, 1 ≤ p → p ≤ n → key ≠ posKey p) → s'.tab.tget key = s.tget key
  /-- It returns with a permutation. -/
  permuted : res = .ok () → ∃ σ : Equiv.Perm ℤ, (∀ p, ¬ (1 ≤ p ∧ p ≤ n) → σ p = p) ∧
    ∀ p, 1 ≤ p → p ≤ n → s'.tab.tget (posKey p) = s.tget (posKey (σ p))
  /-- With a strict weak order it returns, and the values are sorted. -/
  sorted : ∀ (cmp) (r : Val → Val → Prop), arg.cmp = some cmp →
    Fair n (cmpLt ltRaw cmp) {v | ∃ p, (1 ≤ p ∧ p ≤ n) ∧ v = s.tget (posKey p)} r (fun p => s.tget (posKey p)) →
    res = .ok () ∧ ∀ i j, 1 ≤ i → i < j → j ≤ n → ¬ r (s'.tab.tget (posKey j)) (s'.tab.tget (posKey i))

/-- All calls on an array. -/
def SortsAll (s : TabState) (n : ℤ) : Prop :=
  ∀ ltRaw arg, Sorting ltRaw arg s n ((tableSort ltRaw arg).run ⟨s, 0, []⟩ : Except Fault Unit × SortState).1
    ((tableSort ltRaw arg).run ⟨s, 0, []⟩ : Except Fault Unit × SortState).2

variable {s₀ : TabState} {n lo up i j p upm1 : ℤ} {lt : Oracle} {S : Set Val} {r : Val → Val → Prop} {a a' : ℤ → Val}
  {s : SortState} {v x y pivot : Val} {t : TabState}

/-! ## Arrays that are not too long -/

/-- The array at the start. -/
theorem holds_start (hok : TabOk t none) (hlive : ∀ p, 1 ≤ p → p ≤ n → t.tget (posKey p) ≠ .nil) :
    Holds t n (fun p => t.tget (posKey p)) ⟨t, 0, []⟩ :=
  ⟨⟨hok, fun _ _ _ => rfl, hlive, fun _ _ => rfl⟩, nofun⟩

/-- What a call does once its comparison is known. -/
def sortWhole (ltRaw : Oracle) (cmp : Option (ℕ → Val → Val → Except String Val)) : SortM Unit := do
  match tabLen (← get).tab with
  | none => throw .stuck
  | some n => if 1 < n then qsort (cmpLt ltRaw cmp) (n + 1) 1 n else pure ()

/-- A call on an array, with any order in mind. -/
theorem tableSort_spec {m : ℕ} {ltRaw : Oracle} {arg : CmpArg} (hok : TabOk t none) (hlen : tabLen t = some m) (hm : m ≤ 2^30)
    (hlive : ∀ p : ℤ, 1 ≤ p → p ≤ m → t.tget (posKey p) ≠ .nil) :
    Meets (tableSort ltRaw arg) ⟨t, 0, []⟩
      (fun _ s' => ∃ cmp, arg.cmp = some cmp ∧ Sorts t m (cmpLt ltRaw cmp) S r 1 m (fun p => t.tget (posKey p)) s')
      (fun e s' => e ≠ .stuck ∧ (∃ a', Holds t m a' s') ∧
        ∀ cmp, arg.cmp = some cmp → ¬ Fair m (cmpLt ltRaw cmp) S r (fun p => t.tget (posKey p))) := by
  have h := holds_start hok hlive
  -- the sort, when the comparison is known
  have hsort : ∀ cmp, Meets (sortWhole ltRaw cmp) ⟨t, 0, []⟩
      (fun _ s' => Sorts t m (cmpLt ltRaw cmp) S r 1 m (fun p => t.tget (posKey p)) s')
      (Raised t m (cmpLt ltRaw cmp) S r (fun p => t.tget (posKey p))) := by
    intro cmp
    unfold sortWhole
    apply meets_get_bind
    rw [hlen]
    dsimp only
    by_cases hlong : 1 < m
    · rw [if_pos hlong]
      exact qsort_spec (by exact_mod_cast hm) (m + 1) 1 m _ _ (le_refl 1) (le_refl _) (Nat.succ_pos m)
        (by push_cast; omega) h
    · rw [if_neg hlong]
      exact meets_pure ⟨_, Permuted.refl 1 m _, h, fun _ => sorted_of_le (by omega)⟩
  unfold tableSort
  cases arg with
  | absent =>
    refine (hsort none).mono ?_ ?_
    · intro _ s' hs
      exact ⟨none, rfl, hs⟩
    · rintro e s' ⟨he, hholds, hfair⟩
      refine ⟨he, hholds, ?_⟩
      rintro cmp hcmp
      cases hcmp
      exact hfair
  | fn f =>
    refine (hsort (some f)).mono ?_ ?_
    · intro _ s' hs
      exact ⟨some f, rfl, hs⟩
    · rintro e s' ⟨he, hholds, hfair⟩
      refine ⟨he, hholds, ?_⟩
      rintro cmp hcmp
      cases hcmp
      exact hfair
  | other => exact meets_throw ⟨(fun he => by cases he), ⟨_, h⟩, (fun _ hcmp => by cases hcmp)⟩

/-- Arrays of up to `2^30` values. -/
theorem sortsAll_of_le {m : ℕ} (hok : TabOk t none) (hlen : tabLen t = some m) (hm : m ≤ 2^30)
    (hlive : ∀ p : ℤ, 1 ≤ p → p ≤ m → t.tget (posKey p) ≠ .nil) : SortsAll t m := by
  intro ltRaw arg
  have hspec := fun S r => @tableSort_spec S r t m ltRaw arg hok hlen hm hlive
  unfold Meets at hspec
  generalize ((tableSort ltRaw arg).run ⟨t, 0, []⟩ : Except Fault Unit × SortState) = w at hspec
  obtain ⟨res, s'⟩ := w
  cases res with
  | error e =>
    obtain ⟨he, ⟨a', h'⟩, -⟩ := hspec ∅ fun _ _ => False
    refine ⟨fun heq => he (Except.error.inj heq), h'.touched, h'.arr.other, nofun, ?_⟩
    intro cmp r hcmp hfair
    exact absurd hfair ((hspec _ r).2.2 cmp hcmp)
  | ok u =>
    obtain ⟨-, -, a', ⟨σ, hσ, ha'⟩, h', -⟩ := hspec ∅ fun _ _ => False
    refine ⟨nofun, h'.touched, h'.arr.other, ?_, ?_⟩
    · intro _
      refine ⟨σ, hσ, ?_⟩
      intro p hp hpm
      rw [h'.arr.value p hp hpm, ha']
      rfl
    · intro cmp r hcmp hfair
      obtain ⟨cmp', hcmp', a'', -, h'', hsorted⟩ := hspec {v | ∃ p : ℤ, (1 ≤ p ∧ p ≤ m) ∧ v = t.tget (posKey p)} r
      rw [hcmp] at hcmp'
      cases hcmp'
      refine ⟨rfl, ?_⟩
      intro i j hi hij hj
      rw [h''.arr.value j (by omega) hj, h''.arr.value i hi (by omega)]
      exact hsorted hfair i j hi hij hj

/-! ## Longer arrays -/

/-- A comparison whose answer is known. -/
theorem compare_answer {b : Bool} (h : Holds s₀ n a s) (hanswer : lt s.calls x y = .ok b) :
    Ensures (compare lt x y) s (fun b' s' => b' = b ∧ Holds s₀ n a s' ∧ s'.calls = s.calls + 1) := by
  unfold compare
  apply meets_get_bind
  apply meets_set_bind
  rw [hanswer]
  exact meets_pure ⟨rfl, ⟨h.arr, h.touched⟩, rfl⟩

/-- The scan that goes up passes as many values as there are answers. -/
theorem scanUp_passes (hn : n < 2^31) :
    ∀ (m fuel : ℕ) (i : ℤ) (s : SortState), Holds s₀ n a s → 0 ≤ i → i + m + 1 < upm1 → upm1 ≤ n → m < fuel →
      (∀ k < m, ∀ x y, lt (s.calls + k) x y = .ok true) → (∀ x y, lt (s.calls + m) x y = .ok false) →
      Ensures (scanUp lt pivot upm1 fuel i) s
        (fun w s' => w = (i + m + 1, a (i + m + 1)) ∧ Holds s₀ n a s' ∧ s'.calls = s.calls + m + 1) := by
  intro m
  induction m with
  | zero =>
    rintro (_ | fuel) i s h hi hlt hup hfuel - hstop
    · omega
    unfold scanUp
    apply (getIdx_spec hn h (p := i + 1) (by omega)).bind_safe
    rintro _ s₁ ⟨rfl, h₁, hcalls₁⟩
    apply (compare_answer h₁ (by rw [hcalls₁]; exact hstop _ _)).bind_safe
    rintro b s₂ ⟨rfl, h₂, hcalls₂⟩
    refine meets_pure ⟨?_, h₂, by omega⟩
    push_cast
    rw [add_zero]
  | succ m ih =>
    rintro (_ | fuel) i s h hi hlt hup hfuel hpass hstop
    · omega
    unfold scanUp
    apply (getIdx_spec hn h (p := i + 1) (by omega)).bind_safe
    rintro _ s₁ ⟨rfl, h₁, hcalls₁⟩
    apply (compare_answer h₁ (by rw [hcalls₁]; exact hpass 0 (Nat.succ_pos m) _ _)).bind_safe
    rintro b s₂ ⟨rfl, h₂, hcalls₂⟩
    change Meets (if i + 1 = upm1 then throw invalidOrder else _) _ _ _
    rw [if_neg (by omega)]
    have hcalls : ∀ k, s₂.calls + k = s.calls + (k + 1) := by omega
    refine (ih fuel (i + 1) s₂ h₂ (by omega) (by omega) hup (by omega) ?_ ?_).imp ?_
    · intro k hk x y
      rw [hcalls]
      exact hpass (k + 1) (by omega) x y
    · intro x y
      rw [hcalls]
      exact hstop x y
    · rintro w s' ⟨rfl, h', hcalls'⟩
      refine ⟨?_, h', by omega⟩
      push_cast
      rw [show i + 1 + (m : ℤ) + 1 = i + (m + 1) + 1 by omega]

/-- A position before the first one was touched. -/
def Strayed (s : SortState) : Prop := ∃ p ∈ s.touched, p < 1

/-- The ends of a segment stay, if the comparison says so. -/
theorem sortEnds_stays (hn : n < 2^31) (hlo : 1 ≤ lo) (hup : up ≤ n) (hlt : lo < up) (h : Holds s₀ n a s)
    (hanswer : ∀ x y, lt s.calls x y = .ok false) :
    Ensures (sortEnds lt lo up) s (fun _ s' => Holds s₀ n a s' ∧ s'.calls = s.calls + 1) := by
  unfold sortEnds
  apply (getIdx_spec hn h (p := lo) (by omega)).bind_safe
  rintro _ s₁ ⟨rfl, h₁, hcalls₁⟩
  apply (getIdx_spec hn h₁ (p := up) (by omega)).bind_safe
  rintro _ s₂ ⟨rfl, h₂, hcalls₂⟩
  apply (compare_answer h₂ (by rw [hcalls₂, hcalls₁]; exact hanswer _ _)).bind_safe
  rintro b s₃ ⟨rfl, h₃, hcalls₃⟩
  exact meets_pure ⟨h₃, by omega⟩

/-- The middle stays, if the comparison says so twice. -/
theorem sortMiddle_stays (hn : n < 2^31) (hlo : 1 ≤ lo) (hup : up ≤ n) (hp : lo < p) (hp' : p < up)
    (h : Holds s₀ n a s) (hfirst : ∀ x y, lt s.calls x y = .ok false) (hlast : ∀ x y, lt (s.calls + 1) x y = .ok false) :
    Ensures (sortMiddle lt lo p up) s (fun _ s' => Holds s₀ n a s' ∧ s'.calls = s.calls + 2) := by
  unfold sortMiddle
  apply (getIdx_spec hn h (p := p) (by omega)).bind_safe
  rintro _ s₁ ⟨rfl, h₁, hcalls₁⟩
  apply (getIdx_spec hn h₁ (p := lo) (by omega)).bind_safe
  rintro _ s₂ ⟨rfl, h₂, hcalls₂⟩
  apply (compare_answer h₂ (by rw [hcalls₂, hcalls₁]; exact hfirst _ _)).bind_safe
  rintro b s₃ ⟨rfl, h₃, hcalls₃⟩
  change Meets (getIdx up >>= _) s₃ _ _
  apply (getIdx_spec hn h₃ (p := up) (by omega)).bind_safe
  rintro _ s₄ ⟨rfl, h₄, hcalls₄⟩
  apply (compare_answer h₄ (by rw [hcalls₄, hcalls₃, hcalls₂, hcalls₁]; exact hlast _ _)).bind_safe
  rintro b s₅ ⟨rfl, h₅, hcalls₅⟩
  exact meets_pure ⟨h₅, by omega⟩

/-- A read before the first position. -/
theorem getIdx_outside (h : Holds s₀ n a s) (hp : p < 1) :
    Ensures (getIdx p) s (fun _ s' => ArrayIs s₀ s'.tab n a ∧ s'.calls = s.calls ∧ Strayed s') := by
  obtain ⟨sh, hash⟩ := h.arr.ok.hash
  unfold getIdx
  apply meets_get_bind
  apply meets_set_bind
  unfold tabGetArrIdx
  rw [if_neg (by omega), tabGetHash_spec hash]
  exact meets_pure ⟨h.arr, rfl, p, List.mem_cons_self, hp⟩

/-- A segment whose middle is negative, with a comparison that raises there. -/
theorem qsort_escapes {fuel : ℕ} {msg : String} (hn : n < 2^31) (hlo : 1 ≤ lo) (hup : up ≤ n) (hlong : lo + 2 ≤ up)
    (hmid : mid lo up < 1) (h : Holds s₀ n a s) (hends : ∀ x y, lt s.calls x y = .ok false)
    (hraise : ∀ x y, lt (s.calls + 1) x y = .error msg) :
    Meets (qsort lt (fuel + 1) lo up) s (fun _ _ => False) (fun _ s' => Strayed s') := by
  unfold qsort
  rw [if_neg (by omega)]
  apply (sortEnds_stays hn hlo hup (by omega) h hends).bind_safe
  rintro _ s₁ ⟨h₁, hcalls₁⟩
  rw [if_neg (by omega)]
  unfold sortMiddle
  simp only [bind_assoc]
  apply (getIdx_outside h₁ hmid).bind_safe
  rintro ap s₂ ⟨harr₂, hcalls₂, q, hq, hq1⟩
  unfold getIdx
  rw [bind_assoc]
  apply meets_get_bind
  rw [bind_assoc]
  apply meets_set_bind
  rw [harr₂.get hn (by omega)]
  apply meets_pure_bind
  unfold compare
  rw [bind_assoc]
  apply meets_get_bind
  rw [bind_assoc]
  apply meets_set_bind
  rw [show s₂.calls = s.calls + 1 by omega, hraise]
  refine Meets.bind (Q := fun _ _ => False) (meets_throw ⟨q, List.mem_cons_of_mem _ hq, hq1⟩) ?_
  exact fun _ _ h => h.elim

/-- A sum of two ends that does not fit makes the middle negative. -/
theorem mid_neg (hwrap : 2^31 ≤ lo + up) (hup : lo + up < 2^32) : mid lo up < 1 := by
  have hneg : (lo + up).bmod (2^32) = lo + up - 2^32 := by
    rw [← Int.sub_bmod_right (lo + up) (2^32)]
    apply Int.bmod_eq_of_le <;> norm_num <;> omega
  unfold mid
  rw [hneg]
  omega

/-- The partition of a segment, with answers that take the pivot to the last position but three. -/
theorem partition_last {d : ℕ} (hn : n < 2^31) (hlo : 1 ≤ lo) (hup : up ≤ n) (hd : up = lo + d + 4) (h : Holds s₀ n a s)
    (hpass : ∀ k < d, ∀ x y, lt (s.calls + k) x y = .ok true) (hstop : ∀ x y, lt (s.calls + d) x y = .ok false)
    (hdown : ∀ x y, lt (s.calls + d + 1) x y = .ok true) (hstop' : ∀ x y, lt (s.calls + d + 2) x y = .ok false) :
    Ensures (partition lt lo up) s (fun i s' => i = up - 3 ∧ (∃ a', Holds s₀ n a' s') ∧ s'.calls = s.calls + d + 3) := by
  obtain ⟨fuel, hfuel⟩ : ∃ fuel, (up - lo).toNat = fuel + 2 := ⟨(up - lo).toNat - 2, by omega⟩
  unfold partition
  apply (getIdx_spec hn h (p := up - 1) (by omega)).bind_safe
  rintro _ s₁ ⟨rfl, h₁, hcalls₁⟩
  rw [hfuel]
  unfold partitionFrom
  rw [bind_assoc]
  apply (scanUp_passes hn d (fuel + 2) lo s₁ h₁ (by omega) (by omega) (by omega) (by omega)
    (by rw [hcalls₁]; exact hpass) (by rw [hcalls₁]; exact hstop)).bind_safe
  rintro _ s₂ ⟨rfl, h₂, hcalls₂⟩
  -- the scan that goes down passes one value
  unfold scanDown
  rw [bind_assoc, bind_assoc]
  apply (getIdx_spec hn h₂ (p := up - 1 - 1) (by omega)).bind_safe
  rintro _ s₃ ⟨rfl, h₃, hcalls₃⟩
  rw [bind_assoc]
  apply (compare_answer h₃ (by rw [hcalls₃, hcalls₂, hcalls₁]; exact hdown _ _)).bind_safe
  rintro b s₄ ⟨rfl, h₄, hcalls₄⟩
  change Meets ((if up - 1 - 1 < lo + d + 1 then throw invalidOrder else _) >>= _) _ _ _
  rw [if_neg (by omega)]
  unfold scanDown
  rw [bind_assoc]
  apply (getIdx_spec hn h₄ (p := up - 1 - 1 - 1) (by omega)).bind_safe
  rintro _ s₅ ⟨rfl, h₅, hcalls₅⟩
  rw [bind_assoc]
  apply (compare_answer h₅ (by rw [hcalls₅, hcalls₄, hcalls₃, hcalls₂, hcalls₁]; exact hstop' _ _)).bind_safe
  rintro b s₆ ⟨rfl, h₆, hcalls₆⟩
  change Meets (pure _ >>= _) _ _ _
  apply meets_pure_bind
  dsimp only
  rw [if_pos (by omega)]
  apply meets_pure_bind
  -- the pivot goes to its place
  apply (getIdx_spec hn h₆ (p := lo + d + 1) (by omega)).bind_safe
  rintro _ s₇ ⟨rfl, h₇, hcalls₇⟩
  rw [← bind_assoc]
  apply (swap_spec hn h₇ (i := up - 1) (j := lo + d + 1) (by omega) (by omega)).bind_safe
  rintro _ s₈ ⟨h₈, hcalls₈⟩
  exact meets_pure ⟨by omega, ⟨_, h₈⟩, by omega⟩

/-- The answers that take the pivot of an array of `n` values to the position `n - 3`, until the sort of the three
values after it compares their middle. -/
def answers (n k : ℕ) : Except String Val :=
  if k < 3 then .ok (.bool false)
  else if k < n - 2 then .ok (.bool true)
  else if k = n - 1 then .ok (.bool true)
  else if k < n + 2 then .ok (.bool false)
  else .error "stop"

/-- The sort of an array of more than `2^30` values reads a negative position. -/
theorem qsort_long {m : ℕ} (hm : 2^30 < m) (hm' : m + 1 < 2^31) (hlt : ∀ k x y, lt k x y = (answers m k).map Val.truthy)
    (h : Holds s₀ m a s) (hcalls : s.calls = 0) :
    Meets (qsort lt (m + 1) 1 m) s (fun _ _ => False) (fun _ s' => Strayed s') := by
  have hn : (m : ℤ) < 2^31 := by omega
  have hfalse : ∀ k, k < 3 → ∀ x y, lt k x y = .ok false := by
    intro k hk x y
    rw [hlt, answers, if_pos hk]
    rfl
  unfold qsort
  rw [if_neg (by omega)]
  apply (sortEnds_stays hn (le_refl 1) (le_refl _) (by omega) h (hfalse _ (by omega))).bind_safe
  rintro _ s₁ ⟨h₁, hcalls₁⟩
  rw [if_neg (by omega)]
  rw [mid_eq (le_refl 1) (by omega) (by omega)]
  apply (sortMiddle_stays hn (le_refl 1) (le_refl _) (by omega) (by omega) h₁ (hfalse _ (by omega))
    (hfalse _ (by omega))).bind_safe
  rintro _ s₂ ⟨h₂, hcalls₂⟩
  rw [if_neg (by omega)]
  apply (getIdx_spec hn h₂ (p := (1 + m) / 2) (by omega)).bind_safe
  rintro _ s₃ ⟨rfl, h₃, hcalls₃⟩
  apply (getIdx_spec hn h₃ (p := m - 1) (by omega)).bind_safe
  rintro _ s₄ ⟨rfl, h₄, hcalls₄⟩
  rw [← bind_assoc]
  apply (swap_spec hn h₄ (i := (1 + m) / 2) (j := m - 1) (by omega) (by omega)).bind_safe
  rintro _ s₅ ⟨h₅, hcalls₅⟩
  apply (partition_last (d := m - 5) hn (le_refl 1) (le_refl _) (by omega) h₅ ?_ ?_ ?_ ?_).bind_safe
  · rintro i s₆ ⟨rfl, ⟨a', h₆⟩, hcalls₆⟩
    rw [if_neg (by omega)]
    obtain ⟨fuel, rfl⟩ : ∃ fuel, m = fuel + 1 := ⟨m - 1, by omega⟩
    refine Meets.bind (@qsort_escapes _ _ _ _ _ _ _ _ "stop" hn (by omega) (le_refl _) (by omega)
      (mid_neg (by omega) (by omega)) h₆ ?_ ?_) fun _ _ h => h.elim
    · intro x y
      rw [hlt, answers, if_neg (by omega), if_neg (by omega), if_neg (by omega), if_pos (by omega)]
      rfl
    · intro x y
      rw [hlt, answers, if_neg (by omega), if_neg (by omega), if_neg (by omega), if_neg (by omega)]
      rfl
  · intro k hk x y
    rw [hlt, answers, if_neg (by omega), if_pos (by omega)]
    rfl
  · intro x y
    rw [hlt, answers, if_neg (by omega), if_neg (by omega), if_neg (by omega), if_pos (by omega)]
    rfl
  · intro x y
    rw [hlt, answers, if_neg (by omega), if_neg (by omega), if_pos (by omega)]
    rfl
  · intro x y
    rw [hlt, answers, if_neg (by omega), if_neg (by omega), if_neg (by omega), if_pos (by omega)]
    rfl

/-- A comparison function with which the sort of an array of more than `2^30` values reads a negative position. -/
theorem sort_strays {m : ℕ} (hok : TabOk t none) (hlen : tabLen t = some m) (hlong : 2^30 < m) (hm : m < 2^31)
    (hlive : ∀ p : ℤ, 1 ≤ p → p ≤ m → t.tget (posKey p) ≠ .nil) :
    ∃ arg, ∀ ltRaw, Meets (tableSort ltRaw arg) ⟨t, 0, []⟩ (fun _ _ => False) (fun _ s' => Strayed s') := by
  have h := holds_start hok hlive
  by_cases hfit : m + 1 < 2^31
  · refine ⟨.fn fun k _ _ => answers m k, ?_⟩
    intro ltRaw
    unfold tableSort
    apply meets_pure_bind
    apply meets_get_bind
    rw [hlen]
    dsimp only
    rw [if_pos (by omega)]
    exact qsort_long hlong hfit (fun _ _ _ => rfl) h rfl
  · refine ⟨.fn fun k _ _ => if k = 0 then .ok (.bool false) else .error "stop", ?_⟩
    intro ltRaw
    unfold tableSort
    apply meets_pure_bind
    apply meets_get_bind
    rw [hlen]
    dsimp only
    rw [if_pos (by omega)]
    exact @qsort_escapes _ _ _ _ _ _ _ _ "stop" (by omega) (le_refl 1) (le_refl _) (by omega) (mid_neg (by omega) (by omega)) h
      (fun _ _ => rfl) fun _ _ => rfl

/-- The calls on such an array do not all sort it. -/
theorem not_sortsAll {m : ℕ} (hok : TabOk t none) (hlen : tabLen t = some m) (hlong : 2^30 < m) (hm : m < 2^31)
    (hlive : ∀ p : ℤ, 1 ≤ p → p ≤ m → t.tget (posKey p) ≠ .nil) : ¬ SortsAll t m := by
  intro hall
  obtain ⟨arg, hstray⟩ := sort_strays hok hlen hlong hm hlive
  have hsorting := hall (fun _ _ _ => .ok false) arg
  have hend := hstray fun _ _ _ => .ok false
  unfold Meets at hend
  generalize ((tableSort _ arg).run ⟨t, 0, []⟩ : Except Fault Unit × SortState) = w at hsorting hend
  obtain ⟨res, s'⟩ := w
  cases res with
  | error e =>
    obtain ⟨p, hp, hlt⟩ := hend
    have hin := hsorting.touched p hp
    omega
  | ok u => exact hend

/-- `table.sort` sorts all arrays of up to `2^30` values, and no longer one. -/
theorem tableSort_sorts_iff {m : ℕ} (hok : TabOk t none) (hlen : tabLen t = some m) (hm : m < 2^31)
    (hlive : ∀ p : ℤ, 1 ≤ p → p ≤ m → t.tget (posKey p) ≠ .nil) : SortsAll t m ↔ m ≤ 2^30 := by
  constructor
  · intro hall
    by_contra hlong
    exact not_sortsAll hok hlen (by omega) hm hlive hall
  · exact fun hm => sortsAll_of_le hok hlen hm hlive

/-! ## An array of ones -/

/-- The table of `{1, 1, ..., 1}`. -/
def ones (n : ℕ) : TabState :=
  ⟨[rootShape], { tabNew with arr := some (List.replicate n (.val (.int 1))), alen := n }⟩

theorem tabOk_ones {n : ℕ} (hn : n < 2^31) : TabOk (ones n) none := by
  obtain ⟨sh, hash⟩ := (tabOk_new shapesOk_root).hash
  have hslot : ∀ i < n, (ones n).t.arrSlot i = .val (.int 1) := by
    intro i hi
    change (List.replicate n (Slot.val (.int 1))).getD i (.val .nil) = _
    rw [List.getD_eq_getElem _ _ (by rwa [List.length_replicate]), List.getElem_replicate]
  refine ⟨⟨sh, hash.shapes, hash.shape, hash.wf, hash.vals, hash.small, hash.fvals, hash.marked, hash.own⟩, ?_⟩
  constructor
  · change n ≤ (List.replicate n (Slot.val (.int 1))).length
    rw [List.length_replicate]
  · intro k hk
    change n = k + 1 at hk
    rw [hslot k (by omega)]
    rfl
  · intro fa hfa
    cases hfa
  · intro i hi _ hmark
    rw [hslot i hi] at hmark
    cases hmark
  · change (List.replicate n (Slot.val (.int 1))).length < 2^31
    rwa [List.length_replicate]

theorem tabLen_ones (n : ℕ) : tabLen (ones n) = some n := rfl

theorem ones_live {n : ℕ} (hn : n < 2^31) {p : ℤ} (hp : 1 ≤ p) (hpn : p ≤ n) : (ones n).tget (posKey p) ≠ .nil := by
  have hlt : (p - 1).toNat < (ones n).t.alen := by
    change (p - 1).toNat < n
    omega
  rw [posKey_eq hp, tget_arrKey_of_lt hlt (by omega)]
  unfold LuaTable.arrValue
  rw [show (ones n).t.arrSlot (p - 1).toNat = .val (.int 1) from ?_]
  · nofun
  · change (List.replicate n (Slot.val (.int 1))).getD (p - 1).toNat (.val .nil) = _
    rw [List.getD_eq_getElem _ _ (by rw [List.length_replicate]; omega), List.getElem_replicate]

/-- An array of three values. -/
theorem tableSort_sorts_three : SortsAll (ones 3) (3 : ℕ) :=
  (tableSort_sorts_iff (tabOk_ones (by norm_num)) (tabLen_ones 3) (by norm_num)
    fun _ hp hp' => ones_live (by norm_num) hp hp').mpr (by norm_num)

end Lua2wasm.Table
