import Lua2wasm.Table.Concat
import Lua2wasm.Table.InsertPaths

/-!
# The bulk copies of the table library

The fast paths of `table.remove` and `table.move` against the loops of raw reads and writes that they stand for,
and then all four of them together, with `table.insert` (`insert_agree_iff`) and `table.concat`
(`concat_agree_iff`).

`table.remove` does what its loop does (`remove_agree`). So does `table.move`, but for the backward loop that
copies nil to the last slot: it begins there, and cuts the array part off (`move_agree`). `fast_paths_agree` has
the condition of each call.
-/

namespace Lua2wasm.Table

open Raising

variable {s s' s₁ s₂ : TabState} {i j n pos a b m : ℕ} {key : Key} {v : Val} {g : ℕ → Val}
  {src : Option LuaTable}

/-- Both leave the same array part, up to the holes at its end. -/
theorem agree_of_arrIs {α : Type} {x y : TabM α} {r : α}
    (hx : Ensures x s (fun a s' => a = r ∧ ArrIs s s' n g))
    (hy : Ensures y s (fun a s' => a = r ∧ ArrIs s s' n g)) : Agree x y s := by
  obtain ⟨_, s₁, hx₁, rfl, h₁⟩ := hx.returns
  obtain ⟨_, s₂, hy₂, rfl, h₂⟩ := hy.returns
  exact ⟨_, s₁, s₂, hx₁, hy₂, h₁.alike h₂⟩

/-! ## `table.remove` -/

/-- The values of the array part without the one at `pos`. -/
def removed (s : TabState) (pos : ℕ) (j : ℕ) : Val :=
  if j + 1 < s.t.alen then if pos - 1 ≤ j then s.t.arrValue (j + 1) else s.t.arrValue j else .nil

theorem Closed.arrIs (h : Closed s s' pos) (hok : TabOk s none) : ArrIs s s' s.t.alen (removed s pos) where
  toHashSame := h.toHashSame
  ok := by
    obtain ⟨sh, hash⟩ := hok.hash
    exact ⟨⟨sh, h.toHashSame.hashOk hash⟩, h.arr⟩
  alen := Nat.le_of_succ_le h.alen
  value j hj := by
    have halen := h.alen
    unfold removed
    rw [if_pos (show j + 1 < s.t.alen by omega), h.value j hj]
  holes j hj hlt := by
    unfold removed
    split
    · rename_i hj'
      exact h.holes j hj hj'
    · rfl

/-- The loop of `table.remove` stays within the array part. -/
theorem removeSlow_arrIs (hok : TabOk s none) (hpos : 1 ≤ pos) (hle : pos ≤ s.t.alen) (hfit : s.t.alen < 2^30) :
    Ensures (removeSlow s.t.alen pos) s
      (fun a s' => a = s.t.arrValue (pos - 1) ∧ ArrIs s s' s.t.alen (removed s pos)) := by
  obtain ⟨b, rfl⟩ : ∃ b, pos = b + 1 := ⟨pos - 1, by omega⟩
  have hread := tabGetRaw_arr hok (i := b) hle (by omega)
  have hloop := shiftDownFrom_eq_copy (b + 1) (s.t.alen - (b + 1)) 0
  push_cast at hread hloop
  unfold removeSlow
  apply meets_get_bind
  push_cast
  apply meets_orStuck hread
  rw [Nat.add_zero] at hloop
  rw [hloop]
  have hcopy := copyUp_spec none (f := (b : ℤ) + 1 + 1) (b := b) (m := s.t.alen - (b + 1))
    (r := fun i => s.t.arrValue (b + 1 + i)) hok (by omega) (by omega) fun i hi s₁ h halen => by
      have hget := h.read halen (a := b + 1) (i := i) (by omega) (by omega) (by omega)
      exact hget
  apply hcopy.bind
  rintro _ s₁ ⟨h₁, halen₁⟩
  have hput := h₁.put (i := s.t.alen - 1) (by omega) (by omega) (by omega) .nil
  rw [show ((s.t.alen - 1 : ℕ) : ℤ) + 1 = max ((b : ℤ) + 1) s.t.alen by omega] at hput
  apply hput.bind
  rintro _ s' ⟨h', -⟩
  refine meets_pure ⟨rfl, h'.congr fun j hj => ?_⟩
  unfold removed copied
  rw [Nat.add_sub_cancel]
  by_cases hlast : j + 1 < s.t.alen
  · rw [if_pos hlast, if_neg (show ¬ j = s.t.alen - 1 by omega)]
    by_cases hle : b ≤ j
    · rw [if_pos hle, if_pos (by omega)]
      exact congrArg s.t.arrValue (show j + 1 = b + 1 + (j - b) by omega)
    · rw [if_neg hle, if_neg (by omega)]
  · rw [if_neg hlast, if_pos (by omega)]

/-- The fast path of `table.remove` does what its loop does. -/
theorem remove_agree (hok : TabOk s none) (hpos : 1 ≤ pos) (hle : pos ≤ s.t.alen) (hfit : s.t.alen < 2^30) :
    Agree (removeFast pos) (removeSlow s.t.alen pos) s := by
  refine agree_of_arrIs ((removeFast_closed hok hpos hle).imp ?_)
    (removeSlow_arrIs hok hpos hle hfit)
  exact fun _ s' h => ⟨h.1, h.2.arrIs hok⟩

/-! ## `table.move` -/

/-- The values of a table with `m` values of `r` copied over those from `b` on. -/
def moved (src : Option LuaTable) (s : TabState) (a b m : ℕ) : ℕ → Val :=
  copied s.t.arrValue (fun i => (sourceState src s).t.arrValue (a + i)) b 0 m

/-- The copy of a source without unboxed floats. -/
theorem copyArr_arrIs (hok : TabOk s none) (hsrc : TabOk (sourceState src s) none)
    (hfarr : (sourceState src s).t.farr = none) (hm : 0 < m) (ha : a + m ≤ (sourceState src s).t.alen)
    (hb : b + m ≤ s.t.alen) :
    Ensures (copyArr src (a + 1) (b + 1) m) s (fun _ s' => ArrIs s s' s.t.alen (moved src s a b m)) := by
  have hroom := hok.arr.room
  have hroom' := hsrc.arr.room
  obtain ⟨sh, hash⟩ := hok.hash
  obtain ⟨dst, hdst, -⟩ := getElem?_arr (s := s) (i := 0) (by omega)
  obtain ⟨from', hfrom, -⟩ := getElem?_arr (s := sourceState src s) (i := 0) (by omega)
  rw [hdst, lengthOf_some] at hroom
  rw [hfrom, lengthOf_some] at hroom'
  obtain ⟨dst', hcopy, hlen, hget⟩ := arrayCopy_spec (x := Slot.val .nil)
    (show b + m ≤ dst.length by omega) (show a + m ≤ from'.length by omega)
  unfold copyArr
  apply meets_get_bind
  apply meets_orStuck hdst
  apply meets_orStuck hfrom
  rw [Nat.add_sub_cancel, Nat.add_sub_cancel]
  apply meets_orStuck hcopy
  apply meets_modify_bind
  set s₁ : TabState := { s with t := { s.t with arr := some dst' } } with hs₁
  -- the copied slots have no marks
  have hplain : ∀ i < (sourceState src s).t.alen,
      (sourceState src s).t.arrSlot i = .val ((sourceState src s).t.arrValue i) := by
    intro i hi
    cases hslot : (sourceState src s).t.arrSlot i with
    | mark => exact absurd hfarr (hsrc.arr.marked i hi (by simp) hslot)
    | val v =>
      unfold LuaTable.arrValue
      rw [hslot]
  have hslot : ∀ j, s₁.t.arrSlot j = if b ≤ j ∧ j < b + m then (sourceState src s).t.arrSlot (a + (j - b))
      else s.t.arrSlot j := by
    intro j
    unfold LuaTable.arrSlot
    rw [hdst, hfrom]
    exact hget j
  have hvalue : ∀ j, s₁.t.arrValue j = moved src s a b m j := by
    intro j
    unfold moved copied
    by_cases hj : b ≤ j ∧ j < b + m
    · rw [if_pos (by omega)]
      have h := hslot j
      rw [if_pos hj, hplain _ (by omega)] at h
      unfold LuaTable.arrValue at h ⊢
      rw [h]
    · rw [if_neg (by omega)]
      have h := hslot j
      rw [if_neg hj] at h
      exact arrValue_eq_of_slot h rfl
  have hlen₁ : lengthOf s₁.t.arr = dst.length := hlen
  have hroom₁ : s₁.t.alen ≤ lengthOf s₁.t.arr := by
    rw [hlen₁]
    exact hroom
  refine (arrTrim_spec hroom₁).imp ?_
  intro _ s' htrim
  have hsame₁ : HashSame s s₁ := ⟨rfl, rfl, rfl, rfl⟩
  have hsame := hsame₁.trans htrim.toHashSame
  refine ⟨hsame, ⟨⟨sh, hsame.hashOk hash⟩, htrim.arrOk hroom₁ ?_ ?_ ?_⟩, htrim.alen, fun j hj => ?_,
    fun j hj hlt => ?_⟩
  · intro fa hfa
    obtain ⟨dst₀, hdst₀, hcover⟩ := hok.arr.farr fa hfa
    obtain rfl : dst = dst₀ := Option.some.inj (hdst.symm.trans hdst₀)
    exact ⟨dst', rfl, hcover.trans hlen.symm⟩
  · intro j hj _ hmark
    rw [hslot] at hmark
    split at hmark
    · rw [hplain _ (by omega)] at hmark
      cases hmark
    · exact hok.arr.marked j hj (by simp) hmark
  · rw [hlen₁, ← lengthOf_some, ← hdst]
    exact hok.arr.len
  · rw [htrim.value]
    exact hvalue j
  · rw [← hvalue, arrValue_of_isNull (htrim.holes j hj hlt)]

/-- The backward loop does not copy nil to the last slot. -/
def MoveKeeps (src : Option LuaTable) (s : TabState) (a b m : ℕ) : Prop :=
  src = none → a < b → b + m = s.t.alen → s.t.arrValue (a + m - 1) ≠ .nil

/-- The loops of `table.move` stay within the array part. -/
theorem copyLoop_arrIs (hok : TabOk s none) (hsrc : TabOk (sourceState src s) none)
    (ha : a + m ≤ (sourceState src s).t.alen) (hb : b + m ≤ s.t.alen) (hfa : a + m < 2^30) (hfb : b + m < 2^30)
    (hkeeps : MoveKeeps src s a b m) :
    Ensures (copyLoop src (a + 1) (b + 1) m) s (fun _ s' => ArrIs s s' s.t.alen (moved src s a b m)) := by
  unfold copyLoop
  rw [Int.toNat_natCast]
  cases src with
  | some t =>
    rw [if_neg (by simp)]
    refine (copyUp_spec _ hok hb hfb fun i hi s₁ h _ => ?_).imp (fun _ _ h => h.1)
    exact h.read_other hsrc (show a + i < t.alen by change a + m ≤ t.alen at ha; omega) (by omega)
  | none =>
    change a + m ≤ s.t.alen at ha
    split
    · rename_i hdown
      have hlt : a < b := by omega
      refine (copyDown_spec _ hok hb hfb (fun i hi => ?_) fun i hi s₁ h halen => ?_).mono (fun _ _ h => h.1)
        fun _ _ h => h
      · by_cases hend : b + i + 1 < s.t.alen
        · exact Or.inr hend
        · left
          have hkeep := hkeeps rfl hlt (by omega)
          rw [show a + m - 1 = a + i by omega] at hkeep
          exact hkeep
      · exact h.read halen (by omega) (by omega) (by omega)
    · rename_i hup
      have hle : b ≤ a := by
        have h : ¬ ((a : ℤ) + 1 < b + 1) := fun hlt => hup ⟨rfl, hlt⟩
        omega
      refine (copyUp_spec _ hok hb hfb fun i hi s₁ h halen => ?_).imp (fun _ _ h => h.1)
      exact h.read halen (by omega) (by omega) (by omega)

/-- The fast path of `table.move` does what its loop does. -/
theorem move_agree (hok : TabOk s none) (hsrc : TabOk (sourceState src s) none)
    (hfarr : (sourceState src s).t.farr = none) (hm : 0 < m) (ha : a + m ≤ (sourceState src s).t.alen)
    (hb : b + m ≤ s.t.alen) (hfa : a + m < 2^30) (hfb : b + m < 2^30) (hkeeps : MoveKeeps src s a b m) :
    Agree (copyArr src (a + 1) (b + 1) m) (copyLoop src (a + 1) (b + 1) m) s :=
  agree_of_arrIs (r := ()) ((copyArr_arrIs hok hsrc hfarr hm ha hb).imp (fun _ _ h => ⟨rfl, h⟩))
    ((copyLoop_arrIs hok hsrc ha hb hfa hfb hkeeps).imp (fun _ _ h => ⟨rfl, h⟩))

/-! ## All of them -/

/-- A call that may take a fast path. The positions of the last two are numbers of 32 bits. -/
inductive BulkCall
  /-- `table.insert(t, pos, v)`. -/
  | insert (pos : ℕ) (v : Val)
  /-- `table.remove(t, pos)`. -/
  | remove (pos : ℕ)
  /-- `table.move(a1, f, e, t, a2)`, on the table `a2`. -/
  | move (src : Option LuaTable) (f e t : ℤ)
  /-- `table.concat(t, sep, i, j)`. -/
  | concat (sep : List UInt8) (i j : ℤ)

/-- The call takes the fast path. -/
def BulkCall.Fast (s : TabState) : BulkCall → Prop
  | .insert pos v => tabLen s = some s.t.alen ∧ v ≠ .nil ∧ 1 ≤ pos ∧ pos ≤ s.t.alen + 1
  | .remove pos => tabLen s = some s.t.alen ∧ 1 ≤ pos ∧ pos ≤ s.t.alen
  | .move src f e t => f ≤ e ∧ CopiesArr src s f e t (sum32 (sum32 (e - f) + 1))
  | .concat sep i j => i ≤ j ∧ tabConcatArr s.t sep i j ≠ .ok none

/-- The fast path and the loop have the same result, and leave the same contents and the same length. -/
def BulkCall.Agrees (host : Strings.HostFmt) (s : TabState) : BulkCall → Prop
  | .insert pos v => Agree (insertFast pos v) (insertSlow s.t.alen pos v) s
  | .remove pos => Agree (removeFast pos) (removeSlow s.t.alen pos) s
  | .move src f e t =>
    Agree (copyArr src f.toNat t.toNat (sum32 (sum32 (e - f) + 1)).toNat)
      (copyLoop src f t (sum32 (sum32 (e - f) + 1))) s
  | .concat sep i j => tabConcatArr s.t sep i j = (concatLoop host s sep i j).map some

/-- The text of `table.concat`. -/
def concatTextOf (s : TabState) (sep : List UInt8) (i j : ℤ) : List UInt8 :=
  concatText (s.t.arr.getD []) sep (i - 1).toNat (j - i).toNat

/-- The text of the result is too long for the builder, and the sum of the lengths overflows first. -/
def ConcatOverflows (s : TabState) (sep : List UInt8) (i j : ℤ) : Prop :=
  TextOverflows (s.t.arr.getD []) sep (i - 1).toNat (j - i).toNat

/-- The loop does what the fast path does, with numbers of 31 bits. The first store of `table.insert` is taken, and
the array part is not cut off. -/
def BulkCall.Keeps (s : TabState) : BulkCall → Prop
  | .insert pos _ => s.t.alen + 1 < 2^30 ∧ Takes s ∧ CopiesNoHole s pos
  | .remove _ => s.t.alen < 2^30
  | .move src f e t => e < 2^30 ∧ t + (e - f) < 2^30 ∧
    (src = none → f < t → t + (e - f) = s.t.alen → s.t.arrValue (e - 1).toNat ≠ .nil)
  | .concat sep i j => j < 2^30 ∧ ((concatTextOf s sep i j).length ≤ 2^30 ∨ ConcatOverflows s sep i j)

/-- The loop goes backward from the last slot of the array part, and cuts it off with the nil that it copies
there. -/
def BulkCall.Cuts (s : TabState) : BulkCall → Prop
  | .move src f e t => src = none ∧ f < t ∧ t + (e - f) = s.t.alen ∧ s.t.arrValue (e - 1).toNat = .nil
  | _ => False

/-- The array parts have fewer than `2^30 - 1` slots. No engine makes larger arrays of references. -/
def BulkCall.Small (s : TabState) : BulkCall → Prop
  | .move src _ _ _ => lengthOf s.t.arr + 1 < 2^30 ∧ lengthOf (sourceState src s).t.arr + 1 < 2^30
  | _ => lengthOf s.t.arr + 1 < 2^30

/-- The other tables of a call. -/
def BulkCall.Sources (w : World) : BulkCall → Prop
  | .move (some t) _ _ _ => t ∈ w.tables
  | _ => True

theorem sum32_count {f e : ℤ} (hf : 0 ≤ f) (he : e < 2^30) (hle : f ≤ e) : sum32 (sum32 (e - f) + 1) = e - f + 1 := by
  rw [sum32_of_lt (n := e - f) (by omega) (by omega), sum32_of_lt (by omega) (by omega)]

/-- The condition of `table.move`, in terms of indices. -/
theorem movesArr_agrees {host : Strings.HostFmt} {f e t : ℤ} (hok : TabOk s none)
    (hsrc : TabOk (sourceState src s) none) (hfast : (BulkCall.move src f e t).Fast s)
    (hkeeps : (BulkCall.move src f e t).Keeps s) : (BulkCall.move src f e t).Agrees host s := by
  obtain ⟨hle, ⟨hf, he⟩, ⟨ht, hend⟩, -, hfarr⟩ := hfast
  obtain ⟨hsmall, htsmall, hlast⟩ := hkeeps
  have hcount := sum32_count (by omega) hsmall hle
  rw [hcount, show e - f + 1 - 1 = e - f by ring, sum32_of_lt (n := e - f) (by omega) (by omega),
    sum32_of_lt (by omega) (by omega)] at hend
  obtain ⟨a, rfl⟩ : ∃ a : ℕ, f = (a : ℤ) + 1 := ⟨(f - 1).toNat, by omega⟩
  obtain ⟨b, rfl⟩ : ∃ b : ℕ, t = (b : ℤ) + 1 := ⟨(t - 1).toNat, by omega⟩
  obtain ⟨m, rfl⟩ : ∃ m : ℕ, e = (a : ℤ) + m + 1 := ⟨(e - a - 1).toNat, by omega⟩
  have hm : (a : ℤ) + m + 1 - (a + 1) + 1 = (m + 1 : ℕ) := by
    push_cast
    ring
  have hagree := move_agree (a := a) (b := b) (m := m + 1) hok hsrc hfarr (Nat.succ_pos m) (by omega) (by omega)
    (by omega) (by omega) fun hnone hab hbm => by
      have h := hlast hnone (by omega) (by omega)
      rw [show ((a : ℤ) + m + 1 - 1).toNat = a + (m + 1) - 1 by omega] at h
      exact h
  unfold BulkCall.Agrees
  dsimp only
  rw [hcount, hm, Int.toNat_natCast, show ((a : ℤ) + 1).toNat = a + 1 by omega,
    show ((b : ℤ) + 1).toNat = b + 1 by omega]
  exact hagree

/-- Beyond the array the fast path of `table.move` traps. -/
theorem copyArr_beyond (hbeyond : lengthOf s.t.arr < b + m) : ¬ Agree (copyArr src (a + 1) (b + 1) m) y s := by
  rintro ⟨_, s₁, _, hfast, -, -⟩
  have htraps : Meets (copyArr src (a + 1) (b + 1) m) s (fun _ _ => False) fun _ _ => True := by
    unfold copyArr
    apply meets_get_bind
    cases hdst : s.t.arr with
    | none => exact meets_orStuck_none trivial
    | some dst =>
      rw [hdst, lengthOf_some] at hbeyond
      apply meets_orStuck rfl
      cases hfrom : (sourceState src s).t.arr with
      | none => exact meets_orStuck_none trivial
      | some from' =>
        apply meets_orStuck rfl
        unfold arrayCopy
        rw [if_neg (by omega)]
        exact meets_orStuck_none trivial
  exact hfast.of_meets htraps

/-- Both ways of `table.move` are the same only within numbers of 31 bits. -/
theorem movesArr_keeps {host : Strings.HostFmt} {f e t : ℤ} (hsrc : TabOk (sourceState src s) none)
    (hfast : (BulkCall.move src f e t).Fast s) (hsmall : (BulkCall.move src f e t).Small s) (hcuts : ¬ (BulkCall.move src f e t).Cuts s)
    (hagree : (BulkCall.move src f e t).Agrees host s) : (BulkCall.move src f e t).Keeps s := by
  obtain ⟨hle, ⟨hf, he⟩, ⟨ht, -⟩, -, -⟩ := hfast
  obtain ⟨hdst, hfrom⟩ := hsmall
  have hroom := hsrc.arr.room
  have hsmall : e < 2^30 := by omega
  refine ⟨hsmall, ?_, fun hnone hlt hend hnil => hcuts ⟨hnone, hlt, hend, hnil⟩⟩
  by_contra hfar
  have hcount := sum32_count (by omega) hsmall hle
  unfold BulkCall.Agrees at hagree
  dsimp only at hagree
  rw [hcount, show f.toNat = (f - 1).toNat + 1 by omega, show t.toNat = (t - 1).toNat + 1 by omega] at hagree
  exact copyArr_beyond (by omega) hagree

/-- The condition of `table.concat`, in terms of indices. -/
theorem concat_agrees_iff {host : Strings.HostFmt} {sep : List UInt8} {i j : ℤ} (hok : TabOk s none)
    (hfast : (BulkCall.concat sep i j).Fast s) (hj : j < 2^30) :
    (BulkCall.concat sep i j).Agrees host s ↔
      (concatTextOf s sep i j).length ≤ 2^30 ∨ ConcatOverflows s sep i j := by
  obtain ⟨hij, hsome⟩ := hfast
  have hin : 1 ≤ i ∧ j ≤ s.t.alen := by
    by_contra hout
    apply hsome
    unfold tabConcatArr
    rw [if_pos (by omega)]
  obtain ⟨p, rfl⟩ : ∃ p : ℕ, i = (p : ℤ) + 1 := ⟨(i - 1).toNat, by omega⟩
  obtain ⟨m, rfl⟩ : ∃ m : ℕ, j = (p : ℤ) + m + 1 := ⟨(j - p - 1).toNat, by omega⟩
  obtain ⟨arr, harr, -⟩ := getElem?_arr (s := s) (i := 0) (by have := hok.arr.room; omega)
  unfold BulkCall.Agrees concatTextOf ConcatOverflows
  rw [harr, Option.getD_some, show ((p : ℤ) + 1 - 1).toNat = p by omega,
    show ((p : ℤ) + m + 1 - (p + 1)).toNat = m by omega]
  exact concat_agree_iff hok (by omega) (by omega) harr hsome

/-- The fast paths have the results of the loops, and leave the same contents and the same length, exactly if
`BulkCall.Keeps` holds of the call: for the array parts that there are, and but for the calls of `table.move` that
cut the array part off. -/
theorem fast_paths_agree (host : Strings.HostFmt) (w : World) (hw : w.Reachable) (t : LuaTable) (ht : t ∈ w.tables)
    (call : BulkCall) (hsrc : call.Sources w) (hfast : call.Fast (w.state t)) :
    (call.Keeps (w.state t) → call.Agrees host (w.state t)) ∧
      (call.Small (w.state t) → ¬ call.Cuts (w.state t) → call.Agrees host (w.state t) → call.Keeps (w.state t)) := by
  have hok := hw.ok.tables t ht
  have hroom := hok.arr.room
  cases call with
  | insert pos v =>
    obtain ⟨-, hv, hpos, hle⟩ := hfast
    obtain ⟨b, rfl⟩ : ∃ b, pos = b + 1 := ⟨pos - 1, by omega⟩
    have hiff := fun hfit => insert_agree_iff (v := v) hok (Nat.le_of_succ_le_succ hle) hfit hv
    refine ⟨fun ⟨hfit, hkeeps⟩ => (hiff hfit).mpr hkeeps, fun hsmall _ hagree => ?_⟩
    have hfit : (w.state t).t.alen + 1 < 2^30 := Nat.lt_of_le_of_lt (Nat.succ_le_succ hroom) hsmall
    exact ⟨hfit, (hiff hfit).mp hagree⟩
  | remove pos =>
    obtain ⟨-, hpos, hle⟩ := hfast
    exact ⟨fun hfit => remove_agree hok hpos hle hfit,
      fun hsmall _ _ => Nat.lt_of_le_of_lt hroom (Nat.lt_of_succ_lt hsmall)⟩
  | move src f e t' =>
    have hok' : TabOk (sourceState src (w.state t)) none := by
      cases src with
      | none => exact hok
      | some t₁ => exact hw.ok.tables t₁ hsrc
    exact ⟨fun hkeeps => movesArr_agrees hok hok' hfast hkeeps,
      fun hsmall hcuts hagree => movesArr_keeps hok' hfast hsmall hcuts hagree⟩
  | concat sep i j =>
    have hiff : ∀ hj : j < 2^30, (BulkCall.concat sep i j).Agrees host (w.state t) ↔ _ :=
      fun hj => concat_agrees_iff hok hfast hj
    refine ⟨fun ⟨hj, hkeeps⟩ => (hiff hj).mpr hkeeps, fun hsmall _ hagree => ?_⟩
    have hin : j ≤ (w.state t).t.alen := by
      by_contra hout
      apply hfast.2
      unfold tabConcatArr
      rw [if_pos (by omega)]
    have hj : j < 2^30 := by
      have hsmall' : lengthOf (w.state t).t.arr + 1 < 2^30 := hsmall
      omega
    exact ⟨hj, (hiff hj).mp hagree⟩

/-- An insertion before both values of the array part. The loop takes the key 4 over from the hash part when it
appends, and the fast path leaves it there. -/
theorem fast_paths_agree_mixed :
    (BulkCall.insert 1 (.int 3)).Agrees ⟨fun _ => [], fun _ => Nat.zero_le _⟩ (mixed.state mixedTable) := by
  have hfast : (BulkCall.insert 1 (.int 3)).Fast (mixed.state mixedTable) := ⟨rfl, by simp, Nat.le_refl 1, by decide⟩
  have halen : (mixed.state mixedTable).t.alen = 2 := rfl
  refine (fast_paths_agree ⟨fun _ => [], fun _ => Nat.zero_le _⟩ mixed mixed_reachable mixedTable mixedTable_mem
    (.insert 1 (.int 3)) trivial hfast).1 ?_
  have hmax : ¬ arrMax ≤ (mixed.state mixedTable).t.alen := by
    rw [halen]
    decide
  exact ⟨by rw [halen]; omega, ⟨fun _ => by decide, fun h => absurd h hmax⟩, fun h => absurd h hmax⟩

/-- In the table `{nil, nil, 3}`, of length 3, the loop of `table.insert` finds the array part to be mostly
holes. It leaves a table of length 1, and the fast path one of length 4. -/
theorem not_fast_paths_agree :
    ¬ ∀ (host : Strings.HostFmt) (w : World), w.Reachable → ∀ t ∈ w.tables, ∀ (call : BulkCall), call.Sources w →
      call.Fast (w.state t) → call.Agrees host (w.state t) := by
  intro hall
  have hmem : holed.tables.getD 0 tabNew ∈ holed.tables := List.mem_cons_self
  have hok := holed_reachable.ok.tables _ hmem
  have hagree := hall ⟨fun _ => [], fun _ => Nat.zero_le _⟩ holed holed_reachable _ hmem (.insert 1 (.int 9)) trivial
    ⟨rfl, by simp, Nat.le_refl 1, by decide⟩
  exact insert_not_agree (b := 0) hok (Nat.zero_le _) (by decide) rfl (by simp) hagree

end Lua2wasm.Table
