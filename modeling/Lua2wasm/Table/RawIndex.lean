import Lua2wasm.Table.Sort
import Lua2wasm.Table.Shift

/-!
# Raw access to an array

`ArrayIs s₀ s n a`: the table holds the values `a` at the positions `1`, ..., `n`, none of them nil, and is `s₀` at all
other keys. `$tab_get_arr_idx` reads these values, and `$tab_set_arr_idx` updates them, whether a position is in the
array part or in the hash part (`ArrayIs.get`, `ArrayIs.set`). A store to the first position after the array part makes
it longer, also where the hash part keeps its entry of the same key.
-/

namespace Lua2wasm.Table

open Raising

variable {s₀ s s' : TabState} {sh : Shape} {n p : ℤ} {a : ℤ → Val} {v : Val} {key : Key}

/-- The key of a position. -/
def posKey (p : ℤ) : Key := .int (Int64.ofInt p)

/-- An array. -/
structure ArrayIs (s₀ s : TabState) (n : ℤ) (a : ℤ → Val) : Prop where
  /-- The table is in order. -/
  ok : TabOk s none
  /-- The values. -/
  value : ∀ p, 1 ≤ p → p ≤ n → s.tget (posKey p) = a p
  /-- None of them is nil. -/
  live : ∀ p, 1 ≤ p → p ≤ n → a p ≠ .nil
  /-- The other keys. -/
  other : ∀ key, (∀ p, 1 ≤ p → p ≤ n → key ≠ posKey p) → s.tget key = s₀.tget key

theorem posKey_inj {q : ℤ} (hp : 1 ≤ p ∧ p < 2^31) (hq : 1 ≤ q ∧ q < 2^31) (h : posKey p = posKey q) : p = q := by
  have hp' : (Int64.ofInt p).toInt = p := Int64.toInt_ofInt_of_le (by omega) (by omega)
  have hq' : (Int64.ofInt q).toInt = q := Int64.toInt_ofInt_of_le (by omega) (by omega)
  unfold posKey at h
  rw [← hp', Key.int.inj h, hq']

theorem posKey_eq (hp : 1 ≤ p) : posKey p = arrKey (p - 1).toNat := by
  unfold posKey arrKey
  rw [show (((p - 1).toNat : ℤ) + 1) = p by omega]

/-- A read of an array. -/
theorem ArrayIs.get (h : ArrayIs s₀ s n a) (hn : n < 2^31) (hp : 1 ≤ p ∧ p ≤ n) : tabGetArrIdx s p = some (a p) := by
  have hvalue := h.value p hp.1 hp.2
  rw [posKey_eq hp.1] at hvalue
  unfold tabGetArrIdx
  by_cases hin : 1 ≤ p ∧ p ≤ s.t.alen
  · have hlt : (p - 1).toNat < s.t.alen := by omega
    have hroom := h.ok.arr.room
    obtain ⟨arr, harr, -, hread⟩ := getElem?_arr (s := s) (Nat.lt_of_lt_of_le hlt hroom)
    rw [if_pos hin, harr]
    dsimp only [Option.bind_eq_bind, Option.bind_some]
    rw [hread, Option.bind_some, h.ok.arr.tval_eq hlt, ← tget_arrKey_of_lt hlt (by omega), hvalue]
  · obtain ⟨sh, hash⟩ := h.ok.hash
    rw [if_neg hin, tabGetHash_spec hash]
    rw [tget_arrKey_of_le (by omega) (by omega), ← posKey_eq hp.1] at hvalue
    exact congrArg some hvalue

/-- What a store at a position is: the table is in order, and the map has changed at its key. -/
def Put (s s' : TabState) (p : ℤ) (v : Val) : Prop :=
  TabOk s' none ∧ ∀ key, s'.tget key = if key = posKey p then v else s.tget key

theorem ArrayIs.of_put (h : ArrayIs s₀ s n a) (hn : n < 2^31) (hp : 1 ≤ p ∧ p ≤ n) (hv : v ≠ .nil) (hput : Put s s' p v) :
    ArrayIs s₀ s' n (Function.update a p v) := by
  obtain ⟨hok, hget⟩ := hput
  refine ⟨hok, ?_, ?_, ?_⟩
  · intro q hq hqn
    rw [hget, Function.update_apply]
    by_cases hqp : q = p
    · rw [if_pos hqp, hqp, if_pos rfl]
    · rw [if_neg hqp, if_neg fun heq => hqp (posKey_inj ⟨hq, by omega⟩ ⟨hp.1, by omega⟩ heq)]
      exact h.value q hq hqn
  · intro q hq hqn
    rw [Function.update_apply]
    split
    · exact hv
    · exact h.live q hq hqn
  · intro key hkey
    rw [hget, if_neg (hkey p hp.1 hp.2)]
    exact h.other key hkey

/-- A store in the array part. -/
theorem setArr_put (hok : TabOk s none) (hp : 1 ≤ p) (hin : p ≤ s.t.alen) (hv : v ≠ .nil) :
    Ensures (setArr (p - 1).toNat (.val v)) s (fun _ s' => Put s s' p v) := by
  have hroom := hok.arr.room
  have hsmall := hok.arr.small
  obtain ⟨sh, hash⟩ := hok.hash
  have hp' : (Int64.ofInt p).toInt = p := Int64.toInt_ofInt_of_le (by omega) (by omega)
  have hin' : inArr s.t (Int64.ofInt p) = true := by
    rw [inArr_iff, hp']
    omega
  have hidx : arrIndex (Int64.ofInt p) = (p - 1).toNat := by
    unfold arrIndex
    rw [hp']
  refine (setArr_spec hok.arr.farr (show (p - 1).toNat < lengthOf s.t.arr by omega) (.val v)).imp ?_
  intro _ s' hwr
  have hslot := hwr.slot (p - 1).toNat
  rw [if_pos rfl] at hslot
  refine ⟨⟨⟨sh, hwr.toHashSame.hashOk hash⟩, ?_⟩, ?_⟩
  · refine (hwr.arrOk hok.arr ?_).of_skip ?_
    · intro hnull
      exact absurd (of_decide_eq_true hnull) (by simpa using hv)
    · intro _
      rw [hslot]
      nofun
  · intro key
    rw [← hidx] at hwr
    split
    · rename_i hkey
      have hin'' : inArr s'.t (Int64.ofInt p) = true := by
        rw [inArr_iff, hwr.alen, ← inArr_iff]
        exact hin'
      rw [hkey, posKey, tget_of_inArr hin'', hidx]
      unfold LuaTable.arrValue
      rw [hslot]
    · rename_i hkey
      exact hwr.tget_other hin' hkey

/-- A store at a key of the hash part that has a value. -/
theorem tabSetHash_put (hok : TabOk s none) (hout : ¬ inArr s.t (Int64.ofInt p) = true) (hlive : s.hget (posKey p) ≠ .nil) :
    Ensures (tabSetHash (makeInt p) v) s (fun _ s' => Put s s' p v) := by
  obtain ⟨sh, hash⟩ := hok.hash
  obtain ⟨i, hi⟩ : ∃ i, sh.pos (posKey p) = some i := by
    cases hpos : sh.pos (posKey p) with
    | none => exact absurd (hget_of_absent hash.shape hpos) hlive
    | some i => exact ⟨i, rfl⟩
  refine (tabSetHash_found hash (show canon (makeInt p) = some (posKey p) from rfl) hi v).imp ?_
  rintro _ s' ⟨hset, -, -⟩
  refine ⟨⟨hset.ok, hset.toFrame.arrOk hok.arr⟩, hset.tget_put ?_⟩
  intro i heq
  rw [← Key.int.inj heq]
  exact hout

/-- An array has no holes before a position that it has. -/
theorem ArrayIs.no_holes (h : ArrayIs s₀ s n a) (hle : s.t.alen ≤ n) (hn : n < 2^31) : mostlyHoles s.t = some false := by
  have hroom := h.ok.arr.room
  unfold mostlyHoles
  cases harr : s.t.arr with
  | none => rfl
  | some arr =>
    rw [harr, lengthOf_some] at hroom
    dsimp only
    have hcount : (arr.take s.t.alen).countP Slot.isNull = 0 := by
      rw [List.countP_eq_zero]
      intro w hw
      obtain ⟨i, hi, rfl⟩ := List.getElem_of_mem hw
      rw [List.length_take] at hi
      rw [List.getElem_take]
      have hvalue := h.value (i + 1) (by omega) (by omega)
      have hlive := h.live (i + 1) (by omega) (by omega)
      rw [← hvalue, posKey_eq (by omega), show ((i : ℤ) + 1 - 1).toNat = i by omega,
        tget_arrKey_of_lt (by omega) (by omega)] at hlive
      intro hnull
      apply hlive
      have hslot : s.t.arrSlot i = .val .nil := by
        unfold LuaTable.arrSlot
        rw [harr]
        change arr.getD i _ = _
        rw [List.getD_eq_getElem _ _ (by omega)]
        exact of_decide_eq_true hnull
      unfold LuaTable.arrValue
      rw [hslot]
    split
    · unfold arrHoles
      rw [if_pos hroom, hcount]
      rfl
    · rfl

/-- A store after the array part. -/
theorem ArrayIs.append (h : ArrayIs s₀ s n a) (hn : n < 2^31) (hp : p ≤ n) (hnext : p = s.t.alen + 1) (hv : v ≠ .nil) :
    Ensures (arrAppend (.val v)) s (fun b s' => if b then Put s s' p v else s' = s) := by
  have hpos : (Int64.ofInt p).toInt = (s.t.alen : ℤ) + 1 := by
    rw [Int64.toInt_ofInt_of_le (by omega) (by omega), hnext]
  unfold arrAppend
  apply meets_get_bind
  rw [if_neg (by simpa [Slot.isNull] using hv)]
  by_cases hmax : arrMax ≤ s.t.alen
  · rw [if_pos hmax]
    exact meets_pure rfl
  rw [if_neg hmax]
  apply meets_orStuck (h.no_holes (by omega) hn)
  rw [if_neg Bool.false_ne_true]
  refine (arrPush_stored (P := False) h.ok (by omega) (by simpa [Slot.isNull] using hv) hpos False.elim).mono ?_
    fun _ _ h => h
  rintro _ s' ⟨rfl, hset, happ⟩
  rw [if_pos rfl]
  have hkey : posKey p = arrKey s.t.alen := by
    rw [posKey_eq (by omega), hnext]
    congr 1
    omega
  refine ⟨hset.stored.ok, ?_⟩
  intro key
  rw [hkey]
  split
  · rename_i heq
    have hlong := happ.alen
    rw [heq, tget_arrKey_of_lt hlong (by omega)]
    unfold LuaTable.arrValue
    rw [happ.last]
  · rename_i hne
    exact happ.tget key hne

/-- A write of an array. -/
theorem ArrayIs.set (h : ArrayIs s₀ s n a) (hn : n < 2^31) (hp : 1 ≤ p ∧ p ≤ n) (hv : v ≠ .nil) :
    Ensures (tabSetArrIdx p v) s (fun _ s' => ArrayIs s₀ s' n (Function.update a p v)) := by
  suffices hput : Ensures (tabSetArrIdx p v) s (fun _ s' => Put s s' p v) from
    hput.imp (fun _ _ hput => h.of_put hn hp hv hput)
  unfold tabSetArrIdx
  apply meets_get_bind
  by_cases hin : p ≤ s.t.alen
  · rw [if_pos ⟨⟨hp.1, hin⟩, hv⟩]
    exact setArr_put h.ok hp.1 hin hv
  rw [if_neg fun hcond => hin hcond.1.2]
  have hpos : (Int64.ofInt p).toInt = p := Int64.toInt_ofInt_of_le (by omega) (by omega)
  have hout : ¬ inArr s.t (Int64.ofInt p) = true := by
    rw [inArr_iff, hpos]
    omega
  have hlive : s.hget (posKey p) ≠ .nil := by
    have hvalue := h.value p hp.1 hp.2
    unfold posKey at hvalue ⊢
    rw [tget_of_not_inArr hout] at hvalue
    rw [hvalue]
    exact h.live p hp.1 hp.2
  change Meets (tabSetIk (Int64.ofInt p) v) s _ _
  unfold tabSetIk tabSetArr
  rw [bind_assoc]
  apply meets_get_bind
  rw [if_neg hout]
  by_cases hnext : (Int64.ofInt p).toInt = s.t.alen + 1
  · rw [if_pos hnext]
    apply (h.append hn hp.2 (by omega) hv).bind
    intro b s' hput
    cases b with
    | true => exact meets_pure hput
    | false =>
      rw [show s' = s from hput]
      exact tabSetHash_put h.ok hout hlive
  · rw [if_neg hnext]
    exact meets_pure_bind (tabSetHash_put h.ok hout hlive)

end Lua2wasm.Table
