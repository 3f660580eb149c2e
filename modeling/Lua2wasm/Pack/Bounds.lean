import Lua2wasm.Pack.Count
import Lua2wasm.Pack.Ints
import Lua2wasm.Pack.Sizes
import Mathlib.Logic.Relation

/-!
# `string.unpack` inside its string

Each read of `string.unpack` is checked by a sum of 32 bits, and the sum of an offset and a size can pass
`2^32` and come out inside the string (`Wraps`): with a start position that is not positive, or a length
prefix that is large. `unpack_safe_iff`: the call returns or raises an error if and only if no item that
it comes to escapes its check in this way (`Escapes`). A big-endian integer of more than eight bytes does
so and still raises, if a byte inside the string shows first that it does not fit.

The results never leave their array: they have been counted before (`Counted`).
-/

namespace Lua2wasm.Pack

open Table (Fault setAt setAt_of_lt)

/-- The sum of the check passes `2^32` and comes out inside the string. -/
def Wraps (subj : List UInt8) (off n : ℕ) : Prop := 2^32 ≤ off + n ∧ off + n - 2^32 ≤ subj.length

/-- A read of the item leaves the string. -/
def Escapes (subj : List UInt8) (it : Item) (st : UnpackState) : Prop :=
  match it with
  | .str n => ∃ off, packAlign st.offset n st.maxAlign = .ok off ∧
      ((Wraps subj off n ∧ (st.le = true ∨ off + n - 2^32 < 8)) ∨
        ∃ val, checkRoom subj off n = .ok () ∧ packReadInt subj off n st.le = some val ∧
          Wraps subj (u32 (off + n)) (u32 val.toNat))
  | .fixed sz => Wraps subj st.offset sz
  | .float sz => ∃ off, packAlign st.offset sz st.maxAlign = .ok off ∧ Wraps subj off sz
  | .int signed sz => ∃ off, packAlign st.offset sz st.maxAlign = .ok off ∧ Wraps subj off sz ∧
      (st.le = true ∨ off + sz - 2^32 < 8 ∨ ∃ val, packReadInt subj off sz st.le = some val ∧
        ∀ i, 8 ≤ i → i < off + sz - 2^32 → subj[packIdx off sz st.le i]? = some (packFill signed val))
  | _ => False

variable {bytes subj buf : List UInt8} {it : Item} {off n sz k : ℕ} {le signed : Bool} {val : BitVec 64}
  {st : UnpackState}

/-! ## Errors that are raised -/

/-- A sequence traps in its first part or in the second. -/
theorem bind_stuck {α β : Type} {x : Except Fault α} {f : α → Except Fault β} :
    x >>= f = .error .stuck ↔ x = .error .stuck ∨ ∃ a, x = .ok a ∧ f a = .error .stuck := by
  cases x with
  | error e => simp [error_bind]
  | ok a => simp [ok_bind]

/-- After a part that does not trap, a sequence traps in the second. -/
theorem bind_stuck_of_safe {α β : Type} {x : Except Fault α} {f : α → Except Fault β} (h : x ≠ .error .stuck) :
    x >>= f = .error .stuck ↔ ∃ a, x = .ok a ∧ f a = .error .stuck := by
  rw [bind_stuck]
  exact or_iff_right h

/-- The check before a read passes inside the string, and by a sum that wraps. -/
theorem checkRoom_iff (hoff : off < 2^32) (hn : n < 2^32) (hsubj : subj.length < 2^32) :
    checkRoom subj off n = .ok () ↔ off + n ≤ subj.length ∨ Wraps subj off n := by
  unfold checkRoom Wraps u32
  by_cases hwrap : off + n < 2^32
  · rw [Nat.mod_eq_of_lt hwrap]
    split
    · simp only [raise, reduceCtorEq, false_iff]
      omega
    · simp only [true_iff]
      omega
  · have hmod : (off + n) % 2^32 = off + n - 2^32 := by
      rw [Nat.mod_eq_sub_mod (by omega), Nat.mod_eq_of_lt (by omega)]
    rw [hmod]
    split
    · simp only [raise, reduceCtorEq, false_iff]
      omega
    · simp only [true_iff]
      omega

theorem checkRoom_safe : checkRoom subj off n ≠ .error .stuck := by
  unfold checkRoom
  split <;> nofun

/-! ## Reads -/

/-- `$pack_read_int` reads if each of its bytes is there. -/
theorem packReadFrom_some :
    ∀ (todo i : ℕ) (val : BitVec 64), (∀ j, i ≤ j → j < i + todo → packIdx off n le j < buf.length) →
      ∃ val', packReadFrom buf off n le todo i val = some val' := by
  intro todo
  induction todo with
  | zero => exact fun _ val _ => ⟨val, rfl⟩
  | succ todo ih =>
    intro i val h
    have hi := h i (Nat.le_refl i) (by omega)
    unfold packReadFrom
    rw [List.getElem?_eq_getElem hi]
    exact ih (i + 1) _ fun j hj hlt => h j (by omega) (by omega)

/-- And it traps if one is not. -/
theorem packReadFrom_none :
    ∀ (todo i : ℕ) (val : BitVec 64) (j : ℕ), i ≤ j → j < i + todo → buf.length ≤ packIdx off n le j →
      packReadFrom buf off n le todo i val = none := by
  intro todo
  induction todo with
  | zero => intro i _ j hj hlt; omega
  | succ todo ih =>
    intro i val j hj hlt hout
    unfold packReadFrom
    cases hb : buf[packIdx off n le i]? with
    | none => rfl
    | some b =>
      have hne : j ≠ i := by
        rintro rfl
        rw [List.getElem?_eq_none hout] at hb
        cases hb
      exact ih (i + 1) _ j (by omega) (by omega) hout

/-- `$pack_check_fit` traps if a byte is not there, and those before it are as they should be. -/
theorem packCheckFrom_stuck {fill : UInt8} :
    ∀ (todo i : ℕ), packCheckFrom buf off sz le fill todo i = .error .stuck ↔
      ∃ j, i ≤ j ∧ j < i + todo ∧ buf[packIdx off sz le j]? = none ∧
        ∀ m, i ≤ m → m < j → buf[packIdx off sz le m]? = some fill := by
  intro todo
  induction todo with
  | zero =>
    intro i
    unfold packCheckFrom
    constructor
    · intro h
      cases h
    · rintro ⟨j, hj, hlt, -⟩
      omega
  | succ todo ih =>
    intro i
    unfold packCheckFrom
    cases hb : buf[packIdx off sz le i]? with
    | none =>
      refine iff_of_true rfl ⟨i, Nat.le_refl i, by omega, hb, fun m hm hlt => ?_⟩
      omega
    | some b =>
      dsimp only
      by_cases hfill : b = fill
      · rw [if_neg (not_not.mpr hfill), ih (i + 1)]
        subst hfill
        constructor
        · rintro ⟨j, hj, hlt, hnone, hrest⟩
          refine ⟨j, by omega, by omega, hnone, fun m hm hmj => ?_⟩
          by_cases hmi : m = i
          · rw [hmi, hb]
          · exact hrest m (by omega) hmj
        · rintro ⟨j, hj, hlt, hnone, hrest⟩
          have hne : j ≠ i := by
            rintro rfl
            rw [hb] at hnone
            cases hnone
          exact ⟨j, by omega, by omega, hnone, fun m hm hmj => hrest m (by omega) hmj⟩
      · rw [if_pos hfill]
        refine iff_of_false (fun h => by cases h) ?_
        rintro ⟨j, hj, hlt, hnone, hrest⟩
        by_cases hji : j = i
        · rw [hji, hb] at hnone
          cases hnone
        · have hi := hrest i (Nat.le_refl i) (by omega)
          rw [hb] at hi
          cases hi
          exact hfill rfl

/-- Inside the string all bytes are there. -/
theorem packIdx_lt (le : Bool) (hin : off + n ≤ subj.length) (hsubj : subj.length < 2^32) {j : ℕ} (hj : j < n) :
    packIdx off n le j < subj.length := by
  rw [packIdx_eq (by omega) hj]
  split <;> omega

/-- After the sum wrapped, the byte `i` of a big-endian integer is there if it is one of the lowest. -/
theorem packIdx_wraps (hoff : off < 2^32) (hn : n ≤ 16) (hwrap : 2^32 ≤ off + n) {i : ℕ} (hi : i < n) :
    packIdx off n false i = if i < off + n - 2^32 then off + n - 2^32 - 1 - i else off + n - 1 - i := by
  unfold packIdx u32
  simp only [Bool.false_eq_true, if_false]
  split
  · rw [show off + (n - 1 - i) = off + n - 2^32 - 1 - i + 2^32 by omega, Nat.add_mod_right,
      Nat.mod_eq_of_lt (by omega)]
  · rw [Nat.mod_eq_of_lt (by omega)]
    omega

/-- A read whose sum wrapped leaves the string, if it is little-endian or not all of its eight lowest bytes are
there. -/
theorem packReadInt_wraps (hoff : off < 2^32) (hn : n ≤ 16) (hsubj : subj.length + 16 ≤ 2^32)
    (hwrap : Wraps subj off n) : packReadInt subj off n le = none ↔ le = true ∨ off + n - 2^32 < 8 := by
  obtain ⟨hbig, hsmall⟩ := hwrap
  unfold packReadInt
  cases le with
  | true =>
    refine iff_of_true ?_ (Or.inl rfl)
    apply packReadFrom_none _ _ _ 0 (Nat.le_refl 0) (by omega)
    unfold packIdx
    rw [if_pos rfl, Nat.add_zero, u32_of_le hoff]
    omega
  | false =>
    simp only [Bool.false_eq_true, false_or]
    by_cases hk : off + n - 2^32 < 8
    · refine iff_of_true ?_ hk
      apply packReadFrom_none _ _ _ (off + n - 2^32) (Nat.zero_le _) (by omega)
      rw [packIdx_wraps hoff (by omega) hbig (by omega), if_neg (by omega)]
      omega
    · refine iff_of_false ?_ hk
      obtain ⟨val, hval⟩ : ∃ val, packReadFrom subj off n false (min n 8) 0 0 = some val :=
        packReadFrom_some _ _ _ fun j _ hj => by
          rw [packIdx_wraps hoff (by omega) hbig (by omega), if_pos (by omega)]
          omega
      rw [hval]
      nofun

theorem packReadInt_inside (le : Bool) (hin : off + n ≤ subj.length) (hsubj : subj.length < 2^32) :
    ∃ val, packReadInt subj off n le = some val :=
  packReadFrom_some _ _ _ fun _ _ hj => packIdx_lt _ hin hsubj (by omega)

theorem packCheckFit_inside (hin : off + sz ≤ subj.length) (hsubj : subj.length < 2^32) :
    packCheckFit subj off sz le signed val ≠ .error .stuck := by
  unfold packCheckFit
  rw [Ne, packCheckFrom_stuck]
  rintro ⟨j, hj, hlt, hnone, -⟩
  rw [List.getElem?_eq_none_iff] at hnone
  have := packIdx_lt le hin hsubj (show j < sz by omega)
  omega

/-- The test of the bytes beyond the eighth leaves the string, if those that are there are as they should be. -/
theorem packCheckFit_wraps (hoff : off < 2^32) (hsz : sz ≤ 16) (hsubj : subj.length + 16 ≤ 2^32)
    (hwrap : Wraps subj off sz) (hk : 8 ≤ off + sz - 2^32) :
    packCheckFit subj off sz false signed val = .error .stuck ↔
      ∀ i, 8 ≤ i → i < off + sz - 2^32 → subj[packIdx off sz false i]? = some (packFill signed val) := by
  obtain ⟨hbig, hsmall⟩ := hwrap
  unfold packCheckFit
  rw [packCheckFrom_stuck]
  constructor
  · rintro ⟨j, hj, hlt, hnone, hrest⟩ i hi hik
    apply hrest i hi
    by_contra hji
    -- the byte `j` would be inside of the string
    rw [List.getElem?_eq_none_iff, packIdx_wraps hoff (by omega) hbig (by omega), if_pos (by omega)] at hnone
    omega
  · intro hrest
    refine ⟨off + sz - 2^32, hk, by omega, ?_, fun m hm hmk => hrest m hm hmk⟩
    rw [List.getElem?_eq_none_iff, packIdx_wraps hoff (by omega) hbig (by omega), if_neg (by omega)]
    omega

/-- The scan for a zero raises an error or ends inside the string. -/
theorem zeroFrom_safe (off : ℕ) (hsubj : subj.length < 2^32) :
    ∀ (fuel k : ℕ), off + k ≤ subj.length → subj.length < fuel + (off + k) →
      zeroFrom subj fuel off k ≠ .error .stuck ∧ ∀ sz, zeroFrom subj fuel off k = .ok sz → off + sz < subj.length := by
  intro fuel
  induction fuel with
  | zero =>
    intro k hk hfuel
    omega
  | succ fuel ih =>
    intro k hk hfuel
    unfold zeroFrom
    rw [u32_of_le (by omega)]
    cases hb : subj[off + k]? with
    | none =>
      constructor
      · nofun
      · nofun
    | some b =>
      have hlt : off + k < subj.length := (List.getElem?_eq_some_iff.mp hb).1
      dsimp only
      split
      · refine ⟨nofun, fun sz hsz => ?_⟩
        cases hsz
        exact hlt
      · exact ih (k + 1) (by omega) (by omega)

/-- A scan that starts outside the string raises an error. -/
theorem zeroFrom_outside (hoff : off < 2^32) (hout : subj.length ≤ off) (fuel : ℕ) :
    zeroFrom subj (fuel + 1) off 0 = raise "data does not fit" := by
  unfold zeroFrom
  rw [Nat.add_zero, u32_of_le hoff, List.getElem?_eq_none hout]

theorem takeBytes_stuck : takeBytes subj off n = .error .stuck ↔ subj.length < off + n := by
  unfold takeBytes
  split
  · refine iff_of_false nofun ?_
    omega
  · refine iff_of_true rfl ?_
    omega

/-- There is room for one more result. -/
theorem push_safe (h : st.outIdx < st.out.length) (off : ℕ) (v : PackVal) :
    ({ st with offset := off } : UnpackState).push v ≠ .error .stuck := by
  unfold UnpackState.push
  rw [setAt_of_lt h]
  nofun

/-! ## Items -/

/-- What comes after a check traps, if the check passes. -/
theorem room_stuck {β : Type} {x : Except Fault β} :
    (checkRoom subj off n >>= fun _ => x) = .error .stuck ↔ checkRoom subj off n = .ok () ∧ x = .error .stuck := by
  rw [bind_stuck_of_safe checkRoom_safe]
  constructor
  · rintro ⟨⟨⟩, hroom, hx⟩
    exact ⟨hroom, hx⟩
  · rintro ⟨hroom, hx⟩
    exact ⟨(), hroom, hx⟩

/-- A read traps, or what comes after it does. -/
theorem read_stuck {β : Type} {x : Option (BitVec 64)} {f : BitVec 64 → Except Fault β} :
    (orTrap x >>= f) = .error .stuck ↔ x = none ∨ ∃ val, x = some val ∧ f val = .error .stuck := by
  cases x with
  | none => exact iff_of_true rfl (Or.inl rfl)
  | some val => simp [orTrap, ok_bind]

/-- The bytes of a string are taken if the check did not wrap. -/
theorem take_stuck {x : List UInt8 → Except Fault UnpackState} (hoff : off < 2^32) (hn : n < 2^32)
    (hsubj : subj.length < 2^32) (hx : ∀ v, x v ≠ .error .stuck) :
    (checkRoom subj off n >>= fun _ => takeBytes subj off n >>= x) = .error .stuck ↔ Wraps subj off n := by
  rw [room_stuck, checkRoom_iff hoff hn hsubj, bind_stuck, takeBytes_stuck]
  constructor
  · rintro ⟨hin | hwrap, hout | ⟨v, -, hv⟩⟩
    · omega
    · exact absurd hv (hx v)
    · exact hwrap
    · exact hwrap
  · intro hwrap
    refine ⟨Or.inr hwrap, Or.inl ?_⟩
    obtain ⟨hbig, -⟩ := hwrap
    omega

theorem unpackItem_zstr_safe (hsubj : subj.length < 2^32) (hoff : st.offset < 2^32)
    (hroom : st.outIdx < st.out.length) : unpackItem subj .zstr st ≠ .error .stuck := by
  unfold unpackItem
  by_cases hout : subj.length ≤ st.offset
  · rw [zeroFrom_outside hoff hout]
    nofun
  · obtain ⟨hsafe, hend⟩ := zeroFrom_safe st.offset hsubj (subj.length + 1) 0
      (by omega) (by omega)
    rw [Ne, bind_stuck_of_safe hsafe]
    rintro ⟨sz, hsz, hrest⟩
    have hin := hend sz hsz
    rw [bind_stuck, takeBytes_stuck] at hrest
    obtain hlong | ⟨x, -, hpush⟩ := hrest
    · omega
    · exact push_safe hroom _ _ hpush

section values

variable (hsubj : subj.length + 16 ≤ 2^32) (hoff : st.offset < 2^32) (hroom : st.outIdx < st.out.length)

include hsubj hoff hroom

/-- An integer traps if and only if it escapes its check. -/
theorem unpackItem_int_stuck (hsz : sz ≤ 16) :
    unpackItem subj (.int signed sz) st = .error .stuck ↔ Escapes subj (.int signed sz) st := by
  unfold unpackItem Escapes
  rw [bind_stuck_of_safe (packAlign_safe _ _ _)]
  refine exists_congr fun off => and_congr_right fun halign => ?_
  have hoff' := packAlign_lt halign hoff
  have hcheck : checkRoom subj off sz = .ok () ↔ _ := checkRoom_iff hoff' (show sz < 2^32 by omega) (by omega)
  have hpush := push_safe hroom (u32 (off + sz))
  rw [room_stuck, hcheck, read_stuck]
  by_cases hwrap : Wraps subj off sz
  · simp only [hwrap, or_true, true_and]
    rw [packReadInt_wraps hoff' hsz hsubj hwrap, or_assoc]
    refine or_congr_right' fun hle => or_congr_right' fun hk => exists_congr fun val => and_congr_right fun _ => ?_
    rw [Bool.not_eq_true] at hle
    rw [hle, bind_stuck, or_iff_left (by rintro ⟨_, -, hrest⟩; exact hpush _ hrest)]
    exact packCheckFit_wraps hoff' hsz hsubj hwrap (Nat.not_lt.mp hk)
  · simp only [hwrap, or_false, false_and, iff_false]
    rintro ⟨hin, hnone | ⟨val, hval, hrest⟩⟩
    · obtain ⟨val, hval⟩ := packReadInt_inside st.le hin (by omega)
      rw [hval] at hnone
      cases hnone
    · rw [bind_stuck_of_safe (packCheckFit_inside hin (by omega))] at hrest
      obtain ⟨_, -, hrest⟩ := hrest
      exact hpush _ hrest

/-- So does a float. -/
theorem unpackItem_float_stuck (hsz : sz = 4 ∨ sz = 8) :
    unpackItem subj (.float sz) st = .error .stuck ↔ Escapes subj (.float sz) st := by
  unfold unpackItem Escapes
  rw [bind_stuck_of_safe (packAlign_safe _ _ _)]
  refine exists_congr fun off => and_congr_right fun halign => ?_
  have hoff' := packAlign_lt halign hoff
  have hcheck : checkRoom subj off sz = .ok () ↔ _ := checkRoom_iff hoff' (show sz < 2^32 by omega) (by omega)
  have hpush := push_safe hroom (u32 (off + sz))
  rw [room_stuck, hcheck, read_stuck]
  by_cases hwrap : Wraps subj off sz
  · -- fewer than eight bytes are there
    have hnone : packReadInt subj off sz st.le = none := by
      rw [packReadInt_wraps hoff' (by omega) hsubj hwrap]
      right
      omega
    exact iff_of_true ⟨Or.inr hwrap, Or.inl hnone⟩ hwrap
  · simp only [hwrap, or_false, iff_false]
    rintro ⟨hin, hnone | ⟨val, hval, hrest⟩⟩
    · obtain ⟨val, hval⟩ := packReadInt_inside st.le hin (by omega)
      rw [hval] at hnone
      cases hnone
    · exact hpush _ hrest

/-- So does a string after its length. -/
theorem unpackItem_str_stuck (hn : n ≤ 16) :
    unpackItem subj (.str n) st = .error .stuck ↔ Escapes subj (.str n) st := by
  unfold unpackItem Escapes
  rw [bind_stuck_of_safe (packAlign_safe _ _ _)]
  refine exists_congr fun off => and_congr_right fun halign => ?_
  have hoff' := packAlign_lt halign hoff
  have hcheck : checkRoom subj off n = .ok () ↔ _ := checkRoom_iff hoff' (show n < 2^32 by omega) (by omega)
  have hbody : ∀ val : BitVec 64, (checkRoom subj (u32 (off + n)) (u32 val.toNat) >>= fun _ =>
      takeBytes subj (u32 (off + n)) (u32 val.toNat) >>= fun x =>
        ({ st with offset := u32 (u32 (off + n) + u32 val.toNat) } : UnpackState).push (.str x)) = .error .stuck
      ↔ Wraps subj (u32 (off + n)) (u32 val.toNat) := fun val =>
    take_stuck (u32_lt _) (u32_lt _) (by omega) fun v => push_safe hroom _ _
  rw [room_stuck, read_stuck]
  simp only [hbody]
  constructor
  · rintro ⟨hok, hnone | ⟨val, hval, hrest⟩⟩
    · left
      obtain hin | hwrap := hcheck.mp hok
      · obtain ⟨val, hval⟩ := packReadInt_inside st.le hin (by omega)
        rw [hval] at hnone
        cases hnone
      · exact ⟨hwrap, (packReadInt_wraps hoff' hn hsubj hwrap).mp hnone⟩
    · exact Or.inr ⟨val, hok, hval, hrest⟩
  · rintro (⟨hwrap, hk⟩ | ⟨val, hok, hval, hrest⟩)
    · exact ⟨hcheck.mpr (Or.inr hwrap), Or.inl ((packReadInt_wraps hoff' hn hsubj hwrap).mpr hk)⟩
    · exact ⟨hok, Or.inr ⟨val, hval, hrest⟩⟩

end values

/-- An item traps if and only if it escapes its check. -/
theorem unpackItem_stuck (hsubj : subj.length + 16 ≤ 2^32) (hoff : st.offset < 2^32)
    (hroom : it.hasValue → st.outIdx < st.out.length) (hv : it.Valid) :
    unpackItem subj it st = .error .stuck ↔ Escapes subj it st := by
  cases it with
  | blank => exact iff_of_false nofun id
  | order le => exact iff_of_false nofun id
  | align n => exact iff_of_false nofun id
  | pad => exact iff_of_false nofun id
  | alignTo sz =>
    refine iff_of_false ?_ id
    unfold unpackItem
    rw [bind_stuck_of_safe (packAlign_safe _ _ _)]
    rintro ⟨off, -, hrest⟩
    cases hrest
  | zstr => exact iff_of_false (unpackItem_zstr_safe (by omega) hoff (hroom rfl)) id
  | str n => exact unpackItem_str_stuck hsubj hoff (hroom rfl) hv
  | fixed sz => exact take_stuck hoff (Nat.lt_trans hv (by decide)) (by omega) fun _ => push_safe (hroom rfl) _ _
  | float sz => exact unpackItem_float_stuck hsubj hoff (hroom rfl) hv
  | int signed sz => exact unpackItem_int_stuck hsubj hoff (hroom rfl) hv

/-- What an item does with the registers besides. -/
structure Moves (it : Item) (st st' : UnpackState) : Prop where
  ppos : st'.ppos = st.ppos
  offset_lt : st'.offset < 2^32
  outIdx : st'.outIdx = st.outIdx + if it.hasValue then 1 else 0
  length_out : st'.out.length = st.out.length

theorem push_moves {v : PackVal} {st' : UnpackState} (hval : it.hasValue = true) (hoff : off < 2^32)
    (h : ({ st with offset := off } : UnpackState).push v = .ok st') : Moves it st st' := by
  unfold UnpackState.push at h
  obtain ⟨out, hset, h⟩ := of_bind_ok h
  cases h
  have hlen : out.length = st.out.length := by
    unfold setAt at hset
    split at hset
    · cases hset
      exact List.length_set
    · cases hset
  exact ⟨rfl, hoff, by rw [hval]; rfl, hlen⟩

theorem unpackItem_moves {st' : UnpackState} (h : unpackItem subj it st = .ok st') (hoff : st.offset < 2^32) :
    Moves it st st' := by
  unfold unpackItem at h
  cases it with
  | blank =>
    cases h
    exact ⟨rfl, hoff, rfl, rfl⟩
  | order le =>
    cases h
    exact ⟨rfl, hoff, rfl, rfl⟩
  | align n =>
    cases h
    exact ⟨rfl, hoff, rfl, rfl⟩
  | pad =>
    cases h
    exact ⟨rfl, u32_lt _, rfl, rfl⟩
  | alignTo sz =>
    obtain ⟨off, halign, h⟩ := of_bind_ok h
    cases h
    exact ⟨rfl, packAlign_lt halign hoff, rfl, rfl⟩
  | zstr =>
    obtain ⟨sz, -, h⟩ := of_bind_ok h
    obtain ⟨x, -, h⟩ := of_bind_ok h
    exact push_moves rfl (u32_lt _) h
  | str n =>
    obtain ⟨off, -, h⟩ := of_bind_ok h
    obtain ⟨_, -, h⟩ := of_bind_ok h
    obtain ⟨val, -, h⟩ := of_bind_ok h
    obtain ⟨_, -, h⟩ := of_bind_ok h
    obtain ⟨x, -, h⟩ := of_bind_ok h
    exact push_moves rfl (u32_lt _) h
  | fixed sz =>
    obtain ⟨_, -, h⟩ := of_bind_ok h
    obtain ⟨x, -, h⟩ := of_bind_ok h
    exact push_moves rfl (u32_lt _) h
  | float sz =>
    obtain ⟨off, -, h⟩ := of_bind_ok h
    obtain ⟨_, -, h⟩ := of_bind_ok h
    obtain ⟨val, -, h⟩ := of_bind_ok h
    exact push_moves rfl (u32_lt _) h
  | int signed sz =>
    obtain ⟨off, -, h⟩ := of_bind_ok h
    obtain ⟨_, -, h⟩ := of_bind_ok h
    obtain ⟨val, -, h⟩ := of_bind_ok h
    obtain ⟨_, -, h⟩ := of_bind_ok h
    exact push_moves rfl (u32_lt _) h

/-! ## Runs -/

/-- A turn of the loop that does not fail. -/
def Turn (bytes subj : List UInt8) (st st' : UnpackState) : Prop :=
  st.ppos < bytes.length ∧ unpackStep bytes subj st = .ok st'

/-- The item at the next place of the format escapes its check. -/
def EscapesAt (bytes subj : List UInt8) (st : UnpackState) : Prop :=
  ∃ it ppos, nextItem bytes st.ppos = .ok (it, ppos) ∧ Escapes subj it { st with ppos }

/-- The results that are left to come have been counted, or the format is at a digit, where it has no item. -/
def Counted (bytes : List UInt8) (fuel : ℕ) (st : UnpackState) : Prop :=
  DigitAt bytes st.ppos ∨ st.outIdx + packCountFrom bytes fuel st.ppos 0 < st.out.length

theorem packLimits_safe (z : ℤ) : packLimits z ≠ .error .stuck := by
  unfold packLimits
  split_ifs <;> nofun

theorem packOptSize_safe (c : UInt8) (bytes : List UInt8) (ppos : ℕ) : packOptSize c bytes ppos ≠ .error .stuck := by
  unfold packOptSize
  split_ifs
  · nofun
  · nofun
  · nofun
  · nofun
  · nofun
  · nofun
  · nofun
  · dsimp only
    cases hn : packLimits (packNSuffix bytes ppos 4).1 with
    | error e =>
      intro h
      cases h
      exact packLimits_safe _ hn
    | ok m => nofun
  · dsimp only
    split <;> nofun
  · nofun

/-- A place inside the format has an item or raises an error. -/
theorem nextItem_safe {ppos : ℕ} (h : ppos < bytes.length) : nextItem bytes ppos ≠ .error .stuck := by
  unfold nextItem
  rw [List.getElem?_eq_getElem h, orTrap, ok_bind]
  generalize bytes[ppos] = c
  have hlimits : ∀ {α : Type} (z : ℤ) (f : ℕ → Except Fault α), (∀ n, f n ≠ .error .stuck) →
      (packLimits z >>= f) ≠ .error .stuck := by
    intro α z f hf
    rw [Ne, bind_stuck_of_safe (packLimits_safe z)]
    rintro ⟨n, -, hn⟩
    exact hf n hn
  dsimp only
  by_cases h1 : c = chr ' '
  · rw [if_pos h1]
    nofun
  by_cases h2 : c = chr '<'
  · rw [if_neg h1, if_pos h2]
    nofun
  by_cases h3 : c = chr '>'
  · rw [if_neg h1, if_neg h2, if_pos h3]
    nofun
  by_cases h4 : c = chr '='
  · rw [if_neg h1, if_neg h2, if_neg h3, if_pos h4]
    nofun
  rw [if_neg h1, if_neg h2, if_neg h3, if_neg h4]
  by_cases h5 : c = chr '!'
  · rw [if_pos h5]
    exact hlimits _ _ nofun
  by_cases h6 : c = chr 'x'
  · rw [if_neg h5, if_pos h6]
    nofun
  rw [if_neg h5, if_neg h6]
  by_cases h7 : c = chr 'X'
  · have halign : alignOpt bytes (ppos + 1) ≠ .error .stuck := by
      unfold alignOpt
      split
      · nofun
      · exact packOptSize_safe _ _ _
    rw [if_pos h7, Ne, bind_stuck_of_safe halign]
    rintro ⟨r, -, hr⟩
    cases hr
  by_cases h8 : c = chr 'z'
  · rw [if_neg h7, if_pos h8]
    nofun
  rw [if_neg h7, if_neg h8]
  by_cases h9 : c = chr 's'
  · rw [if_pos h9]
    exact hlimits _ _ nofun
  rw [if_neg h9, Ne, bind_stuck_of_safe (packOptSize_safe _ _ _)]
  rintro ⟨r, -, hr⟩
  by_cases h10 : c = chr 'c'
  · rw [if_pos h10] at hr
    cases hr
  · rw [if_neg h10] at hr
    split at hr
    · cases hr
    · cases hr

/-- The loop comes to an item that escapes its check. -/
def EscapesFrom (bytes subj : List UInt8) (st : UnpackState) : Prop :=
  ∃ st', Relation.ReflTransGen (Turn bytes subj) st st' ∧ EscapesAt bytes subj st'

/-- The item that escapes is the one here or one after a turn. -/
theorem escapesFrom_iff : EscapesFrom bytes subj st ↔
    EscapesAt bytes subj st ∨ ∃ st₁, Turn bytes subj st st₁ ∧ EscapesFrom bytes subj st₁ := by
  constructor
  · rintro ⟨st', hreach, hesc⟩
    obtain rfl | ⟨st₁, hturn, hreach⟩ := Relation.ReflTransGen.cases_head hreach
    · exact Or.inl hesc
    · exact Or.inr ⟨st₁, hturn, st', hreach, hesc⟩
  · rintro (hesc | ⟨st₁, hturn, st', hreach, hesc⟩)
    · exact ⟨st, .refl, hesc⟩
    · exact ⟨st', .head hturn hreach, hesc⟩

/-- Behind the format there is no item. -/
theorem not_escapesFrom_end (h : bytes.length ≤ st.ppos) : ¬ EscapesFrom bytes subj st := by
  rw [escapesFrom_iff]
  rintro (⟨it, ppos, hnext, -⟩ | ⟨st₁, ⟨hlt, -⟩, -⟩)
  · unfold nextItem at hnext
    rw [List.getElem?_eq_none h] at hnext
    cases hnext
  · omega

/-- A turn that fails is the last one. -/
theorem escapesFrom_error {e : Fault} (h : unpackStep bytes subj st = .error e) :
    EscapesFrom bytes subj st ↔ EscapesAt bytes subj st := by
  rw [escapesFrom_iff, or_iff_left]
  rintro ⟨st₁, ⟨-, hstep⟩, -⟩
  rw [h] at hstep
  cases hstep

/-- A turn that does not fail comes before the others. -/
theorem escapesFrom_ok {st₁ : UnpackState} (hlt : st.ppos < bytes.length) (h : unpackStep bytes subj st = .ok st₁) :
    EscapesFrom bytes subj st ↔ EscapesAt bytes subj st ∨ EscapesFrom bytes subj st₁ := by
  rw [escapesFrom_iff]
  refine or_congr_right ⟨?_, fun hrest => ⟨st₁, ⟨hlt, h⟩, hrest⟩⟩
  rintro ⟨st₂, ⟨-, hstep⟩, hrest⟩
  rw [h] at hstep
  cases hstep
  exact hrest

/-- What has been counted is what is counted here, and what comes after it. -/
theorem counted_succ (h : Counted bytes (fuel + 1) st) (hnext : nextItem bytes st.ppos = .ok (it, pp)) :
    ∃ q, (q = pp ∨ DigitAt bytes pp) ∧
      st.outIdx + ((if it.hasValue then 1 else 0) + packCountFrom bytes fuel q 0) < st.out.length := by
  obtain ⟨-, q, hq, hcount⟩ := count_step hnext
  obtain hdigit | hroom := h
  · rw [nextItem_digit hdigit] at hnext
    cases hnext
  · rw [hcount fuel] at hroom
    exact ⟨q, hq, hroom⟩

/-- A turn traps if and only if the item there escapes its check. -/
theorem unpackStep_stuck (hsubj : subj.length + 16 ≤ 2^32) (hlt : st.ppos < bytes.length)
    (hcounted : Counted bytes (fuel + 1) st) (hoff : st.offset < 2^32) :
    unpackStep bytes subj st = .error .stuck ↔ EscapesAt bytes subj st := by
  have hitem : ∀ {it pp}, nextItem bytes st.ppos = .ok (it, pp) →
      (unpackItem subj it { st with ppos := pp } = .error .stuck ↔ Escapes subj it { st with ppos := pp }) := by
    intro it pp hnext
    obtain ⟨q, -, hroom⟩ := counted_succ hcounted hnext
    refine unpackItem_stuck hsubj hoff (fun hv => ?_) (nextItem_valid hnext)
    rw [if_pos hv] at hroom
    dsimp only
    omega
  rw [unpackStep_eq, bind_stuck_of_safe (nextItem_safe hlt)]
  constructor
  · rintro ⟨⟨it, pp⟩, hnext, hstuck⟩
    exact ⟨it, pp, hnext, (hitem hnext).mp hstuck⟩
  · rintro ⟨it, pp, hnext, hesc⟩
    exact ⟨(it, pp), hnext, (hitem hnext).mpr hesc⟩

/-- A turn that does not fail goes on in the format, and the results to come stay counted. -/
theorem unpackStep_counted {st₁ : UnpackState} (hcounted : Counted bytes (fuel + 1) st) (hoff : st.offset < 2^32)
    (h : unpackStep bytes subj st = .ok st₁) :
    st.ppos < st₁.ppos ∧ Counted bytes fuel st₁ ∧ st₁.offset < 2^32 := by
  rw [unpackStep_eq] at h
  obtain ⟨⟨it, pp⟩, hnext, h⟩ := of_bind_ok h
  have hmoves := unpackItem_moves h hoff
  have hppos : st₁.ppos = pp := hmoves.ppos
  refine ⟨by rw [hppos]; exact (count_step hnext).1, ?_, hmoves.offset_lt⟩
  obtain ⟨q, rfl | hdigit, hroom⟩ := counted_succ hcounted hnext
  · right
    rw [hmoves.outIdx, hmoves.length_out, hppos]
    dsimp only
    omega
  · left
    rw [hppos]
    exact hdigit

/-- The loop traps if and only if it comes to an item that escapes its check. -/
theorem walk_stuck (hsubj : subj.length + 16 ≤ 2^32) :
    ∀ (fuel : ℕ) (st : UnpackState), bytes.length - st.ppos < fuel → Counted bytes fuel st → st.offset < 2^32 →
      ((walk (fun st => st.ppos) (unpackStep bytes subj) bytes.length fuel st >>= UnpackState.finish) = .error .stuck ↔
        EscapesFrom bytes subj st) := by
  intro fuel
  induction fuel with
  | zero =>
    intro st hfuel
    omega
  | succ fuel ih =>
    intro st hfuel hcounted hoff
    by_cases hend : bytes.length ≤ st.ppos
    · -- at the end there is room for the position
      have hroom : st.outIdx < st.out.length := by
        obtain ⟨c, hc, -⟩ | hlt := hcounted
        · rw [List.getElem?_eq_none hend] at hc
          cases hc
        · omega
      rw [walk_end (fun st : UnpackState => st.ppos) hend, ok_bind]
      refine iff_of_false ?_ (not_escapesFrom_end hend)
      unfold UnpackState.finish
      rw [bind_stuck_of_safe (push_safe hroom st.offset _)]
      rintro ⟨st', -, h⟩
      cases h
    · have hlt := Nat.not_le.mp hend
      have hstuck := unpackStep_stuck hsubj hlt hcounted hoff
      rw [walk_next (fun st : UnpackState => st.ppos) hlt]
      cases hstep : unpackStep bytes subj st with
      | error e =>
        rw [error_bind, error_bind, escapesFrom_error hstep, ← hstuck, hstep]
        exact ⟨fun h => by cases h; rfl, fun h => by cases h; rfl⟩
      | ok st₁ =>
        -- the item here does not escape, so one of the others does
        obtain ⟨hnext, hcounted₁, hoff₁⟩ := unpackStep_counted hcounted hoff hstep
        have hhere : ¬ EscapesAt bytes subj st := by
          rw [← hstuck, hstep]
          nofun
        rw [ok_bind, ih st₁ (by omega) hcounted₁ hoff₁, escapesFrom_ok hlt hstep, or_iff_right hhere]

/-- `string.unpack` returns or raises an error, and no read leaves the string and no write the results, if and
only if no item that it comes to escapes its check. -/
theorem unpack_safe_iff (bytes subj : List UInt8) (pos : Option Int64) (hsubj : subj.length + 16 ≤ 2^32) :
    unpack bytes subj pos ≠ .error .stuck ↔
      ∀ st, Relation.ReflTransGen (Turn bytes subj) (UnpackState.start bytes pos) st → ¬ EscapesAt bytes subj st := by
  have hstart : (UnpackState.start bytes pos).offset < 2^32 := by
    unfold UnpackState.start
    cases pos with
    | none => exact Nat.two_pow_pos 32
    | some pos => exact u32_lt _
  have hcounted : Counted bytes (bytes.length + 1) (UnpackState.start bytes pos) := by
    right
    unfold UnpackState.start packCountValues
    dsimp only [Walk.start]
    rw [List.length_replicate]
    omega
  have hrun := walk_stuck hsubj (bytes.length + 1) _ (by unfold UnpackState.start; dsimp only [Walk.start]; omega)
    hcounted hstart
  unfold unpack
  rw [Ne, hrun]
  unfold EscapesFrom
  simp only [not_exists, not_and]

/-- A big-endian integer of two bytes, a string of two bytes behind its length, and a signed byte: the call gives
them and the next position, and its first turn does not escape. -/
theorem unpack_safe_mixed :
    unpack [62, 73, 50, 115, 49, 98] [1, 2, 2, 65, 66, 255] none = .ok [.int 258, .str [65, 66], .int (-1), .int 7] ∧
      ¬ EscapesAt [62, 73, 50, 115, 49, 98] [1, 2, 2, 65, 66, 255] (UnpackState.start [62, 73, 50, 115, 49, 98] none) :=
  ⟨rfl, (unpack_safe_iff [62, 73, 50, 115, 49, 98] [1, 2, 2, 65, 66, 255] none (by decide)).mp nofun _ .refl⟩

/-- The position 0 and a length prefix of `2^32 - 1` pass the check, and the reads trap. -/
theorem unpack_wraps :
    unpack [98] [97] (some 0) = .error .stuck ∧ unpack [115, 52] [255, 255, 255, 255] none = .error .stuck := by
  constructor
  · rfl
  · rfl

end Lua2wasm.Pack
