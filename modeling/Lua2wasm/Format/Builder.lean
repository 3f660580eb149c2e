import Lua2wasm.Pack.Interp
import Lua2wasm.Table.Shapes

/-!
# The byte builder

`$Builder` of `runtime/prelude/patterns.wat`: an array that is replaced by a larger one when it is full, and the
number of bytes in use. `Buf` is the object with the arithmetic of the source on its capacity. `Builder` is what
the functions that only append to one need to know about it, the bytes so far, of which there are at most `2^30`:
the capacities are `32 * 2^k`, and beyond `2^30` the doubled capacity is no size of an array.
`append_refines` and `appendByte_refines` connect the two.
-/

namespace Lua2wasm.Format

open Table (Fault setAt arrayCopy)
open Pack (orTrap u32 s32 ok_bind)

/-- The bytes that a builder can hold. -/
def builderLimit : ℕ := 2^30

/-- `$Builder`, an array and how much of it is in use. -/
structure Buf where
  arr : List UInt8
  len : ℕ
  deriving DecidableEq, Repr

/-- A builder, by the bytes that it holds. -/
@[ext] structure Builder where
  bytes : List UInt8
  /-- There is room for them. -/
  small : bytes.length ≤ builderLimit
  deriving DecidableEq

/-- `i32.sub`. -/
def i32Sub (x y : ℕ) : ℕ := u32 (x + (2^32 - y))

/-- `array.new` of bytes. No engine makes one of `2^31`. -/
def arrayNew (n : ℕ) : Except Fault (List UInt8) := if n < 2^31 then .ok (List.replicate n 0) else .error .stuck

namespace Buf

/-- `$builder_new`. -/
def new : Buf := ⟨List.replicate 32 0, 0⟩

/-- The loop of `$builder_reserve`: the capacity is doubled until enough of it is free. -/
def grow (len need : ℕ) : ℕ → ℕ → Option ℕ
  | 0, _ => none
  | fuel + 1, cap =>
    if s32 need ≤ s32 (i32Sub cap len) then some cap else grow len need fuel (u32 (cap * 2))

/-- `$builder_reserve`. After 32 doublings there is nothing left of the capacity, and the loop never ends. -/
def reserve (b : Buf) (need : ℕ) : Except Fault Buf :=
  if s32 (i32Sub b.arr.length b.len) < s32 need then do
    let cap ← orTrap (grow b.len need 33 (u32 (b.arr.length * 2)))
    let arr ← arrayNew cap
    let arr ← orTrap (arrayCopy arr 0 b.arr 0 b.len)
    .ok ⟨arr, b.len⟩
  else .ok b

/-- `$builder_append`, of `n` bytes of `src`. -/
def append (b : Buf) (src : List UInt8) (start n : ℕ) : Except Fault Buf :=
  if s32 n ≤ 0 then .ok b
  else do
    let b ← b.reserve n
    let arr ← orTrap (arrayCopy b.arr b.len src start n)
    .ok ⟨arr, u32 (b.len + n)⟩

/-- `$builder_append_byte`. -/
def appendByte (b : Buf) (byte : UInt8) : Except Fault Buf := do
  let b ← b.reserve 1
  let arr ← orTrap (setAt b.arr b.len byte)
  .ok ⟨arr, u32 (b.len + 1)⟩

/-- `$builder_finish`. -/
def finish (b : Buf) : Except Fault (List UInt8) := do
  let out ← arrayNew b.len
  orTrap (arrayCopy out 0 b.arr 0 b.len)

/-- The bytes in use. -/
def contents (b : Buf) : List UInt8 := b.arr.take b.len

/-- The invariant: the capacity is a power of two up to the limit, and covers what is in use. -/
structure Ok (b : Buf) : Prop where
  cap : ∃ k, 5 ≤ k ∧ k ≤ 30 ∧ b.arr.length = 2^k
  le : b.len ≤ b.arr.length

end Buf

namespace Builder

/-- `$builder_append` of some bytes. -/
def append (b : Builder) (x : List UInt8) : Except Fault Builder :=
  if h : b.bytes.length + x.length ≤ builderLimit then .ok ⟨b.bytes ++ x, by rw [List.length_append]; exact h⟩
  else .error .stuck

end Builder

/-! ## Words -/

theorem s32_of_lt {x : ℕ} (h : x < 2^31) : s32 x = x := if_pos h

theorem u32_of_lt {x : ℕ} (h : x < 2^32) : u32 x = x := Nat.mod_eq_of_lt h

theorem i32Sub_of_le {x y : ℕ} (h : y ≤ x) (hx : x < 2^32) : i32Sub x y = x - y := by
  unfold i32Sub u32
  omega

theorem arrayNew_of_lt {n : ℕ} (h : n < 2^31) : arrayNew n = .ok (List.replicate n 0) := if_pos h

namespace Buf

variable {b b' : Buf} {src : List UInt8} {len need n start : ℕ}

/-! ## Growing -/

/-- Whether the loop goes on with a capacity that covers the bytes in use. -/
theorem enough_iff {cap : ℕ} (hlen : len ≤ cap) (hcap : cap < 2^31) (hneed : need < 2^31) :
    s32 need ≤ s32 (i32Sub cap len) ↔ len + need ≤ cap := by
  rw [i32Sub_of_le hlen (by omega), s32_of_lt hneed, s32_of_lt (by omega)]
  omega

/-- Up to the limit, doubling finds a capacity. -/
theorem grow_spec (hlimit : len + need ≤ builderLimit) :
    ∀ (fuel j : ℕ), 5 ≤ j → j ≤ 30 → 30 < fuel + j → len ≤ 2^j →
      ∃ k, 5 ≤ k ∧ k ≤ 30 ∧ grow len need fuel (2^j) = some (2^k) ∧ len + need ≤ 2^k := by
  intro fuel
  unfold builderLimit at hlimit
  induction fuel with
  | zero =>
    intro j _ hj hfuel
    omega
  | succ fuel ih =>
    intro j hlo hj hfuel hlen
    have hcap : 2^j ≤ 2^30 := Nat.pow_le_pow_right (by norm_num) hj
    unfold grow
    by_cases henough : len + need ≤ 2^j
    · rw [if_pos ((enough_iff hlen (by omega) (by omega)).mpr henough)]
      exact ⟨j, hlo, hj, rfl, henough⟩
    · rw [if_neg (fun h => henough ((enough_iff hlen (by omega) (by omega)).mp h))]
      have hlt : j ≠ 30 := by
        rintro rfl
        exact henough hlimit
      have hnext : u32 (2^j * 2) = 2^(j + 1) := by
        rw [Nat.pow_succ, u32_of_lt (by omega)]
      rw [hnext]
      exact ih (j + 1) (by omega) (by omega) (by omega) (by rw [Nat.pow_succ]; omega)

/-- A capacity of nothing stays nothing. -/
theorem grow_zero (hlen : len ≤ 2^30) (hneed : 0 < need) (hlt : need < 2^31) :
    ∀ fuel, grow len need fuel 0 = none := by
  intro fuel
  induction fuel with
  | zero => rfl
  | succ fuel ih =>
    unfold grow
    rw [if_neg, show u32 (0 * 2) = 0 from rfl, ih]
    rw [s32_of_lt hlt]
    unfold i32Sub u32 s32
    split_ifs <;> omega

/-- Beyond the limit, the loop finds no capacity that an array can have. -/
theorem grow_beyond (hlen : len ≤ builderLimit) (hlimit : builderLimit < len + need) (hneed : need < 2^31) :
    ∀ (fuel j : ℕ), j ≤ 30 → len ≤ 2^j →
      grow len need fuel (2^j) = none ∨ grow len need fuel (2^j) = some (2^31) := by
  intro fuel
  unfold builderLimit at hlimit hlen
  induction fuel with
  | zero =>
    intro j _ _
    exact Or.inl rfl
  | succ fuel ih =>
    intro j hj hle
    have hcap : 2^j ≤ 2^30 := Nat.pow_le_pow_right (by norm_num) hj
    unfold grow
    rw [if_neg (fun h => absurd ((enough_iff hle (by omega) hneed).mp h) (by omega))]
    by_cases hlast : j = 30
    · subst hlast
      rw [show u32 (2^30 * 2) = 2^31 from rfl]
      -- with the sign bit set, the capacity is accepted or doubled away
      cases fuel with
      | zero => exact Or.inl rfl
      | succ fuel =>
        unfold grow
        split_ifs
        · exact Or.inr rfl
        · left
          rw [show u32 (2^31 * 2) = 0 from rfl]
          exact grow_zero hlen (by omega) hneed fuel
    · rw [show u32 (2^j * 2) = 2^(j + 1) by rw [Nat.pow_succ, u32_of_lt (by omega)]]
      exact ih (j + 1) (by omega) (by rw [Nat.pow_succ]; omega)

/-! ## The operations -/

theorem Ok.arr_le (hok : b.Ok) : b.arr.length ≤ 2^30 := by
  obtain ⟨k, -, hk, hcap⟩ := hok.cap
  rw [hcap]
  exact Nat.pow_le_pow_right (by norm_num) hk

theorem new_ok : new.Ok where
  cap := ⟨5, by norm_num, by norm_num, rfl⟩
  le := Nat.zero_le _

theorem length_contents (hok : b.Ok) : b.contents.length = b.len := by
  unfold contents
  rw [List.length_take, Nat.min_eq_left hok.le]

/-- Up to the limit, room is made and the bytes are kept. -/
theorem reserve_spec (hok : b.Ok) (hlimit : b.len + need ≤ builderLimit) :
    ∃ b', b.reserve need = .ok b' ∧ b'.Ok ∧ b'.len = b.len ∧ b'.contents = b.contents ∧
      b.len + need ≤ b'.arr.length := by
  have hle := hok.le
  have harr := hok.arr_le
  have hneed : need < 2^31 := by
    unfold builderLimit at hlimit
    omega
  have henough := enough_iff hle (by omega) hneed
  unfold reserve
  by_cases hroom : b.len + need ≤ b.arr.length
  · rw [if_neg (not_lt.mpr (henough.mpr hroom))]
    exact ⟨b, rfl, hok, rfl, rfl, hroom⟩
  · rw [if_pos (not_le.mp (fun h => hroom (henough.mp h)))]
    obtain ⟨j, hlo, hj, hcap⟩ := hok.cap
    have hlast : j ≠ 30 := by
      rintro rfl
      unfold builderLimit at hlimit
      omega
    obtain ⟨k, hk1, hk2, hgrow, hbig⟩ := grow_spec hlimit 33 (j + 1) (by omega) (by omega) (by omega)
      (by rw [Nat.pow_succ]; omega)
    have hk : 2^k ≤ 2^30 := Nat.pow_le_pow_right (by norm_num) hk2
    have hcopy : arrayCopy (List.replicate (2^k) 0) 0 b.arr 0 b.len =
        some (b.arr.take b.len ++ List.replicate (2^k - b.len) 0) := Table.arrayCopy_new hle (by omega)
    have htaken : (b.arr.take b.len).length = b.len := length_contents hok
    rw [hcap, show u32 (2^j * 2) = 2^(j + 1) by rw [Nat.pow_succ, u32_of_lt (by omega)], hgrow, orTrap, ok_bind,
      arrayNew_of_lt (by omega), ok_bind, hcopy, orTrap, ok_bind]
    refine ⟨_, rfl, ⟨⟨k, hk1, hk2, ?_⟩, ?_⟩, rfl, ?_, ?_⟩
    · rw [List.length_append, htaken, List.length_replicate]
      omega
    · change b.len ≤ _
      rw [List.length_append, htaken]
      omega
    · unfold contents
      dsimp only
      rw [List.take_append_of_le_length (by omega), List.take_take, Nat.min_self]
    · rw [List.length_append, htaken, List.length_replicate]
      omega

/-- Beyond the limit there is no room. -/
theorem reserve_beyond (hok : b.Ok) (hneed : need < 2^31) (hlimit : builderLimit < b.len + need) :
    b.reserve need = .error .stuck := by
  have hle := hok.le
  have harr := hok.arr_le
  obtain ⟨j, -, hj, hcap⟩ := hok.cap
  unfold reserve
  rw [if_pos (not_le.mp (fun h => absurd ((enough_iff hle (by omega) hneed).mp h)
    (by unfold builderLimit at hlimit; omega))), hcap]
  have hstuck : ∀ o : Option ℕ, o = none ∨ o = some (2^31) →
      (do
        let cap ← orTrap o
        let arr ← arrayNew cap
        let arr ← orTrap (arrayCopy arr 0 b.arr 0 b.len)
        Except.ok (⟨arr, b.len⟩ : Buf)) = .error .stuck := by
    rintro o (rfl | rfl)
    · rfl
    · have hnew : arrayNew (2^31) = .error .stuck := if_neg (lt_irrefl _)
      rw [orTrap, ok_bind, hnew]
      rfl
  apply hstuck
  by_cases hlast : j = 30
  · subst hlast
    rw [show u32 (2^30 * 2) = 2^31 from rfl]
    unfold grow
    split_ifs
    · exact Or.inr rfl
    · left
      rw [show u32 (2^31 * 2) = 0 from rfl]
      exact grow_zero (by omega) (by unfold builderLimit at hlimit; omega) hneed 32
  · have hpow : 2^j ≤ 2^30 := Nat.pow_le_pow_right (by norm_num) hj
    rw [show u32 (2^j * 2) = 2^(j + 1) by rw [Nat.pow_succ, u32_of_lt (by omega)]]
    exact grow_beyond (by unfold builderLimit; omega) hlimit hneed 33 (j + 1) (by omega)
      (by rw [Nat.pow_succ]; omega)

/-- Bytes written behind the ones in use. -/
theorem written_spec (hok : b.Ok) {x : List UInt8} (hroom : b.len + x.length ≤ b.arr.length) :
    let w : Buf := ⟨b.arr.take b.len ++ x ++ b.arr.drop (b.len + x.length), b.len + x.length⟩
    w.Ok ∧ w.contents = b.contents ++ x := by
  have htaken : (b.arr.take b.len).length = b.len := length_contents hok
  have hlen : (b.arr.take b.len ++ x ++ b.arr.drop (b.len + x.length)).length = b.arr.length := by
    rw [List.length_append, List.length_append, htaken, List.length_drop]
    omega
  refine ⟨⟨?_, ?_⟩, ?_⟩
  · rw [hlen]
    exact hok.cap
  · rw [hlen]
    exact hroom
  · unfold contents
    rw [List.take_left' (by rw [List.length_append, htaken])]

/-- `$builder_append` adds the bytes that it is given, up to the limit. -/
theorem append_spec (hok : b.Ok) (hsrc : start + n ≤ src.length) (hn : n < 2^31) :
    if b.len + n ≤ builderLimit then
      ∃ b', b.append src start n = .ok b' ∧ b'.Ok ∧ b'.contents = b.contents ++ (src.drop start).take n
    else b.append src start n = .error .stuck := by
  have hlen := hok.le.trans hok.arr_le
  unfold append
  by_cases hzero : n = 0
  · subst hzero
    rw [if_pos (show b.len + 0 ≤ builderLimit from hlen), if_pos (by rw [s32_of_lt hn]; norm_num), List.take_zero,
      List.append_nil]
    exact ⟨b, rfl, hok, rfl⟩
  · rw [if_neg (show ¬s32 n ≤ 0 by rw [s32_of_lt hn]; omega)]
    split
    · rename_i hlimit
      obtain ⟨b₁, hres, hok₁, hlen₁, hcont₁, hroom⟩ := reserve_spec hok hlimit
      have hx : ((src.drop start).take n).length = n := by
        rw [List.length_take, List.length_drop]
        omega
      have hcopy : arrayCopy b₁.arr b₁.len src start n =
          some (b₁.arr.take b₁.len ++ (src.drop start).take n ++ b₁.arr.drop (b₁.len + n)) :=
        if_pos ⟨by omega, hsrc⟩
      have hw := written_spec hok₁ (x := (src.drop start).take n) (by omega)
      unfold builderLimit at hlimit
      rw [hx, hcont₁] at hw
      rw [hres, ok_bind, hcopy, orTrap, ok_bind, u32_of_lt (by omega)]
      exact ⟨_, rfl, hw.1, hw.2⟩
    · rename_i hlimit
      rw [reserve_beyond hok hn (not_le.mp hlimit)]
      rfl

/-- A slice that is not in the source is not copied. -/
theorem append_outside (hok : b.Ok) (hsrc : ¬start + n ≤ src.length) (hn : n < 2^31) (hpos : n ≠ 0) :
    b.append src start n = .error .stuck := by
  unfold append
  rw [if_neg (show ¬s32 n ≤ 0 by rw [s32_of_lt hn]; omega)]
  by_cases hlimit : b.len + n ≤ builderLimit
  · obtain ⟨b₁, hres, -, -, -, -⟩ := reserve_spec hok hlimit
    have hcopy : arrayCopy b₁.arr b₁.len src start n = none := if_neg (fun h => hsrc h.2)
    rw [hres, ok_bind, hcopy]
    rfl
  · rw [reserve_beyond hok hn (not_le.mp hlimit)]
    rfl

theorem appendByte_spec (hok : b.Ok) (byte : UInt8) :
    if b.len + 1 ≤ builderLimit then
      ∃ b', b.appendByte byte = .ok b' ∧ b'.Ok ∧ b'.contents = b.contents ++ [byte]
    else b.appendByte byte = .error .stuck := by
  unfold appendByte
  split
  · rename_i hlimit
    obtain ⟨b₁, hres, hok₁, hlen₁, hcont₁, hroom⟩ := reserve_spec hok hlimit
    have hset : setAt b₁.arr b₁.len byte = some (b₁.arr.take b₁.len ++ [byte] ++ b₁.arr.drop (b₁.len + 1)) := by
      rw [Table.setAt_of_lt (by omega), List.set_eq_take_append_cons_drop, if_pos (by omega), List.append_assoc]
      rfl
    have hw := written_spec hok₁ (x := [byte]) (by rw [List.length_singleton]; omega)
    unfold builderLimit at hlimit
    rw [List.length_singleton, hcont₁] at hw
    rw [hres, ok_bind, hset, orTrap, ok_bind, u32_of_lt (by omega)]
    exact ⟨_, rfl, hw.1, hw.2⟩
  · rename_i hlimit
    rw [reserve_beyond hok (by norm_num) (not_le.mp hlimit)]
    rfl

/-- `$builder_finish` gives the bytes in use. -/
theorem finish_spec (hok : b.Ok) : b.finish = .ok b.contents := by
  have hle := hok.le
  have harr := hok.arr_le
  unfold finish contents
  rw [arrayNew_of_lt (by omega), ok_bind, Table.arrayCopy_new hle le_rfl, Nat.sub_self, List.replicate_zero,
    List.append_nil]
  rfl

end Buf

/-! ## The builder as its bytes -/

namespace Builder

variable {b : Builder} {x y : List UInt8}

/-- The object holds the bytes of the builder. -/
structure Holds (c : Buf) (b : Builder) : Prop where
  ok : c.Ok
  contents : c.contents = b.bytes

/-- `$builder_append` on the object does what it does on the bytes. -/
theorem append_refines {c : Buf} {src : List UInt8} {start n : ℕ} (h : Holds c b) (hsrc : start + n ≤ src.length)
    (hn : n < 2^31) :
    match b.append ((src.drop start).take n) with
    | .ok b' => ∃ c', c.append src start n = .ok c' ∧ Holds c' b'
    | .error e => c.append src start n = .error e := by
  have hspec := Buf.append_spec h.ok hsrc hn
  have hlen : b.bytes.length + ((src.drop start).take n).length = c.len + n := by
    rw [← h.contents, Buf.length_contents h.ok, List.length_take, List.length_drop]
    omega
  unfold append
  by_cases hlimit : c.len + n ≤ builderLimit
  · rw [if_pos hlimit] at hspec
    rw [dif_pos (by omega)]
    obtain ⟨c', happ, hok, hcont⟩ := hspec
    exact ⟨c', happ, hok, by rw [hcont, h.contents]⟩
  · rw [if_neg hlimit] at hspec
    rw [dif_neg (by omega)]
    exact hspec

theorem appendByte_refines {c : Buf} (h : Holds c b) (byte : UInt8) :
    match b.append [byte] with
    | .ok b' => ∃ c', c.appendByte byte = .ok c' ∧ Holds c' b'
    | .error e => c.appendByte byte = .error e := by
  have hspec := Buf.appendByte_spec h.ok byte
  have hlen : b.bytes.length = c.len := by
    rw [← h.contents, Buf.length_contents h.ok]
  unfold append
  by_cases hlimit : c.len + 1 ≤ builderLimit
  · rw [if_pos hlimit] at hspec
    rw [dif_pos (by rw [List.length_singleton]; omega)]
    obtain ⟨c', happ, hok, hcont⟩ := hspec
    exact ⟨c', happ, hok, by rw [hcont, h.contents]⟩
  · rw [if_neg hlimit] at hspec
    rw [dif_neg (by rw [List.length_singleton]; omega)]
    exact hspec

/-- The bytes go the way of the builder of the packing functions. -/
theorem append_bytes : Builder.bytes <$> b.append x = Pack.builderAppend b.bytes x := by
  unfold append Pack.builderAppend
  by_cases h : b.bytes.length + x.length ≤ builderLimit
  · rw [dif_pos h]
    unfold builderLimit at h
    rw [if_pos h]
    rfl
  · rw [dif_neg h]
    unfold builderLimit at h
    rw [if_neg h]
    rfl

/-- Two pieces in a row are one piece. -/
theorem append_append : (b.append x >>= fun b' => b'.append y) = b.append (x ++ y) := by
  unfold append
  by_cases hx : b.bytes.length + x.length ≤ builderLimit
  · rw [dif_pos hx, ok_bind]
    by_cases hy : b.bytes.length + (x ++ y).length ≤ builderLimit
    · rw [dif_pos (by rw [List.length_append, ← Nat.add_assoc] at hy; rw [List.length_append]; exact hy), dif_pos hy]
      simp only [List.append_assoc]
    · rw [dif_neg (by rw [List.length_append, ← Nat.add_assoc] at hy; rw [List.length_append]; exact hy), dif_neg hy]
  · rw [dif_neg hx, dif_neg (by rw [List.length_append]; omega)]
    rfl

@[simp] theorem append_nil : b.append [] = .ok b := by
  unfold append
  rw [dif_pos (show b.bytes.length + [].length ≤ builderLimit from b.small)]
  apply congrArg Except.ok
  ext1
  exact List.append_nil _

end Builder

end Lua2wasm.Format
