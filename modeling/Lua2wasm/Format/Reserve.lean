import Lua2wasm.Format.Builder

/-!
# When a builder can be enlarged

`$builder_reserve` for any capacity. It doubles the capacity in 32 bits and compares what would be free as a signed
number. A capacity below `2^31` passes if it covers what is needed, and one above it passes if the length takes the
difference below `2^31` again, and then no array has that size (`enough_word_iff`). With the bits of the capacity all
shifted out the loop stays at 0 and goes on for ever (`grow_for_ever`).

So there is room afterwards just if a doubled capacity covers what is needed before one of the second kind comes up
(`reserve_iff`). For a power of two that is a sum of at most `2^30` (`canReserve_two_pow`), not of less than `2^31`.
-/

namespace Lua2wasm.Format

open Table (Fault arrayCopy)
open Pack (orTrap u32 s32 ok_bind)

/-- The test of the loop of `$builder_reserve`. -/
def Enough (len need cap : ℕ) : Prop := s32 need ≤ s32 (i32Sub cap len)

/-- Some doubling of the capacity covers the sum, and none before it has only the sign bit more than a part of the
length. -/
def Doubles (cap len need : ℕ) : Prop :=
  ∃ k, 1 ≤ k ∧ len + need ≤ cap * 2^k % 2^32 ∧ cap * 2^k % 2^32 < 2^31 ∧
    ∀ j, 1 ≤ j → j < k → ¬(2^31 ≤ cap * 2^j % 2^32 ∧ cap * 2^j % 2^32 < 2^31 + len)

/-- The bytes fit, or the capacity can be doubled until they do. -/
def CanReserve (cap len need : ℕ) : Prop := len ≤ cap ∧ (len + need ≤ cap ∨ Doubles cap len need)

/-- There is room for `need` more bytes, behind the ones that there were. -/
structure Reserved (b : Buf) (need : ℕ) (b' : Buf) : Prop where
  len : b'.len = b.len
  room : b'.len + need ≤ b'.arr.length
  kept : b'.contents = b.contents

namespace Buf

variable {b b' : Buf} {len need cap c d k fuel : ℕ}

/-! ## The loop -/

theorem enough_word_iff (hsum : len + need < 2^31) (hc : c < 2^32) :
    Enough len need c ↔ len + need ≤ c ∧ c < 2^31 ∨ 2^31 ≤ c ∧ c < 2^31 + len := by
  unfold Enough i32Sub u32 s32
  split_ifs <;> omega

theorem u32_double (c k : ℕ) : u32 (u32 (c * 2) * 2^k) = u32 (c * 2^(k + 1)) := by
  unfold u32
  rw [Nat.mod_mul_mod, Nat.mul_assoc, Nat.pow_succ' (n := k)]

/-- The loop finds the first doubling that passes the test. -/
theorem grow_eq_some_iff (hc : c < 2^32) : grow len need fuel c = some d ↔
    ∃ k < fuel, d = u32 (c * 2^k) ∧ Enough len need (u32 (c * 2^k)) ∧ ∀ j < k, ¬Enough len need (u32 (c * 2^j)) := by
  induction fuel generalizing c with
  | zero =>
    constructor
    · intro h
      cases h
    · rintro ⟨k, hk, -⟩
      omega
  | succ fuel ih =>
    have hfirst : u32 (c * 2^0) = c := by rw [Nat.pow_zero, Nat.mul_one, u32_of_lt hc]
    have hnext : u32 (c * 2) < 2^32 := Nat.mod_lt _ (by norm_num)
    unfold grow
    split_ifs with henough
    · constructor
      · intro h
        refine ⟨0, Nat.succ_pos _, ?_, by rw [hfirst]; exact henough, fun j hj => absurd hj (Nat.not_lt_zero j)⟩
        rw [hfirst, Option.some.inj h]
      · rintro ⟨k, -, rfl, -, hbefore⟩
        have hk : k = 0 := by
          by_contra hne
          exact hbefore 0 (Nat.pos_of_ne_zero hne) (by rw [hfirst]; exact henough)
        rw [hk, hfirst]
    · rw [ih hnext]
      -- one doubling more than from the next capacity
      constructor
      · rintro ⟨k, hk, rfl, hpass, hbefore⟩
        rw [u32_double] at hpass
        refine ⟨k + 1, by omega, u32_double c k, hpass, fun j hj => ?_⟩
        rcases Nat.eq_zero_or_pos j with rfl | hpos
        · rw [hfirst]
          exact henough
        · obtain ⟨i, rfl⟩ : ∃ i, j = i + 1 := ⟨j - 1, by omega⟩
          rw [← u32_double]
          exact hbefore i (by omega)
      · rintro ⟨k, hk, rfl, hpass, hbefore⟩
        rcases Nat.eq_zero_or_pos k with rfl | hpos
        · rw [hfirst] at hpass
          exact absurd hpass henough
        · obtain ⟨i, rfl⟩ : ∃ i, k = i + 1 := ⟨k - 1, by omega⟩
          rw [← u32_double] at hpass
          refine ⟨i, by omega, (u32_double c i).symm, hpass, fun j hj => ?_⟩
          rw [u32_double]
          exact hbefore (j + 1) (by omega)

/-- After 32 doublings nothing is left. -/
theorem u32_shifted_out (h : 32 ≤ k) (c : ℕ) : u32 (c * 2^k) = 0 := by
  unfold u32
  exact Nat.mod_eq_zero_of_dvd (Dvd.dvd.mul_left (Nat.pow_dvd_pow 2 h) c)

/-- A capacity that is not found by then is never found. -/
theorem grow_for_ever (hsum : len + need < 2^31) (hpos : 0 < len + need) (hc : c < 2^32)
    (h : grow len need 33 c = none) (fuel : ℕ) : grow len need fuel c = none := by
  rcases hgrow : grow len need fuel c with _ | d
  · rfl
  obtain ⟨k, -, -, hpass, hbefore⟩ := (grow_eq_some_iff hc).mp hgrow
  have hk : k < 33 := by
    by_contra hge
    rw [u32_shifted_out (by omega), enough_word_iff hsum (by norm_num)] at hpass
    omega
  rw [(grow_eq_some_iff hc).mpr ⟨k, hk, rfl, hpass, hbefore⟩] at h
  cases h

/-- The first doubling that passes is a size for an array just if the capacity doubles. -/
theorem doubles_iff (hsum : len + need < 2^31) (hpos : 0 < len + need) :
    Doubles cap len need ↔ ∃ d, grow len need 33 (u32 (cap * 2)) = some d ∧ d < 2^31 := by
  have hword : ∀ j, cap * 2^j % 2^32 < 2^32 := fun j => Nat.mod_lt _ (by norm_num)
  have hpass : ∀ j, Enough len need (u32 (cap * 2^j)) ↔
      len + need ≤ cap * 2^j % 2^32 ∧ cap * 2^j % 2^32 < 2^31 ∨
        2^31 ≤ cap * 2^j % 2^32 ∧ cap * 2^j % 2^32 < 2^31 + len := fun j => enough_word_iff hsum (hword j)
  have hnext : u32 (cap * 2) < 2^32 := Nat.mod_lt _ (by norm_num)
  constructor
  · rintro ⟨k, hk, hcover, hsize, hbefore⟩
    have hsome : ∃ i, Enough len need (u32 (u32 (cap * 2) * 2^i)) := by
      refine ⟨k - 1, ?_⟩
      rw [u32_double, Nat.sub_add_cancel hk, hpass]
      exact Or.inl ⟨hcover, hsize⟩
    classical
    -- the first one that passes is not behind the one that covers
    have hle : Nat.find hsome ≤ k - 1 := by
      apply Nat.find_min'
      rw [u32_double, Nat.sub_add_cancel hk, hpass]
      exact Or.inl ⟨hcover, hsize⟩
    have hfound := Nat.find_spec hsome
    have hlt : Nat.find hsome < 33 := by
      by_contra hge
      rw [u32_shifted_out (by omega), enough_word_iff hsum (by norm_num)] at hfound
      omega
    refine ⟨_, (grow_eq_some_iff hnext).mpr ⟨_, hlt, rfl, hfound, fun j hj => Nat.find_min hsome hj⟩, ?_⟩
    rw [u32_double] at hfound ⊢
    rcases (hpass _).mp hfound with ⟨-, hsmall⟩ | hsign
    · exact hsmall
    · rcases Nat.lt_or_ge (Nat.find hsome + 1) k with hearly | hlate
      · exact absurd hsign (hbefore _ (by omega) hearly)
      · rw [show Nat.find hsome + 1 = k by omega]
        exact hsize
  · rintro ⟨d, hgrow, hsize⟩
    obtain ⟨k, -, rfl, hfound, hbefore⟩ := (grow_eq_some_iff hnext).mp hgrow
    rw [u32_double] at hfound hsize
    have hsize' : cap * 2^(k + 1) % 2^32 < 2^31 := hsize
    refine ⟨k + 1, Nat.succ_pos _, ?_, hsize', fun j hj hlt hsign => ?_⟩
    · rcases (hpass _).mp hfound with ⟨hcover, -⟩ | ⟨hsign, -⟩
      · exact hcover
      · omega
    · apply hbefore (j - 1) (by omega)
      rw [u32_double, Nat.sub_add_cancel hj, hpass]
      exact Or.inr hsign

/-! ## Reserving -/

/-- What `$builder_reserve` does when the bytes do not fit. -/
theorem reserve_grows (h : ¬(b.len ≤ b.arr.length ∧ b.len + need ≤ b.arr.length)) (hcap : b.arr.length < 2^31)
    (hsum : b.len + need < 2^31) : b.reserve need = (do
      let cap ← orTrap (grow b.len need 33 (u32 (b.arr.length * 2)))
      let arr ← arrayNew cap
      let arr ← orTrap (arrayCopy arr 0 b.arr 0 b.len)
      .ok ⟨arr, b.len⟩) := by
  apply if_pos
  rw [← not_le]
  intro henough
  have := (enough_word_iff (c := b.arr.length) hsum (by omega)).mp henough
  omega

/-- There is room afterwards just if the bytes fit or the capacity can be doubled. -/
theorem reserve_reserves_iff (hcap : b.arr.length < 2^31) (hsum : b.len + need < 2^31) :
    (∃ b', b.reserve need = .ok b' ∧ Reserved b need b') ↔ CanReserve b.arr.length b.len need := by
  by_cases hfits : b.len ≤ b.arr.length ∧ b.len + need ≤ b.arr.length
  · -- nothing is done
    have hsame : b.reserve need = .ok b := by
      apply if_neg
      rw [not_lt]
      exact (enough_word_iff (c := b.arr.length) hsum (by omega)).mpr (Or.inl ⟨hfits.2, hcap⟩)
    constructor
    · exact fun _ => ⟨hfits.1, Or.inl hfits.2⟩
    · exact fun _ => ⟨b, hsame, rfl, hfits.2, rfl⟩
  rw [reserve_grows hfits hcap hsum]
  unfold CanReserve
  by_cases hle : b.len ≤ b.arr.length
  · rw [and_iff_right hle, or_iff_right (fun h => hfits ⟨hle, h⟩), doubles_iff hsum (by omega)]
    constructor
    · rintro ⟨b', hres, -⟩
      rcases hgrow : grow b.len need 33 (u32 (b.arr.length * 2)) with _ | d
      · rw [hgrow] at hres
        cases hres
      · refine ⟨d, rfl, ?_⟩
        by_contra hbig
        have hnew : arrayNew d = .error .stuck := if_neg hbig
        rw [hgrow, orTrap, ok_bind, hnew] at hres
        cases hres
    · rintro ⟨d, hgrow, hsize⟩
      obtain ⟨k, -, hd, hpass, -⟩ := (grow_eq_some_iff (Nat.mod_lt _ (by norm_num))).mp hgrow
      rw [← hd, enough_word_iff hsum (by omega)] at hpass
      have hcopy : arrayCopy (List.replicate d 0) 0 b.arr 0 b.len =
          some (b.arr.take b.len ++ List.replicate (d - b.len) 0) := Table.arrayCopy_new hle (by omega)
      have htaken : (b.arr.take b.len).length = b.len := by rw [List.length_take, Nat.min_eq_left hle]
      rw [hgrow, orTrap, ok_bind, arrayNew_of_lt hsize, ok_bind, hcopy, orTrap, ok_bind]
      refine ⟨_, rfl, rfl, ?_, ?_⟩
      · dsimp only
        rw [List.length_append, htaken, List.length_replicate]
        omega
      · unfold contents
        rw [List.take_append_of_le_length htaken.ge, List.take_take, Nat.min_self]
  · -- the bytes in use are not all there to be copied
    constructor
    · rintro ⟨b', hres, -⟩
      have hcopy : ∀ arr, arrayCopy arr 0 b.arr 0 b.len = none := fun arr => if_neg (by omega)
      rcases hgrow : grow b.len need 33 (u32 (b.arr.length * 2)) with _ | d
      · rw [hgrow] at hres
        cases hres
      · rcases hnew : arrayNew d with e | arr
        · rw [hgrow, orTrap, ok_bind, hnew] at hres
          cases hres
        · rw [hgrow, orTrap, ok_bind, hnew, ok_bind, hcopy] at hres
          cases hres
    · exact fun h => absurd h.1 hle

end Buf

/-! ## Powers of two -/

variable {j len need : ℕ}

/-- The capacities of the builders that the runtime makes double up to `2^30`. -/
theorem canReserve_two_pow (hj : j ≤ 30) (hsum : len + need < 2^31) :
    CanReserve (2^j) len need ↔ len ≤ 2^j ∧ len + need ≤ 2^30 := by
  have hcap : 2^j ≤ 2^30 := Nat.pow_le_pow_right (by norm_num) hj
  have hpow : ∀ k, 2^j * 2^k = 2^(j + k) := fun k => (Nat.pow_add 2 j k).symm
  unfold CanReserve
  refine and_congr_right fun hle => ?_
  constructor
  · rintro (hfits | ⟨k, -, hcover, hsize, -⟩)
    · omega
    · -- a doubling is a power of two or nothing
      rw [hpow] at hcover hsize
      rcases Nat.lt_or_ge (j + k) 31 with hlt | hge
      · have : 2^(j + k) ≤ 2^30 := Nat.pow_le_pow_right (by norm_num) (by omega)
        rw [Nat.mod_eq_of_lt (by omega)] at hcover
        omega
      · rcases hge.eq_or_lt with heq | hgt
        · rw [← heq] at hsize
          norm_num at hsize
        · rw [Nat.mod_eq_zero_of_dvd (Nat.pow_dvd_pow 2 hgt)] at hcover
          omega
  · intro h30
    by_cases hfits : len + need ≤ 2^j
    · exact Or.inl hfits
    · have hlast : j ≠ 30 := by
        rintro rfl
        exact hfits h30
      right
      refine ⟨30 - j, by omega, ?_, ?_, fun i hi hlt hsign => ?_⟩
      · rw [hpow, Nat.add_sub_cancel' hj]
        exact h30
      · rw [hpow, Nat.add_sub_cancel' hj]
        norm_num
      · have : 2^(j + i) ≤ 2^30 := Nat.pow_le_pow_right (by norm_num) (by omega)
        rw [hpow, Nat.mod_eq_of_lt (by omega)] at hsign
        omega

/-- A builder gets room for more bytes, and keeps the ones it has, just if its capacity can be doubled to cover both;
and where the loop does not find a capacity in 33 turns, it never does. -/
theorem reserve_iff {b : Buf} (hcap : b.arr.length < 2^31) (hsum : b.len + need < 2^31) :
    ((∃ b', b.reserve need = .ok b' ∧ Reserved b need b') ↔ CanReserve b.arr.length b.len need) ∧
      (0 < b.len + need → Buf.grow b.len need 33 (u32 (b.arr.length * 2)) = none →
        ∀ fuel, Buf.grow b.len need fuel (u32 (b.arr.length * 2)) = none) :=
  ⟨Buf.reserve_reserves_iff hcap hsum, fun hpos h => Buf.grow_for_ever hsum hpos (Nat.mod_lt _ (by norm_num)) h⟩

/-- A new builder takes 100 bytes. -/
theorem reserve_iff_hundred : ∃ b', Buf.new.reserve 100 = .ok b' ∧ Reserved Buf.new 100 b' :=
  (reserve_iff (by decide) (by decide)).1.mpr ((canReserve_two_pow (j := 5) (by decide) (by decide)).mpr (by decide))

/-- It never has room for `2^30 + 1`. -/
theorem reserve_not_all : ¬∀ (b : Buf) (need : ℕ), b.len ≤ b.arr.length → b.arr.length + b.len + need < 2^31 →
    ∃ b', b.reserve need = .ok b' ∧ Reserved b need b' := by
  intro hall
  have hreserved := hall Buf.new (2^30 + 1) (by decide) (by decide)
  rw [Buf.reserve_reserves_iff (by decide) (by decide)] at hreserved
  exact absurd ((canReserve_two_pow (j := 5) (by decide) (by decide)).mp hreserved).2 (by decide)

end Lua2wasm.Format
