import Lua2wasm.Pack.Items

/-!
# The sizes in a format

The bounds that `$pack_opt_size` and the test of `[N]` put on the sizes of items (`Item.Valid`), and what
alignment does.
-/

namespace Lua2wasm.Pack

open Table (Fault)

/-- The sizes of an item are those that the format allows. -/
def Item.Valid : Item → Prop
  | .align n => n ≤ 16
  | .float sz => sz = 4 ∨ sz = 8
  | .int _ sz => sz ≤ 16
  | .str n => n ≤ 16
  | .fixed sz => sz < 2^31
  | _ => True

variable {bytes : List UInt8} {it : Item} {ppos pp sz maxAlign : ℕ}

theorem packLimits_le {n : ℤ} {m : ℕ} (h : packLimits n = .ok m) : m ≤ 16 := by
  unfold packLimits at h
  split_ifs at h
  · cases h
  · cases h
  · cases h
    omega

theorem nSuffixFrom_lt (bytes : List UInt8) :
    ∀ (fuel n p : ℕ) (any : Bool), n < 2^32 → (nSuffixFrom bytes fuel n p any).1 < 2^32 := by
  intro fuel
  induction fuel with
  | zero => exact fun _ _ _ h => h
  | succ fuel ih =>
    intro n p any h
    unfold nSuffixFrom
    split
    · exact h
    · split
      · exact h
      · exact ih _ _ _ (Nat.mod_lt _ (by decide))

/-- The size of a `c` option is a positive `i32`. -/
theorem packNSuffix_lt (bytes : List UInt8) (p : ℕ) : (packNSuffix bytes p (-1)).1 < 2^31 := by
  have hlt := nSuffixFrom_lt bytes (bytes.length - p) 0 p false (by decide)
  unfold packNSuffix
  dsimp only
  split
  · unfold s32
    split <;> omega
  · decide

theorem packOptSize_fixed (h : packOptSize (chr 'c') bytes ppos = .ok (sz, pp)) : sz < 2^31 := by
  have hlt := packNSuffix_lt bytes ppos
  change (if (packNSuffix bytes ppos (-1)).1 < 0 then raise "missing size"
    else Except.ok ((packNSuffix bytes ppos (-1)).1.toNat, (packNSuffix bytes ppos (-1)).2)) = _ at h
  by_cases hneg : (packNSuffix bytes ppos (-1)).1 < 0
  · rw [if_pos hneg] at h
    cases h
  · rw [if_neg hneg] at h
    cases h
    omega

theorem packOptSize_le {c : UInt8} (h : packOptSize c bytes ppos = .ok (sz, pp)) (hc : c ≠ chr 'c') : sz ≤ 16 := by
  unfold packOptSize at h
  split_ifs at h
  · cases h
    omega
  · cases h
    omega
  · cases h
    omega
  · cases h
    omega
  · cases h
    omega
  · cases h
    omega
  · cases h
    omega
  · dsimp only at h
    cases hn : packLimits (packNSuffix bytes ppos 4).1 with
    | error e =>
      rw [hn] at h
      cases h
    | ok m =>
      rw [hn] at h
      cases h
      exact packLimits_le hn
  · cases h

theorem nextItem_valid (h : nextItem bytes ppos = .ok (it, pp)) : it.Valid := by
  obtain ⟨c, -, hat⟩ := nextItem_at h
  cases hat with
  | blank hc => trivial
  | little hc => trivial
  | big hc => trivial
  | align hc hn => exact packLimits_le hn
  | pad hc => trivial
  | alignTo hc hsz => trivial
  | zstr hc => trivial
  | str hc hn => exact packLimits_le hn
  | fixed hc hsz =>
    rw [hc] at hsz
    exact packOptSize_fixed hsz
  | float hc hsz =>
    rw [packOptSize_float hc] at hsz
    cases hsz
    change (if c = chr 'f' then 4 else 8) = 4 ∨ _
    split
    · exact Or.inl rfl
    · exact Or.inr rfl
  | int hc hsz =>
    refine packOptSize_le hsz fun h => hc ?_
    rw [h]
    decide

/-! ## Alignment -/

/-- Alignment does not go back. -/
theorem packAlign_le {offset offset' : ℕ} (h : packAlign offset sz maxAlign = .ok offset')
    (hmax : maxAlign ≤ 16) (hoff : offset ≤ 2^30) : offset ≤ offset' ∧ offset' ≤ offset + 16 := by
  unfold packAlign at h
  have hstride : (if sz > maxAlign then maxAlign else sz) ≤ 16 := by
    split <;> omega
  generalize (if sz > maxAlign then maxAlign else sz) = stride at h hstride
  by_cases hpow : packIsPow2 stride = false
  · rw [if_pos hpow] at h
    cases h
  rw [if_neg hpow] at h
  by_cases hmod : offset % stride ≠ 0
  · rw [if_pos hmod] at h
    cases h
    unfold u32
    rw [Nat.mod_eq_of_lt (by omega)]
    omega
  · rw [if_neg hmod] at h
    cases h
    omega

theorem u32_lt (k : ℕ) : u32 k < 2^32 := Nat.mod_lt _ (by decide)

theorem u32_of_le {k : ℕ} (h : k < 2^32) : u32 k = k := Nat.mod_eq_of_lt h

theorem packAlign_lt {offset offset' : ℕ} (h : packAlign offset sz maxAlign = .ok offset') (hoff : offset < 2^32) :
    offset' < 2^32 := by
  unfold packAlign at h
  generalize (if sz > maxAlign then maxAlign else sz) = stride at h
  by_cases hpow : packIsPow2 stride = false
  · rw [if_pos hpow] at h
    cases h
  rw [if_neg hpow] at h
  by_cases hmod : offset % stride ≠ 0
  · rw [if_pos hmod] at h
    cases h
    exact u32_lt _
  · rw [if_neg hmod] at h
    cases h
    exact hoff

/-- Alignment raises an error or succeeds. -/
theorem packAlign_safe (offset sz maxAlign : ℕ) : packAlign offset sz maxAlign ≠ .error .stuck := by
  unfold packAlign
  generalize (if sz > maxAlign then maxAlign else sz) = stride
  dsimp only
  split
  · nofun
  · split <;> nofun

end Lua2wasm.Pack
