import Lua2wasm.Pack.Items

/-!
# The count of the values

`string.unpack` makes its array of results with one walk over the format (`$pack_count_values`) and
fills it with another. The first skips the digits after any option, and the second only after those that
take a number, so they may come apart; but then the second stands on a digit, which is no option
(`count_step`, `nextItem_digit`).
-/

namespace Lua2wasm.Pack

open Table (Fault)

variable {bytes : List UInt8} {ppos pp : ℕ} {it : Item}

/-- There is a digit at the position. -/
def DigitAt (bytes : List UInt8) (p : ℕ) : Prop := ∃ c, bytes[p]? = some c ∧ 48 ≤ c ∧ c ≤ 57

/-- The item unpacks a value. -/
def Item.hasValue : Item → Bool
  | .zstr => true
  | .str _ => true
  | .fixed _ => true
  | .float _ => true
  | .int _ _ => true
  | _ => false

/-- The item has a size whatever is packed in it. -/
def Item.hasSize : Item → Bool
  | .zstr => false
  | .str _ => false
  | _ => true

/-- A number that is not there leaves the position. -/
theorem packNSuffix_stay (h : ¬ DigitAt bytes ppos) (d : ℤ) : (packNSuffix bytes ppos d).2 = ppos := by
  unfold packNSuffix
  cases hfuel : bytes.length - ppos with
  | zero => rfl
  | succ fuel =>
    unfold nSuffixFrom
    cases hc : bytes[ppos]? with
    | none => rfl
    | some c =>
      dsimp only
      have hno : c < 48 ∨ 57 < c := by
        by_contra hdigit
        apply h
        refine ⟨c, hc, ?_, ?_⟩
        · exact UInt8.not_lt.mp fun hlt => hdigit (Or.inl hlt)
        · exact UInt8.not_lt.mp fun hlt => hdigit (Or.inr hlt)
      rw [if_pos hno]

theorem le_nSuffixFrom (bytes : List UInt8) :
    ∀ (fuel n p : ℕ) (any : Bool), p ≤ (nSuffixFrom bytes fuel n p any).2.1 := by
  intro fuel
  induction fuel with
  | zero => exact fun _ _ _ => Nat.le_refl _
  | succ fuel ih =>
    intro n p any
    unfold nSuffixFrom
    cases bytes[p]? with
    | none => exact Nat.le_refl _
    | some c =>
      dsimp only
      split
      · exact Nat.le_refl _
      · exact Nat.le_trans (Nat.le_succ p) (ih _ _ _)

theorem le_packNSuffix (bytes : List UInt8) (p : ℕ) (d : ℤ) : p ≤ (packNSuffix bytes p d).2 :=
  le_nSuffixFrom bytes _ _ _ _

/-- An option takes its number, or none. -/
theorem packOptSize_end {c : UInt8} {sz : ℕ} (h : packOptSize c bytes ppos = .ok (sz, pp)) :
    pp = ppos ∨ pp = (packNSuffix bytes ppos 0).2 := by
  unfold packOptSize at h
  split_ifs at h
  · cases h
    exact Or.inl rfl
  · cases h
    exact Or.inl rfl
  · cases h
    exact Or.inl rfl
  · cases h
    exact Or.inl rfl
  · cases h
    exact Or.inl rfl
  · cases h
    exact Or.inl rfl
  · cases h
    exact Or.inl rfl
  · right
    cases hn : packLimits (packNSuffix bytes ppos 4).1 with
    | error e =>
      simp only [hn] at h
      cases h
    | ok n =>
      simp only [hn] at h
      cases h
      rfl
  · right
    dsimp only at h
    split at h
    · cases h
    · cases h
      rfl
  · cases h

/-- A digit is no option. -/
theorem nextItem_digit (h : DigitAt bytes ppos) : nextItem bytes ppos = raise "invalid format" := by
  obtain ⟨c, hc, hlo, hhi⟩ := h
  have hne : ∀ d : Char, (chr d < 48 ∨ 57 < chr d) → c ≠ chr d := by
    rintro d hd rfl
    obtain hd | hd := hd
    · exact absurd hlo (UInt8.not_le.mpr hd)
    · exact absurd hhi (UInt8.not_le.mpr hd)
  have hopt : packOptSize c bytes (ppos + 1) = raise "invalid format" := by
    unfold packOptSize
    rw [if_neg (not_or.mpr ⟨hne 'b' (by decide), hne 'B' (by decide)⟩),
      if_neg (not_or.mpr ⟨hne 'h' (by decide), hne 'H' (by decide)⟩),
      if_neg (not_or.mpr ⟨hne 'l' (by decide), hne 'L' (by decide)⟩),
      if_neg (not_or.mpr ⟨hne 'j' (by decide), hne 'J' (by decide)⟩), if_neg (hne 'T' (by decide)),
      if_neg (hne 'f' (by decide)), if_neg (not_or.mpr ⟨hne 'd' (by decide), hne 'n' (by decide)⟩),
      if_neg (not_or.mpr ⟨hne 'i' (by decide), hne 'I' (by decide)⟩), if_neg (hne 'c' (by decide))]
  unfold nextItem
  rw [hc]
  unfold orTrap
  simp only [ok_bind]
  rw [if_neg (hne ' ' (by decide)), if_neg (hne '<' (by decide)), if_neg (hne '>' (by decide)),
    if_neg (hne '=' (by decide)), if_neg (hne '!' (by decide)), if_neg (hne 'x' (by decide)),
    if_neg (hne 'X' (by decide)), if_neg (hne 'z' (by decide)), if_neg (hne 's' (by decide)), hopt]
  rfl

/-- The item after one that takes its number, or none, starts where the count goes on, or at a digit. -/
theorem end_or_digit {q : ℕ} (h : pp = q ∨ pp = (packNSuffix bytes q 0).2) :
    pp = (packNSuffix bytes q 0).2 ∨ DigitAt bytes pp := by
  obtain rfl | h := h
  · by_cases hd : DigitAt bytes pp
    · exact Or.inr hd
    · exact Or.inl (packNSuffix_stay hd 0).symm
  · exact Or.inl h

theorem packCountFrom_add (bytes : List UInt8) :
    ∀ (fuel ppos count : ℕ), packCountFrom bytes fuel ppos count = count + packCountFrom bytes fuel ppos 0 := by
  intro fuel
  induction fuel with
  | zero => exact fun _ _ => rfl
  | succ fuel ih =>
    intro ppos count
    unfold packCountFrom
    cases bytes[ppos]? with
    | none => rfl
    | some c =>
      dsimp only
      split_ifs
      · exact ih _ _
      · exact ih _ _
      · exact ih _ _
      · exact ih _ _
      · exact ih _ _
      · rw [ih _ (count + 1), ih _ (0 + 1)]
        omega

/-- What the count does with the letter at its position. -/
theorem packCountFrom_succ {c : UInt8} (h : bytes[ppos]? = some c) (fuel : ℕ) :
    packCountFrom bytes (fuel + 1) ppos 0 =
      if c = chr ' ' ∨ c = chr '<' ∨ c = chr '>' ∨ c = chr '=' then packCountFrom bytes fuel (ppos + 1) 0
      else if c = chr '!' then packCountFrom bytes fuel (packNSuffix bytes (ppos + 1) 0).2 0
      else if c = chr 'x' then packCountFrom bytes fuel (ppos + 1) 0
      else if c = chr 'X' then
        if bytes.length ≤ ppos + 1 then packCountFrom bytes fuel (ppos + 1) 0
        else packCountFrom bytes fuel (packNSuffix bytes (ppos + 1 + 1) 0).2 0
      else 1 + packCountFrom bytes fuel (packNSuffix bytes (ppos + 1) 0).2 0 := by
  conv_lhs => unfold packCountFrom
  rw [h]
  dsimp only
  split_ifs
  · rfl
  · rfl
  · rfl
  · rfl
  · rfl
  · rw [packCountFrom_add]

/-- The count takes an item and goes on behind it, at its end unless a digit is there. -/
def CountsTo (bytes : List UInt8) (ppos : ℕ) (it : Item) (pp : ℕ) : Prop :=
  ppos < pp ∧ ∃ r, (r = pp ∨ DigitAt bytes pp) ∧ ∀ fuel, packCountFrom bytes (fuel + 1) ppos 0 =
    (if it.hasValue then 1 else 0) + packCountFrom bytes fuel r 0

/-- An option that takes its number, or none, when the count goes on behind the number. -/
theorem countsTo_number {q : ℕ} (hq : ppos < q) (hend : pp = q ∨ pp = (packNSuffix bytes q 0).2)
    (hcount : ∀ fuel, packCountFrom bytes (fuel + 1) ppos 0 =
      (if it.hasValue then 1 else 0) + packCountFrom bytes fuel (packNSuffix bytes q 0).2 0) :
    CountsTo bytes ppos it pp := by
  refine ⟨?_, _, ?_, hcount⟩
  · have := le_packNSuffix bytes q 0
    omega
  · obtain heq | hd := end_or_digit hend
    · exact Or.inl heq.symm
    · exact Or.inr hd

/-- A letter without a number and without a value. -/
theorem countsTo_letter (hv : it.hasValue = false)
    (hcount : ∀ fuel, packCountFrom bytes (fuel + 1) ppos 0 = packCountFrom bytes fuel (ppos + 1) 0) :
    CountsTo bytes ppos it (ppos + 1) := by
  refine ⟨by omega, ppos + 1, Or.inl rfl, fun fuel => ?_⟩
  rw [hcount, hv]
  simp

/-- A letter of a value. -/
theorem countsTo_value {c : UInt8} (hbyte : bytes[ppos]? = some c) (hv : it.hasValue = true)
    (hc : c ∉ [chr ' ', chr '<', chr '>', chr '=', chr '!', chr 'x', chr 'X'])
    (hend : pp = ppos + 1 ∨ pp = (packNSuffix bytes (ppos + 1) 0).2) : CountsTo bytes ppos it pp := by
  refine countsTo_number (by omega) hend fun fuel => ?_
  simp only [List.mem_cons, List.not_mem_nil, or_false, not_or] at hc
  rw [packCountFrom_succ hbyte, hv]
  simp [hc]

/-- What a well-formed item is for the count: it is counted, and the count goes on behind it, unless a digit is
there. -/
theorem count_step (h : nextItem bytes ppos = .ok (it, pp)) : CountsTo bytes ppos it pp := by
  obtain ⟨c, hbyte, hat⟩ := nextItem_at h
  have hcount := packCountFrom_succ hbyte
  cases hat with
  | blank hc =>
    subst hc
    exact countsTo_letter rfl hcount
  | little hc =>
    obtain rfl | rfl := hc
    · exact countsTo_letter rfl hcount
    · exact countsTo_letter rfl hcount
  | big hc =>
    subst hc
    exact countsTo_letter rfl hcount
  | align hc hn =>
    subst hc
    refine countsTo_number (by omega) (Or.inr rfl) fun fuel => ?_
    rw [hcount, if_neg (by decide), if_pos rfl]
    simp [Item.hasValue]
  | pad hc =>
    subst hc
    exact countsTo_letter rfl hcount
  | alignTo hc hsz =>
    subst hc
    unfold alignOpt at hsz
    -- the option behind `X` is read for its size only
    cases hx : bytes[ppos + 1]? with
    | none =>
      rw [hx] at hsz
      cases hsz
    | some c' =>
      rw [hx] at hsz
      have hlt := (List.getElem?_eq_some_iff.mp hx).1
      refine countsTo_number (by omega) (packOptSize_end hsz) fun fuel => ?_
      rw [hcount, if_neg (by decide), if_neg (by decide), if_neg (by decide), if_pos rfl,
        if_neg (Nat.not_le.mpr hlt)]
      simp [Item.hasValue]
  | zstr hc =>
    subst hc
    exact countsTo_value hbyte rfl (by decide) (Or.inl rfl)
  | str hc hn =>
    subst hc
    exact countsTo_value hbyte rfl (by decide) (Or.inr rfl)
  | fixed hc hsz =>
    subst hc
    exact countsTo_value hbyte rfl (by decide) (packOptSize_end hsz)
  | float hc hsz =>
    refine countsTo_value hbyte rfl ?_ (packOptSize_end hsz)
    obtain rfl | rfl | rfl := hc <;> decide
  | int hc hsz =>
    refine countsTo_value hbyte rfl (fun h => hc ?_) (packOptSize_end hsz)
    revert h
    simp +contextual [otherLetters, or_imp]

end Lua2wasm.Pack
