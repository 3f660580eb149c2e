import Mathlib

/-!
# Forms of UTF-8

A value has a form of `w` bytes if it fits the bits that such a form has room for: a lead byte that
says how many bytes there are, and `w - 1` continuation bytes of six bits each. A value that fits a
form also fits all longer ones (`Shortest` is the form that is used), and a form determines its
length and its value.
-/

namespace Utf8Form

/-- The bits that a form of `w` bytes has room for. -/
def bits (w : ℕ) : ℕ := if w = 1 then 7 else 5 * w + 1

/-- The lead byte of a form of `w` bytes, without the bits of the value. -/
def marker (w : ℕ) : ℕ := if w = 1 then 0 else 256 - 2^(8 - w)

/-- The continuation bytes with the low `6 * n` bits of a value. -/
def tail : ℕ → ℕ → List UInt8
  | 0, _ => []
  | n + 1, v => UInt8.ofNat (128 + v / 64^n % 64) :: tail n v

/-- The form of `v` with `w` bytes. -/
def form (w v : ℕ) : List UInt8 := UInt8.ofNat (marker w + v / 64^(w - 1)) :: tail (w - 1) v

/-- The value fits a form of `w` bytes. -/
def Fits (w v : ℕ) : Prop := 1 ≤ w ∧ w ≤ 6 ∧ v < 2^bits w

/-- The bytes are the shortest form of the value. -/
def Shortest (v : ℕ) (bs : List UInt8) : Prop :=
  ∃ w, Fits w v ∧ (∀ w', Fits w' v → w ≤ w') ∧ bs = form w v

/-- A continuation byte. -/
def IsCont (b : UInt8) : Prop := 128 ≤ b.toNat ∧ b.toNat < 192

/-- The value that continuation bytes add to the bits `acc` before them. -/
def extend (acc : ℕ) (bs : List UInt8) : ℕ := bs.foldl (fun acc b => acc * 64 + (b.toNat - 128)) acc

variable {w w' v v' n acc : ℕ} {b : UInt8} {bs rest rest' : List UInt8}

theorem length_tail (n v : ℕ) : (tail n v).length = n := by
  induction n with
  | zero => rfl
  | succ n ih =>
    unfold tail
    rw [List.length_cons, ih]

theorem length_form (h : 1 ≤ w) : (form w v).length = w := by
  unfold form
  rw [List.length_cons, length_tail]
  omega

/-- The bytes of a tail are continuation bytes. -/
theorem isCont_of_mem_tail (h : b ∈ tail n v) : IsCont b := by
  induction n with
  | zero => cases h
  | succ n ih =>
    unfold tail at h
    rcases List.mem_cons.mp h with rfl | h
    · unfold IsCont
      rw [UInt8.toNat_ofNat']
      omega
    · exact ih h

theorem extend_nil : extend acc [] = acc := by
  unfold extend
  rw [List.foldl_nil]

theorem extend_cons : extend acc (b :: bs) = extend (acc * 64 + (b.toNat - 128)) bs := by
  unfold extend
  rw [List.foldl_cons]

/-- The continuation bytes are the low digits of the value that they lead to. -/
theorem extend_spec (h : ∀ b ∈ bs, IsCont b) :
    extend acc bs / 64^bs.length = acc ∧ tail bs.length (extend acc bs) = bs := by
  induction bs generalizing acc with
  | nil =>
    rw [extend_nil]
    constructor
    · rw [List.length_nil, pow_zero, Nat.div_one]
    · rfl
  | cons b bs ih =>
    have hb : IsCont b := h b List.mem_cons_self
    unfold IsCont at hb
    obtain ⟨hdiv, htail⟩ := @ih (acc * 64 + (b.toNat - 128)) fun c hc => h c (List.mem_cons_of_mem b hc)
    rw [extend_cons, List.length_cons]
    constructor
    · rw [pow_succ, ← Nat.div_div_eq_div_mul, hdiv]
      omega
    · have hbyte : UInt8.ofNat (128 + (acc * 64 + (b.toNat - 128)) % 64) = b := by
        apply UInt8.toNat_inj.mp
        rw [UInt8.toNat_ofNat']
        omega
      unfold tail
      rw [htail, hdiv, hbyte]

/-- What the digits of a value lead back to. -/
theorem extend_tail (n v : ℕ) : extend (v / 64^n) (tail n v) = v := by
  induction n with
  | zero =>
    unfold tail
    rw [extend_nil, pow_zero, Nat.div_one]
  | succ n ih =>
    unfold tail
    rw [extend_cons, UInt8.toNat_ofNat']
    have hdigit : v / 64^(n + 1) * 64 + ((128 + v / 64^n % 64) % 2^8 - 128) = v / 64^n := by
      rw [pow_succ, ← Nat.div_div_eq_div_mul]
      omega
    rw [hdigit]
    exact ih

/-- The bits of the value in the lead byte. -/
theorem lead_lt (h : Fits w v) : v / 64^(w - 1) < if w = 1 then 128 else 2^(7 - w) := by
  obtain ⟨h1, h6, hv⟩ := h
  unfold bits at hv
  apply Nat.div_lt_of_lt_mul
  interval_cases w <;> simpa using hv

/-- The lead byte says how many bytes there are. -/
theorem lead_cases (h : Fits w v) :
    ∃ b : UInt8, form w v = b :: tail (w - 1) v ∧ b.toNat = marker w + v / 64^(w - 1) ∧
      b.toNat < if w = 1 then 128 else marker w + 2^(7 - w) := by
  have hlead := lead_lt h
  obtain ⟨h1, h6, -⟩ := h
  refine ⟨UInt8.ofNat (marker w + v / 64^(w - 1)), rfl, ?_⟩
  have hsmall : marker w + v / 64^(w - 1) < 256 := by
    unfold marker
    interval_cases w <;> simp at hlead ⊢ <;> omega
  rw [UInt8.toNat_ofNat', Nat.mod_eq_of_lt hsmall]
  constructor
  · rfl
  · unfold marker
    interval_cases w <;> simp at hlead ⊢ <;> omega

/-- A form determines its length and its value. -/
theorem form_inj (h : Fits w v) (h' : Fits w' v') (heq : form w v ++ rest = form w' v' ++ rest') :
    w = w' ∧ v = v' := by
  obtain ⟨b, hb, hval, hlt⟩ := lead_cases h
  obtain ⟨b', hb', hval', hlt'⟩ := lead_cases h'
  rw [hb, hb', List.cons_append, List.cons_append] at heq
  obtain ⟨rfl, htail⟩ := List.cons.inj heq
  have hw : w = w' := by
    obtain ⟨h1, h6, -⟩ := h
    obtain ⟨h1', h6', -⟩ := h'
    unfold marker at hval hval' hlt hlt'
    interval_cases w <;> interval_cases w' <;> simp at hval hval' hlt hlt' ⊢ <;> omega
  subst hw
  refine ⟨rfl, ?_⟩
  have hlead : v / 64^(w - 1) = v' / 64^(w - 1) := by omega
  have htails : tail (w - 1) v = tail (w - 1) v' :=
    (List.append_inj htail (by rw [length_tail, length_tail])).1
  rw [← extend_tail (w - 1) v, ← extend_tail (w - 1) v', hlead, htails]

/-- A value of at most 31 bits has a shortest form. -/
theorem exists_shortest (hv : v < 2^31) : ∃ w, Fits w v ∧ ∀ w', Fits w' v → w ≤ w' := by
  have hex : ∃ w, Fits w v := ⟨6, by decide, by decide, hv⟩
  classical
  exact ⟨Nat.find hex, Nat.find_spec hex, fun w' h => Nat.find_min' hex h⟩

end Utf8Form
