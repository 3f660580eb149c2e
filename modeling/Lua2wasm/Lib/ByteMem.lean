import Mathlib

/-!
# Byte memories

A memory of bytes with little-endian words of 32 bits, as linear memory has. A word is read as a
natural number below `2^32`. The lemmas say which bytes a write leaves alone (`write32_of_outside`),
so that a fact about one region of memory survives writes to others (`SameOn`).
-/

namespace ByteMem

/-- A memory: a byte at every address. -/
abbrev Mem := ℕ → BitVec 8

/-- The word at an address. -/
def read32 (m : Mem) (a : ℕ) : ℕ :=
  (m a).toNat + 2^8 * (m (a + 1)).toNat + 2^16 * (m (a + 2)).toNat + 2^24 * (m (a + 3)).toNat

/-- Write the word `v` to an address. -/
def write32 (m : Mem) (a v : ℕ) : Mem := fun x =>
  if a ≤ x ∧ x < a + 4 then BitVec.ofNat 8 (v / 2^(8 * (x - a))) else m x

/-- Copy `n` bytes from `src` to `dst`. The source is read before anything is written. -/
def copy (m : Mem) (dst src n : ℕ) : Mem := fun x =>
  if dst ≤ x ∧ x < dst + n then m (src + (x - dst)) else m x

/-- Write `n` bytes `v` from `a` on. -/
def fill (m : Mem) (a : ℕ) (v : BitVec 8) (n : ℕ) : Mem := fun x =>
  if a ≤ x ∧ x < a + n then v else m x

/-- Two memories agree from `lo` up to `hi`. -/
def SameOn (m m' : Mem) (lo hi : ℕ) : Prop := ∀ a, lo ≤ a → a < hi → m' a = m a

variable {m m' m'' : Mem} {a b v lo hi : ℕ}

/-- A word reads back. -/
theorem read32_write32 (m : Mem) (a : ℕ) (hv : v < 2^32) : read32 (write32 m a v) a = v := by
  have h0 : write32 m a v a = BitVec.ofNat 8 v := by simp [write32]
  have h1 : write32 m a v (a + 1) = BitVec.ofNat 8 (v / 2^8) := by simp [write32]
  have h2 : write32 m a v (a + 2) = BitVec.ofNat 8 (v / 2^16) := by simp [write32]
  have h3 : write32 m a v (a + 3) = BitVec.ofNat 8 (v / 2^24) := by simp [write32]
  unfold read32
  rw [h0, h1, h2, h3]
  simp only [BitVec.toNat_ofNat]
  omega

/-- A write changes nothing outside its four bytes. -/
theorem write32_of_outside {x : ℕ} (m : Mem) (v : ℕ) (h : x < a ∨ a + 4 ≤ x) :
    write32 m a v x = m x := by
  unfold write32
  rw [if_neg (by omega)]

/-- A word apart from the one written. -/
theorem read32_write32_of_apart (m : Mem) (v : ℕ) (h : b + 4 ≤ a ∨ a + 4 ≤ b) :
    read32 (write32 m a v) b = read32 m b := by
  unfold read32
  rw [write32_of_outside m v (by omega), write32_of_outside m v (by omega),
    write32_of_outside m v (by omega), write32_of_outside m v (by omega)]

/-! ## Agreement -/

theorem SameOn.refl (m : Mem) (lo hi : ℕ) : SameOn m m lo hi := fun _ _ _ => rfl

theorem SameOn.trans (h : SameOn m m' lo hi) (h' : SameOn m' m'' lo hi) : SameOn m m'' lo hi :=
  fun a hlo hhi => (h' a hlo hhi).trans (h a hlo hhi)

theorem SameOn.mono {lo' hi' : ℕ} (h : SameOn m m' lo hi) (hlo : lo ≤ lo') (hhi : hi' ≤ hi) :
    SameOn m m' lo' hi' :=
  fun a h₁ h₂ => h a (hlo.trans h₁) (h₂.trans_le hhi)

/-- A word inside a region of agreement. -/
theorem SameOn.read32 (h : SameOn m m' lo hi) (hlo : lo ≤ a) (hhi : a + 4 ≤ hi) :
    read32 m' a = read32 m a := by
  unfold ByteMem.read32
  rw [h a hlo (by omega), h (a + 1) (by omega) (by omega), h (a + 2) (by omega) (by omega),
    h (a + 3) (by omega) (by omega)]

theorem sameOn_write32 (m : Mem) (v : ℕ) (h : hi ≤ a ∨ a + 4 ≤ lo) :
    SameOn m (write32 m a v) lo hi :=
  fun _ hlo hhi => write32_of_outside m v (by omega)

theorem sameOn_copy (m : Mem) {dst src n : ℕ} (h : hi ≤ dst ∨ dst + n ≤ lo) :
    SameOn m (copy m dst src n) lo hi := by
  intro a hlo hhi
  unfold copy
  rw [if_neg (by omega)]

theorem sameOn_fill (m : Mem) {v : BitVec 8} {n : ℕ} (h : hi ≤ a ∨ a + n ≤ lo) :
    SameOn m (fill m a v n) lo hi := by
  intro x hlo hhi
  unfold fill
  rw [if_neg (by omega)]

end ByteMem
