import Mathlib

/-!
# LEB128

Numbers as groups of seven bits, the lowest first; all bytes of a number but the last have their high bit set. The
readers take a number off the front of the bytes and give the rest. They also accept numbers with needless groups at the
end, which the encodings do not have (`uleb_minimal`, `sleb_minimal`).
-/

namespace Leb128

/-- The bytes of a natural number. -/
def uleb (v : ℕ) : List UInt8 :=
  if v / 128 = 0 then [UInt8.ofNat (v % 128)] else UInt8.ofNat (v % 128 + 128) :: uleb (v / 128)
termination_by v

/-- The bytes of an integer, in two's complement. -/
def sleb (v : ℤ) : List UInt8 :=
  if v / 128 = 0 ∧ v % 128 < 64 ∨ v / 128 = -1 ∧ 64 ≤ v % 128 then [UInt8.ofNat (v % 128).toNat]
  else UInt8.ofNat ((v % 128).toNat + 128) :: sleb (v / 128)
termination_by v.natAbs

/-- The natural number at the front of the bytes. -/
def readUleb : List UInt8 → Option (ℕ × List UInt8)
  | [] => none
  | b :: bs =>
    if b.toNat < 128 then some (b.toNat, bs)
    else do
      let (v, rest) ← readUleb bs
      some (b.toNat - 128 + 128 * v, rest)

/-- The integer at the front of the bytes: the second highest bit of its last byte is its sign. -/
def readSleb : List UInt8 → Option (ℤ × List UInt8)
  | [] => none
  | b :: bs =>
    if b.toNat < 64 then some (b.toNat, bs)
    else if b.toNat < 128 then some (b.toNat - 128, bs)
    else do
      let (v, rest) ← readSleb bs
      some (b.toNat - 128 + 128 * v, rest)

/-- The bytes of the number at the front, whatever its sign. -/
def readGroup : List UInt8 → Option (List UInt8 × List UInt8)
  | [] => none
  | b :: bs =>
    if b.toNat < 128 then some ([b], bs)
    else do
      let (g, rest) ← readGroup bs
      some (b :: g, rest)

/-- The bytes are read as `a`, whatever follows them, and nothing shorter is. -/
structure Encodes {α : Type} (read : List UInt8 → Option (α × List UInt8)) (a : α) (code : List UInt8) : Prop where
  /-- They are read back. -/
  reads : ∀ rest, read (code ++ rest) = some (a, rest)
  /-- What is read as the same is at least as long. -/
  minimal : ∀ other rest, read other = some (a, rest) → code.length + rest.length ≤ other.length

variable {n v : ℕ} {rest : List UInt8}

theorem toNat_low (h : n < 128) : (UInt8.ofNat n).toNat = n := by
  rw [UInt8.toNat_ofNat']
  omega

theorem toNat_high (h : n < 128) : (UInt8.ofNat (n + 128)).toNat = n + 128 := by
  rw [UInt8.toNat_ofNat']
  omega

/-- A natural number is read back. -/
theorem readUleb_uleb (v : ℕ) (rest : List UInt8) : readUleb (uleb v ++ rest) = some (v, rest) := by
  induction v using uleb.induct with
  | case1 v h =>
    have hlow := toNat_low (n := v % 128) (by omega)
    unfold uleb
    rw [if_pos h, List.singleton_append]
    unfold readUleb
    rw [hlow, if_pos (by omega)]
    have hval : v % 128 = v := by omega
    rw [hval]
  | case2 v h ih =>
    have hhigh := toNat_high (n := v % 128) (by omega)
    unfold uleb
    rw [if_neg h, List.cons_append]
    unfold readUleb
    rw [hhigh, if_neg (by omega), ih]
    have hval : v % 128 + 128 - 128 + 128 * (v / 128) = v := by omega
    simp only [Option.bind_eq_bind, Option.bind_some, hval]

/-- No other bytes of the number are fewer. -/
theorem uleb_minimal {bytes : List UInt8} (h : readUleb bytes = some (v, rest)) :
    (uleb v).length + rest.length ≤ bytes.length := by
  induction bytes generalizing v with
  | nil => cases h
  | cons b bs ih =>
    unfold readUleb at h
    split_ifs at h with hlast
    · -- a last byte is the whole number
      obtain ⟨rfl, rfl⟩ := Prod.mk.inj (Option.some.inj h)
      unfold uleb
      rw [if_pos (by omega)]
      simp [Nat.add_comm]
    · obtain ⟨⟨w, rest'⟩, hrest, heq⟩ := Option.bind_eq_some_iff.mp h
      obtain ⟨hv, rfl⟩ := Prod.mk.inj (Option.some.inj heq)
      have hle := ih hrest
      have hb := b.toNat_lt
      unfold uleb
      split_ifs
      · have hpos : 0 < (uleb w).length := by
          unfold uleb
          split_ifs <;> simp
        simp only [List.length_cons, List.length_nil]
        omega
      · rw [show v / 128 = w by omega, List.length_cons, List.length_cons]
        omega

theorem readSleb_sleb (v : ℤ) (rest : List UInt8) : readSleb (sleb v ++ rest) = some (v, rest) := by
  induction v using sleb.induct with
  | case1 v h =>
    have hlow := toNat_low (n := (v % 128).toNat) (by omega)
    unfold sleb
    rw [if_pos h, List.singleton_append]
    unfold readSleb
    rw [hlow]
    split_ifs <;> simp only [Option.some_inj, Prod.mk.injEq, and_true] <;> omega
  | case2 v h ih =>
    have hhigh := toNat_high (n := (v % 128).toNat) (by omega)
    unfold sleb
    rw [if_neg h, List.cons_append]
    unfold readSleb
    rw [hhigh, if_neg (by omega), if_neg (by omega), ih]
    simp only [Option.bind_eq_bind, Option.bind_some, Option.some_inj, Prod.mk.injEq, and_true]
    omega

theorem sleb_minimal {z : ℤ} {bytes : List UInt8} (h : readSleb bytes = some (z, rest)) :
    (sleb z).length + rest.length ≤ bytes.length := by
  induction bytes generalizing z with
  | nil => cases h
  | cons b bs ih =>
    unfold readSleb at h
    split_ifs at h with hpos hneg
    · obtain ⟨rfl, rfl⟩ := Prod.mk.inj (Option.some.inj h)
      unfold sleb
      rw [if_pos (by omega)]
      simp [Nat.add_comm]
    · obtain ⟨rfl, rfl⟩ := Prod.mk.inj (Option.some.inj h)
      unfold sleb
      rw [if_pos (by omega)]
      simp [Nat.add_comm]
    · obtain ⟨⟨w, rest'⟩, hrest, heq⟩ := Option.bind_eq_some_iff.mp h
      obtain ⟨hz, rfl⟩ := Prod.mk.inj (Option.some.inj heq)
      have hle := ih hrest
      have hb := b.toNat_lt
      unfold sleb
      split_ifs
      · have hpos : 0 < (sleb w).length := by
          unfold sleb
          split_ifs <;> simp
        simp only [List.length_cons, List.length_nil]
        omega
      · rw [show z / 128 = w by omega, List.length_cons, List.length_cons]
        omega

theorem uleb_encodes (v : ℕ) : Encodes readUleb v (uleb v) := ⟨readUleb_uleb v, fun _ _ => uleb_minimal⟩

theorem sleb_encodes (z : ℤ) : Encodes readSleb z (sleb z) := ⟨readSleb_sleb z, fun _ _ => sleb_minimal⟩

/-- The bytes of an integer are told from what follows them. -/
theorem readGroup_sleb (v : ℤ) (rest : List UInt8) : readGroup (sleb v ++ rest) = some (sleb v, rest) := by
  induction v using sleb.induct with
  | case1 v h =>
    have hlow := toNat_low (n := (v % 128).toNat) (by omega)
    unfold sleb
    rw [if_pos h, List.singleton_append]
    unfold readGroup
    rw [hlow, if_pos (by omega)]
  | case2 v h ih =>
    have hhigh := toNat_high (n := (v % 128).toNat) (by omega)
    unfold sleb
    rw [if_neg h, List.cons_append]
    unfold readGroup
    rw [hhigh, if_neg (by omega), ih]
    rfl

end Leb128
