import Lua2wasm.Utf8.Library
import Lua2wasm.Utf8.Correct

/-!
# Strings of codes

A string that the decoder takes is one code after another (`text`). The functions of the library go over it by
decoding or by skipping continuation bytes, forward or backward; at the start of a code all of these ways lead to
the start of the next code or of the one before.

The lemmas are about a string `text (as ++ bs)` at the position `(text as).length` between the codes that it has been
over and those that are to come.
-/

namespace Lua2wasm.Utf8

open Utf8Form
open Table (Fault orTrap)
open Pack (ok_bind)

/-- A code that the decoder takes in a mode: a value and the number of bytes of its form, which the decoder does
not require to be the shortest. -/
structure Code (lax : Bool) where
  /-- The number of bytes. -/
  width : ℕ
  /-- The code point. -/
  value : ℕ
  /-- The value fits. -/
  fits : Fits width value
  /-- The lead bytes of longer forms are known in lax mode only. -/
  known : lax = true ∨ width ≤ 4
  /-- The mode allows the value. -/
  legal : Legal lax value

/-- The bytes of a code. -/
def Code.bytes {lax : Bool} (c : Code lax) : List UInt8 := form c.width c.value

/-- The code is one in strict mode, too. -/
def Code.Strict {lax : Bool} (c : Code lax) : Prop := c.width ≤ 4 ∧ Legal false c.value

/-- The bytes of codes that follow each other. -/
def text {lax : Bool} (cs : List (Code lax)) : List UInt8 := cs.flatMap Code.bytes

variable {lax : Bool} {as bs cs : List (Code lax)} {c : Code lax} {b : UInt8} {bytes : List UInt8} {i n p : ℕ}

/-! ## Bytes -/

@[simp] theorem text_nil : text ([] : List (Code lax)) = [] := rfl

@[simp] theorem text_cons : text (c :: cs) = c.bytes ++ text cs := List.flatMap_cons

@[simp] theorem text_append : text (as ++ bs) = text as ++ text bs := List.flatMap_append

@[simp] theorem length_bytes : c.bytes.length = c.width := length_form c.fits.1

theorem Code.width_pos (c : Code lax) : 1 ≤ c.width := c.fits.1

/-- The shortest form of a value that the mode allows is a code. -/
theorem code_of_shortest {v : ℕ} (hl : Legal lax v) (hs : Shortest v bytes) :
    ∃ c : Code lax, c.value = v ∧ c.bytes = bytes := by
  have hcoded : Coded bytes 0 lax bytes.length v := coded_of_shortest hl hs (List.append_nil bytes).symm
  obtain ⟨w, hfit, -, rfl⟩ := hs
  exact ⟨⟨w, v, hfit, by rw [← length_form hfit.1 (v := v)]; exact hcoded.known, hl⟩, rfl, rfl⟩

/-- A code is where it has been put. -/
theorem coded_at (c : Code lax) (as bs : List (Code lax)) :
    Coded (text (as ++ c :: bs)) (text as).length lax c.width c.value := by
  refine ⟨c.fits, c.known, text bs, ?_⟩
  rw [text_append, text_cons, List.drop_left]
  rfl

theorem decode_at (c : Code lax) (as bs : List (Code lax)) :
    utf8DecodeStep (text (as ++ c :: bs)) (text as).length lax = some c.width :=
  (decodeStep_of_coded (coded_at c as bs)).1 c.legal

theorem assemble_at (c : Code lax) (as bs : List (Code lax)) :
    utf8Assemble (text (as ++ c :: bs)) (text as).length c.width = some (UInt32.ofNat c.value) :=
  (assemble_of_coded (coded_at c as bs)).1

/-- What decoding in strict mode makes of a code. -/
theorem decode_strict_at (c : Code lax) (as bs : List (Code lax)) :
    (c.Strict → utf8DecodeStep (text (as ++ c :: bs)) (text as).length false = some c.width) ∧
      (¬ c.Strict → utf8DecodeStep (text (as ++ c :: bs)) (text as).length false = some 0) := by
  obtain ⟨rest, hrest⟩ := (coded_at c as bs).here
  by_cases hw : c.width ≤ 4
  · have hcoded : Coded (text (as ++ c :: bs)) (text as).length false c.width c.value :=
      ⟨c.fits, Or.inr hw, rest, hrest⟩
    constructor
    · rintro ⟨-, hlegal⟩
      exact (decodeStep_of_coded hcoded).1 hlegal
    · intro hno
      exact (decodeStep_of_coded hcoded).2 fun hlegal => hno ⟨hw, hlegal⟩
  · refine ⟨fun h => absurd h.1 hw, fun _ => decodeStep_of_not_coded ?_⟩
    -- a form that strict mode knows would be the same one
    intro w v hcoded
    obtain ⟨rfl, -⟩ := hcoded.unique c.fits hrest
    exact hw (hcoded.known.resolve_left Bool.false_ne_true)

theorem utf8Iscont_iff : utf8Iscont b = true ↔ IsCont b := by
  have hbits : utf8Iscont b = decide (128 ≤ b.toNat ∧ b.toNat < 192) := by
    revert b
    set_option maxRecDepth 20000 in
    decide
  unfold IsCont
  rw [hbits, decide_eq_true_eq]

/-- A lead byte is no continuation byte, and if it is an ASCII character it is all of its code. -/
theorem lead_facts (c : Code lax) :
    ∃ b, c.bytes = b :: tail (c.width - 1) c.value ∧ ¬ IsCont b ∧ (b.toNat < 128 → c.width = 1) := by
  obtain ⟨b, hform, hval, hlt⟩ := lead_cases c.fits
  refine ⟨b, hform, ?_⟩
  obtain ⟨h1, h6, -⟩ := c.fits
  generalize c.width = w at *
  unfold IsCont
  unfold marker at hval hlt
  interval_cases w <;> simp at hval hlt <;> omega

/-- The first byte of a code. -/
theorem read_lead {rest : List UInt8} (h : c.bytes = b :: rest) :
    (text (as ++ c :: bs))[(text as).length]? = some b := by
  rw [text_append, text_cons, h, List.getElem?_append_right (le_refl _), Nat.sub_self]
  rfl

theorem contAt_lead (c : Code lax) (as bs : List (Code lax)) :
    contAt (text (as ++ c :: bs)) (text as).length = .ok false := by
  obtain ⟨b, hform, hb, -⟩ := lead_facts c
  have hfalse : utf8Iscont b = false := by
    rw [← Bool.not_eq_true, utf8Iscont_iff]
    exact hb
  unfold contAt
  rw [read_lead hform]
  exact congrArg Except.ok hfalse

/-- The other bytes of a code. -/
theorem contAt_inner (c : Code lax) (as bs : List (Code lax)) (h1 : 1 ≤ i) (hi : i < c.width) :
    contAt (text (as ++ c :: bs)) ((text as).length + i) = .ok true := by
  obtain ⟨b, hform, -, -⟩ := lead_facts c
  have hlen := length_tail (c.width - 1) c.value
  have hread : (text (as ++ c :: bs))[(text as).length + i]? = (tail (c.width - 1) c.value)[i - 1]? := by
    rw [text_append, text_cons, List.getElem?_append_right (by omega), Nat.add_sub_cancel_left,
      List.getElem?_append_left (by rw [length_bytes]; exact hi), hform]
    obtain ⟨k, rfl⟩ : ∃ k, i = k + 1 := ⟨i - 1, by omega⟩
    rw [List.getElem?_cons_succ, Nat.add_sub_cancel]
  have hlt : i - 1 < (tail (c.width - 1) c.value).length := by omega
  have hcont := isCont_of_mem_tail (List.getElem_mem hlt)
  unfold contAt
  rw [hread, List.getElem?_eq_getElem hlt]
  exact congrArg Except.ok (utf8Iscont_iff.mpr hcont)

/-- The end of the string is after its bytes. -/
theorem length_lt (c : Code lax) (as bs : List (Code lax)) :
    (text as).length + c.width ≤ (text (as ++ c :: bs)).length := by
  rw [text_append, text_cons, List.length_append, List.length_append, length_bytes]
  omega

theorem length_snoc (c : Code lax) (as : List (Code lax)) :
    (text (as ++ [c])).length = (text as).length + c.width := by
  rw [text_append, text_cons, List.length_append, List.length_append, length_bytes]
  rfl

/-! ## Steps over one code -/

/-- At the start of a code there is nothing to skip. -/
theorem skipForward_start (as bs : List (Code lax)) :
    skipForward (text (as ++ bs)) (text as).length = .ok (text as).length := by
  unfold skipForward
  cases bs with
  | nil =>
    rw [List.append_nil, dif_pos (le_refl _)]
    rfl
  | cons c bs =>
    have hlen := length_lt c as bs
    have hw := c.width_pos
    rw [dif_neg (by omega), contAt_lead]
    rfl

/-- Inside a code, what is left of it is skipped. -/
theorem skipForward_inner (c : Code lax) (as bs : List (Code lax)) (h1 : 1 ≤ i) (hi : i ≤ c.width) :
    skipForward (text (as ++ c :: bs)) ((text as).length + i) = .ok (text (as ++ [c])).length := by
  obtain ⟨todo, htodo⟩ : ∃ todo, c.width = i + todo := ⟨c.width - i, by omega⟩
  induction todo generalizing i with
  | zero =>
    have hend : (text as).length + i = (text (as ++ [c])).length := by
      rw [length_snoc]
      omega
    rw [hend, List.append_cons]
    exact skipForward_start (as ++ [c]) bs
  | succ todo ih =>
    have hlen := length_lt c as bs
    unfold skipForward
    rw [dif_neg (by omega), contAt_inner c as bs h1 (by omega)]
    exact ih (i := i + 1) (by omega) (by omega) (by omega)

/-- The last byte of a code. -/
theorem lastFrom_inner (c : Code lax) (as bs : List (Code lax)) (hi : i < c.width) :
    lastFrom (text (as ++ c :: bs)) ((text as).length + i) = .ok ((text as).length + c.width - 1) := by
  have hlen := length_lt c as bs
  obtain ⟨todo, htodo⟩ : ∃ todo, c.width = i + 1 + todo := ⟨c.width - (i + 1), by omega⟩
  induction todo generalizing i with
  | zero =>
    have hlast : (text as).length + i = (text as).length + c.width - 1 := by omega
    unfold lastFrom
    cases bs with
    | nil =>
      have hend : (text (as ++ [c])).length = (text as).length + i + 1 := by
        rw [length_snoc]
        omega
      rw [dif_pos (by omega), hlast]
      rfl
    | cons d bs =>
      have hnext : (text as).length + i + 1 = (text (as ++ [c])).length := by
        rw [length_snoc]
        omega
      have hlen' := length_lt d (as ++ [c]) bs
      have hw := d.width_pos
      rw [← List.append_cons] at hlen'
      rw [dif_neg (by omega), hnext, List.append_cons, contAt_lead, hlast]
      rfl
  | succ todo ih =>
    unfold lastFrom
    rw [dif_neg (by omega), Nat.add_assoc, contAt_inner c as bs (by omega) (by omega)]
    exact ih (i := i + 1) (by omega) (by omega)

/-- On the way back from inside a code, its start is found. -/
theorem skipBack_inner (c : Code lax) (as bs : List (Code lax)) (hi : i < c.width) :
    skipBack (text (as ++ c :: bs)) ((text as).length + i) = .ok (text as).length := by
  induction i with
  | zero =>
    have hlead := contAt_lead c as bs
    generalize (text as).length = p at *
    cases p with
    | zero => rfl
    | succ p =>
      unfold skipBack
      rw [Nat.add_zero, hlead]
      rfl
  | succ i ih =>
    have hcont := contAt_inner c as bs (Nat.le_add_left 1 i) hi
    rw [← Nat.add_assoc] at hcont ⊢
    unfold skipBack
    rw [hcont]
    exact ih (by omega)

/-- The start of a code is where it is. -/
theorem walkBack_start (as bs : List (Code lax)) :
    walkBack (text (as ++ bs)) (text as).length = .ok (text as).length := by
  cases bs with
  | nil =>
    rw [List.append_nil]
    cases hp : (text as).length with
    | zero => rfl
    | succ p =>
      unfold walkBack
      rw [hp, if_pos (le_refl _)]
      rfl
  | cons c bs =>
    have hlead := contAt_lead c as bs
    have hlen := length_lt c as bs
    have hw := c.width_pos
    generalize (text as).length = p at *
    cases p with
    | zero => rfl
    | succ p =>
      unfold walkBack
      rw [if_neg (by omega), hlead]
      rfl

/-! ## Steps over several codes -/

/-- Forward over `n` codes, or to the end. -/
theorem moveForward_spec (as bs : List (Code lax)) (n : ℕ) :
    moveForward (text (as ++ bs)) n (text as).length =
      .ok (n - bs.length, (text (as ++ bs.take n)).length) := by
  induction n generalizing as bs with
  | zero =>
    unfold moveForward
    rw [Nat.zero_sub, List.take_zero, List.append_nil]
    rfl
  | succ n ih =>
    unfold moveForward
    cases bs with
    | nil =>
      rw [List.append_nil, if_pos (le_refl _), List.take_nil, List.append_nil]
      rfl
    | cons c bs =>
      have hlen := length_lt c as bs
      have hw := c.width_pos
      rw [if_neg (by omega), skipForward_inner c as bs (le_refl 1) hw]
      have hrest := ih (as ++ [c]) bs
      rw [← List.append_cons, ← List.append_cons] at hrest
      rw [List.length_cons, Nat.add_sub_add_right, List.take_succ_cons, ← hrest]
      rfl

/-- Back over `n` codes, or to the start. -/
theorem moveBack_spec (as bs : List (Code lax)) (n : ℕ) :
    moveBack (text (as ++ bs)) n (text as).length =
      .ok (n - as.length, (text (as.take (as.length - n))).length) := by
  induction n generalizing as bs with
  | zero =>
    unfold moveBack
    rw [Nat.zero_sub, Nat.sub_zero, List.take_length]
    rfl
  | succ n ih =>
    rcases List.eq_nil_or_concat as with rfl | ⟨front, c, rfl⟩
    · simp [moveBack, pure, Except.pure]
    · have hw := c.width_pos
      have hpos : (text (front ++ [c])).length = (text front).length + (c.width - 1) + 1 := by
        rw [length_snoc]
        omega
      have hback := skipBack_inner c front bs (i := c.width - 1) (by omega)
      rw [List.append_cons] at hback
      have hrest := ih front (c :: bs)
      rw [List.append_cons] at hrest
      rw [List.concat_eq_append, hpos]
      unfold moveBack
      rw [hback]
      have hcount : (front ++ [c]).length = front.length + 1 := List.length_append
      rw [hcount, Nat.add_sub_add_right, Nat.add_sub_add_right, List.take_append_of_le_length (by omega), ← hrest]
      rfl

/-- The result for a position between codes. -/
theorem offsetResult_spec (as bs : List (Code lax)) :
    utf8OffsetResult (text (as ++ bs)) (text as).length =
      .ok ((text as).length + 1, (text as).length + (bs.head?.map Code.width).getD 1) := by
  unfold utf8OffsetResult offsetLast
  cases bs with
  | nil =>
    rw [List.append_nil, if_neg (lt_irrefl _)]
    rfl
  | cons c bs =>
    have hlen := length_lt c as bs
    have hw := c.width_pos
    have hlast := lastFrom_inner c as bs (i := 0) hw
    obtain ⟨b, hform, hb, hascii⟩ := lead_facts c
    have hread : (text (as ++ c :: bs))[(text as).length]? = some b := read_lead hform
    have hfalse : ¬ utf8Iscont b = true := by
      rw [utf8Iscont_iff]
      exact hb
    rw [Nat.add_zero] at hlast
    rw [if_pos (by omega), hread, List.head?_cons, Option.map_some, Option.getD_some]
    by_cases hhigh : 0x80 ≤ b
    · have hend : (text as).length + c.width - 1 + 1 = (text as).length + c.width := by omega
      rw [← hend]
      simp only [orTrap, ok_bind]
      rw [if_pos hhigh, if_neg hfalse, hlast]
      rfl
    · have hone : c.width = 1 := hascii (lt_iff_ascii.mp (UInt8.not_le.mp hhigh))
      simp only [orTrap, ok_bind]
      rw [if_neg hhigh, hone]
      rfl

end Lua2wasm.Utf8
