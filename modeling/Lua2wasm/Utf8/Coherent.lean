import Lua2wasm.Utf8.Segments
import Lua2wasm.Utf8.Bounded

/-!
# One segmentation

`utf8.len`, `utf8.codepoint`, `utf8.codes` and `utf8.offset` agree on where the codes of a string are (`Coherent`), if
all of them are codes in strict mode (`utf8_coherent_iff`). `utf8.codes` decodes in strict mode whatever it is given,
so that it raises on the other codes of lax mode, which the others count.
-/

namespace Lua2wasm.Utf8

open Table (Fault orTrap)
open Pack (ok_bind s32)
open Strings (wrap optInt toInt_ofNat_len toInt_sub_of_bounds toInt_add_of_bounds wrap_of_bounds)

/-- A string of codes. The valid strings are those of which all codes have their shortest form
(`code_of_shortest`). -/
structure CodeString (lax : Bool) where
  /-- The codes. -/
  codes : List (Code lax)
  /-- The bytes fit an array. -/
  short : (text codes).length < 2^31

/-- The bytes of the string. -/
def CodeString.bytes {lax : Bool} (s : CodeString lax) : List UInt8 := text s.codes

/-- Where the code with the index `k` starts, or the end of the string. -/
def start {lax : Bool} (cs : List (Code lax)) (k : ℕ) : ℕ := (text (cs.take k)).length

/-- The first and the last byte of the code with the index `k`, counted from 1; at the end of the string, the
position after it. There is none outside. -/
def place {lax : Bool} (cs : List (Code lax)) (k : ℤ) : Option (ℕ × ℕ) :=
  if 0 ≤ k ∧ k ≤ cs.length then
    some (start cs k.toNat + 1, start cs k.toNat + (cs[k.toNat]?.map Code.width).getD 1)
  else none

/-- The index of the code that the offset `n` leads to from the code with the index `i`. -/
def target (i : ℕ) (n : ℤ) : ℤ := if 0 < n then i + (n - 1) else i + n

/-- The steps of a loop over codes that start at `p`. -/
def steps {lax : Bool} (p : ℕ) : List (Code lax) → List (ℕ × UInt32)
  | [] => []
  | c :: cs => (p + 1, UInt32.ofNat c.value) :: steps (p + c.width) cs

/-- What is wanted of the library on a string. -/
structure Coherent {lax : Bool} (s : CodeString lax) : Prop where
  /-- `utf8.len` counts the codes. -/
  len : utf8Len s.bytes (some 1) (some (-1)) lax = .ok (.count s.codes.length)
  /-- `utf8.codepoint` gives the values of the codes. -/
  codepoint : utf8Codepoint s.bytes (some 1) (some (-1)) lax = .ok (s.codes.map fun c => UInt32.ofNat c.value)
  /-- `utf8.codes` takes one step for each code, to where it starts. -/
  codes : ∃ steps, utf8Codes s.bytes lax = .ok steps ∧ steps.length = s.codes.length ∧
    ∀ k c, s.codes[k]? = some c → steps[k]? = some (start s.codes k + 1, UInt32.ofNat c.value)
  /-- `utf8.offset` gives the place of the code that is counted from the start or from the end. -/
  offset : ∀ n : Int64, utf8Offset s.bytes n none =
    .ok (place s.codes (target (if 0 ≤ n.toInt then 0 else s.codes.length) n.toInt))
  /-- `n` codes forward and `n` codes back. -/
  back : ∀ i n, i + n ≤ s.codes.length →
    utf8Offset s.bytes (Int64.ofNat (n + 1)) (some (Int64.ofNat (start s.codes i + 1))) =
        .ok (place s.codes (i + n : ℕ)) ∧
      utf8Offset s.bytes (-Int64.ofNat n) (some (Int64.ofNat (start s.codes (i + n) + 1))) = .ok (place s.codes i)

variable {lax : Bool} {as bs cs : List (Code lax)} {c : Code lax} {i j k n p fuel count : ℕ} {ctrl pos : Int64}

/-! ## Counting -/

theorem lenFrom_spec (as bs : List (Code lax)) (count : ℕ) :
    lenFrom (text (as ++ bs)) lax ((text (as ++ bs)).length - 1) (text as).length count =
      .ok (.count (count + bs.length)) := by
  induction bs generalizing as count with
  | nil =>
    unfold lenFrom
    rw [List.append_nil, dif_pos (by omega)]
    rfl
  | cons c bs ih =>
    have hlen := length_lt c as bs
    have hw := c.width_pos
    have hrest := ih (as ++ [c]) (count + 1)
    rw [← List.append_cons, length_snoc] at hrest
    unfold lenFrom
    rw [dif_neg (by omega), decode_at]
    simp only [orTrap, ok_bind]
    rw [dif_neg (by omega), hrest, List.length_cons]
    congr 2
    omega

theorem countFrom_spec (as bs : List (Code lax)) (count : ℕ) :
    countFrom (text (as ++ bs)) lax (text (as ++ bs)).length (text as).length count = .ok (count + bs.length) := by
  induction bs generalizing as count with
  | nil =>
    unfold countFrom
    rw [List.append_nil, dif_pos (by omega)]
    rfl
  | cons c bs ih =>
    have hlen := length_lt c as bs
    have hw := c.width_pos
    have hrest := ih (as ++ [c]) (count + 1)
    rw [← List.append_cons, length_snoc] at hrest
    unfold countFrom
    rw [dif_neg (by omega), decode_at]
    simp only [orTrap, ok_bind]
    rw [dif_neg (by omega), hrest, List.length_cons]
    congr 1
    omega

theorem assembleCodes_spec (as bs : List (Code lax)) :
    assembleCodes (text (as ++ bs)) lax bs.length (text as).length =
      .ok (bs.map fun c => UInt32.ofNat c.value) := by
  induction bs generalizing as with
  | nil => rfl
  | cons c bs ih =>
    have hrest := ih (as ++ [c])
    rw [← List.append_cons, length_snoc] at hrest
    rw [List.length_cons]
    unfold assembleCodes
    rw [decode_at]
    simp only [orTrap, ok_bind, assemble_at]
    rw [hrest]
    rfl

/-- The last position of the string. -/
theorem uPosrelat_last {len : ℕ} (hlen : len < 2^31) : (uPosrelat (-1) len).toInt = len := by
  have hone : (-1 : Int64).toInt = -1 := rfl
  rw [uPosrelat_toInt hlen, hone, if_neg (by omega)]
  split <;> omega

theorem uPosrelat_first {len : ℕ} (hlen : len < 2^31) : (uPosrelat 1 len).toInt = 1 := by
  have hone : (1 : Int64).toInt = 1 := rfl
  rw [uPosrelat_toInt hlen, hone, if_pos (by omega)]

/-- A 32-bit number is what it has been truncated from, if that fits. -/
theorem s32_wrap {v : Int64} (hlo : -2^31 ≤ v.toInt) (hhi : v.toInt < 2^31) : s32 (wrap v) = v.toInt := by
  have hcond : v.toInt =
      if 2 * v.toUInt64.toNat < 2^64 then (v.toUInt64.toNat : ℤ) else v.toUInt64.toNat - (2^64 : ℕ) :=
    BitVec.toInt_eq_toNat_cond v.toBitVec
  unfold wrap Pack.s32 Pack.u32
  split_ifs at hcond <;> split_ifs <;> omega

theorem utf8Len_spec (s : CodeString lax) :
    utf8Len s.bytes (some 1) (some (-1)) lax = .ok (.count s.codes.length) := by
  have hshort : s.bytes.length < 2^31 := s.short
  have hlast := uPosrelat_last hshort
  have hfirst := uPosrelat_first hshort
  have hone : (1 : Int64).toInt = 1 := rfl
  have hl := toInt_ofNat_len hshort
  have hindex := (@index_of_pos (uPosrelat 1 s.bytes.length) (by omega) (by omega)).1
  have hzero : wrap (uPosrelat 1 s.bytes.length - 1) = 0 := by omega
  have hsub : (uPosrelat (-1) s.bytes.length - 1).toInt = s.bytes.length - 1 := by
    rw [toInt_sub_of_bounds (by omega) (by omega), hlast, hone]
  have hsub₁ : (uPosrelat 1 s.bytes.length - 1).toInt = 0 := by
    rw [toInt_sub_of_bounds (by omega) (by omega), hfirst, hone]
    rfl
  unfold utf8Len
  simp only [optInt, Option.getD_some, Int64.le_iff_toInt_le, Int64.lt_iff_toInt_lt, hfirst, hone, hsub, hsub₁, hl]
  rw [if_neg (by omega), if_neg (by omega), hzero, s32_wrap (by omega) (by omega), hsub]
  have hrun := lenFrom_spec [] s.codes 0
  rw [Nat.zero_add] at hrun
  exact hrun

theorem utf8Codepoint_spec (s : CodeString lax) :
    utf8Codepoint s.bytes (some 1) (some (-1)) lax = .ok (s.codes.map fun c => UInt32.ofNat c.value) := by
  have hshort : s.bytes.length < 2^31 := s.short
  have hlast := uPosrelat_last hshort
  have hfirst := uPosrelat_first hshort
  have hone : (1 : Int64).toInt = 1 := rfl
  have hl := toInt_ofNat_len hshort
  have hi := (@index_of_pos (uPosrelat 1 s.bytes.length) (by omega) (by omega)).2
  unfold utf8Codepoint
  simp only [optInt, Option.getD_some, Option.elim_some, Int64.lt_iff_toInt_lt, hfirst, hone, hlast, hl]
  rw [if_neg (by omega), if_neg (by omega)]
  by_cases hempty : (s.bytes.length : ℤ) < 1
  · rw [if_pos hempty]
    have hnil : s.codes = [] := by
      cases hcs : s.codes with
      | nil => rfl
      | cons c cs =>
        have hlen := length_lt c [] cs
        have hw := c.width_pos
        unfold CodeString.bytes at hempty
        rw [hcs] at hempty
        rw [List.nil_append] at hlen
        omega
    rw [hnil]
    rfl
  · have hj := (@index_of_pos (uPosrelat (-1) s.bytes.length) (by omega) (by omega)).2
    have hjlen : wrap (uPosrelat (-1) s.bytes.length) = s.bytes.length := by omega
    have hizero : wrap (uPosrelat 1 s.bytes.length) - 1 = 0 := by omega
    have hcount := countFrom_spec [] s.codes 0
    rw [Nat.zero_add] at hcount
    rw [if_neg hempty, hjlen, hizero]
    exact (congrArg (· >>= _) hcount).trans (assembleCodes_spec [] s.codes)

/-! ## The iterator -/

theorem contIfInside_start (as bs : List (Code lax)) :
    contIfInside (text (as ++ bs)) (text as).length = .ok false := by
  unfold contIfInside
  cases bs with
  | nil =>
    rw [List.append_nil, if_neg (lt_irrefl _)]
    rfl
  | cons c bs =>
    split
    · exact contAt_lead c as bs
    · rfl

/-- What a step of the iterator makes of the codes to come. -/
def nextStep (p : ℕ) : List (Code lax) → Option (ℕ × UInt32)
  | [] => none
  | c :: _ => some (p + 1, UInt32.ofNat c.value)

/-- A step of the iterator from where skipping leads to the start of a code. -/
theorem codesIter_spec (hlo : 0 ≤ ctrl.toInt) (hhi : ctrl.toInt < 2^31) (hshort : (text (as ++ bs)).length < 2^31)
    (hskip : skipForward (text (as ++ bs)) (wrap ctrl) = .ok (text as).length) :
    ((∀ c ∈ bs.head?, c.Strict) → utf8CodesIter (text (as ++ bs)) ctrl = .ok (nextStep (text as).length bs)) ∧
      ((∃ c ∈ bs.head?, ¬ c.Strict) →
        utf8CodesIter (text (as ++ bs)) ctrl = .error (.raised "invalid UTF-8 code")) := by
  have hl := toInt_ofNat_len hshort
  have hzero : (0 : Int64).toInt = 0 := rfl
  have hwrap := wrap_of_bounds (v := ctrl) (by omega) (by omega)
  unfold utf8CodesIter
  simp only [Int64.lt_iff_toInt_lt, Int64.le_iff_toInt_le, hl, hzero]
  cases bs with
  | nil =>
    rw [List.append_nil] at *
    refine ⟨fun _ => ?_, fun ⟨c, hc, _⟩ => absurd hc (by simp)⟩
    split
    · rfl
    · rw [hskip, ok_bind, if_pos (le_refl _)]
      rfl
  | cons c bs =>
    have hlen := length_lt c as bs
    have hw := c.width_pos
    have hin : ¬ (ctrl.toInt < 0 ∨ ((text (as ++ c :: bs)).length : ℤ) ≤ ctrl.toInt) := by
      rintro (hneg | hend)
      · omega
      · -- nothing is skipped past the end
        unfold skipForward at hskip
        rw [dif_pos (by omega)] at hskip
        have heq : wrap ctrl = (text as).length := Except.ok.inj hskip
        omega
    have hnext := contIfInside_start (as ++ [c]) bs
    rw [← List.append_cons, length_snoc] at hnext
    obtain ⟨hstrict, hlax⟩ := decode_strict_at c as bs
    rw [if_neg hin, hskip, ok_bind, if_neg (by omega)]
    constructor
    · intro hc
      rw [hstrict (hc c rfl)]
      simp only [orTrap, ok_bind]
      rw [if_neg (by omega), hnext, assemble_at]
      rfl
    · rintro ⟨_, ⟨⟩, hc⟩
      rw [hlax hc]
      rfl

theorem length_le_text (cs : List (Code lax)) : cs.length ≤ (text cs).length := by
  induction cs with
  | nil => exact le_refl 0
  | cons c cs ih =>
    have hw := c.width_pos
    rw [text_cons, List.length_append, length_bytes, List.length_cons]
    omega

/-- The loop over the codes to come. -/
theorem codesFrom_spec (hlo : 0 ≤ ctrl.toInt) (hhi : ctrl.toInt < 2^31) (hshort : (text (as ++ bs)).length < 2^31)
    (hskip : skipForward (text (as ++ bs)) (wrap ctrl) = .ok (text as).length) (hfuel : bs.length < fuel) :
    ((∀ c ∈ bs, c.Strict) → codesFrom (text (as ++ bs)) fuel ctrl = .ok (steps (text as).length bs)) ∧
      ((∃ c ∈ bs, ¬ c.Strict) →
        codesFrom (text (as ++ bs)) fuel ctrl = .error (.raised "invalid UTF-8 code")) := by
  induction bs generalizing as fuel ctrl with
  | nil =>
    obtain ⟨fuel, rfl⟩ : ∃ k, fuel = k + 1 := ⟨fuel - 1, by omega⟩
    have hiter := (codesIter_spec hlo hhi hshort hskip).1 (by simp)
    refine ⟨fun _ => ?_, fun ⟨c, hc, _⟩ => absurd hc (by simp)⟩
    unfold codesFrom
    rw [hiter]
    rfl
  | cons c bs ih =>
    obtain ⟨fuel, rfl⟩ : ∃ k, fuel = k + 1 := ⟨fuel - 1, by omega⟩
    rw [List.length_cons] at hfuel
    obtain ⟨hstrict, hlax⟩ := codesIter_spec hlo hhi hshort hskip
    have hlen := length_lt c as bs
    have hw := c.width_pos
    have hval : (Int64.ofNat ((text as).length + 1)).toInt = ((text as).length + 1 : ℕ) :=
      toInt_ofNat_len (by omega)
    have hwrap := wrap_of_bounds (v := Int64.ofNat ((text as).length + 1)) (by omega) (by omega)
    have hinner : skipForward (text (as ++ c :: bs)) (wrap (Int64.ofNat ((text as).length + 1))) =
        .ok (text (as ++ [c])).length := by
      have heq : wrap (Int64.ofNat ((text as).length + 1)) = (text as).length + 1 := by omega
      rw [heq]
      exact skipForward_inner c as bs (le_refl 1) hw
    have hrest := @ih (as ++ [c]) fuel (Int64.ofNat ((text as).length + 1)) (by omega)
      (by omega) (by rw [← List.append_cons]; exact hshort) (by rw [← List.append_cons]; exact hinner) (by omega)
    rw [← List.append_cons, length_snoc] at hrest
    unfold codesFrom
    by_cases hc : c.Strict
    · rw [hstrict (by simpa using hc), ok_bind]
      simp only [nextStep]
      constructor
      · intro hall
        rw [hrest.1 fun d hd => hall d (List.mem_cons_of_mem c hd)]
        rfl
      · rintro ⟨d, hd, hno⟩
        rcases List.mem_cons.mp hd with rfl | hd
        · exact absurd hc hno
        · rw [hrest.2 ⟨d, hd, hno⟩]
          rfl
    · rw [hlax ⟨c, rfl, hc⟩]
      exact ⟨fun hall => absurd (hall c List.mem_cons_self) hc, fun _ => rfl⟩

/-- The loop over the whole string. -/
theorem utf8Codes_spec (s : CodeString lax) :
    ((∀ c ∈ s.codes, c.Strict) → utf8Codes s.bytes lax = .ok (steps 0 s.codes)) ∧
      ((∃ c ∈ s.codes, ¬ c.Strict) → utf8Codes s.bytes lax = .error (.raised "invalid UTF-8 code")) := by
  have hfirst : contIfInside s.bytes 0 = .ok false := contIfInside_start [] s.codes
  have hskip : skipForward (text ([] ++ s.codes)) (wrap 0) = .ok (text ([] : List (Code lax))).length :=
    skipForward_start [] s.codes
  have hfuel : s.codes.length < s.bytes.length + 1 := Nat.lt_succ_of_le (length_le_text s.codes)
  unfold utf8Codes
  rw [hfirst]
  exact @codesFrom_spec lax [] _ _ 0 (by decide) (by decide) s.short hskip hfuel

theorem length_steps (p : ℕ) (cs : List (Code lax)) : (steps p cs).length = cs.length := by
  induction cs generalizing p with
  | nil => rfl
  | cons c cs ih => exact congrArg Nat.succ (ih (p + c.width))

theorem getElem_steps (hk : cs[k]? = some c) :
    (steps p cs)[k]? = some (p + start cs k + 1, UInt32.ofNat c.value) := by
  induction cs generalizing p k with
  | nil => cases hk
  | cons d cs ih =>
    unfold start
    cases k with
    | zero =>
      obtain rfl : d = c := by simpa using hk
      rfl
    | succ k =>
      have hrest := ih (p := p + d.width) (k := k) (by simpa using hk)
      unfold start at hrest
      unfold steps
      rw [List.getElem?_cons_succ, hrest, List.take_succ_cons, text_cons, List.length_append, length_bytes,
        Nat.add_assoc p]

/-! ## Offsets -/

/-- The start of a code is inside the string. -/
theorem start_le (cs : List (Code lax)) (k : ℕ) : start cs k ≤ (text cs).length := by
  have hjoin : (text (cs.take k ++ cs.drop k)).length = (text cs).length := by rw [List.take_append_drop]
  rw [text_append, List.length_append] at hjoin
  exact Nat.le.intro hjoin

/-- The result for a place between codes. -/
theorem offsetResult_place (hk : k ≤ cs.length) :
    (do let r ← utf8OffsetResult (text cs) (start cs k); pure (some r)) = Except.ok (place cs k) := by
  have hsplit := offsetResult_spec (cs.take k) (cs.drop k)
  rw [List.take_append_drop, List.head?_drop] at hsplit
  unfold start place
  rw [hsplit, if_pos (by omega)]
  rfl

theorem place_of_not {m : ℤ} (h : ¬ (0 ≤ m ∧ m ≤ cs.length)) : place cs m = none := if_neg h

/-- The way from the start of a code: either all of it is gone, or it leads outside. -/
theorem moveBy_spec {n : Int64} (hi : i ≤ cs.length) (hn : n ≠ 0) : ∃ left k,
    moveBy (text cs) n (start cs i) = .ok (left, start cs k) ∧
      (left = 0 → k ≤ cs.length ∧ (k : ℤ) = target i n.toInt) ∧
      (left ≠ 0 → ¬ (0 ≤ target i n.toInt ∧ target i n.toInt ≤ cs.length)) := by
  have hzero : (0 : Int64).toInt = 0 := rfl
  have hone : (1 : Int64).toInt = 1 := rfl
  have hne : n.toInt ≠ 0 := fun h => hn (Int64.toInt_inj.mp h)
  have hmax := Int64.toInt_lt n
  have hlen : (cs.take i).length = i := List.length_take_of_le hi
  unfold moveBy target
  simp only [Int64.lt_iff_toInt_lt, hzero]
  by_cases hneg : n.toInt < 0
  · have hback := moveBack_spec (cs.take i) (cs.drop i) n.toInt.natAbs
    rw [List.take_append_drop, hlen, List.take_take, Nat.min_eq_left (Nat.sub_le i _)] at hback
    rw [if_pos hneg, if_neg (by omega)]
    refine ⟨_, _, hback, ?_, ?_⟩
    · omega
    · omega
  · have hsub : (n - 1).toInt = n.toInt - 1 := by
      rw [toInt_sub_of_bounds (by omega) (by omega), hone]
    have hforward := moveForward_spec (cs.take i) (cs.drop i) (n - 1).toInt.natAbs
    have hjoin : cs.take i ++ (cs.drop i).take (n - 1).toInt.natAbs = cs.take (i + (n - 1).toInt.natAbs) :=
      List.take_add.symm
    rw [List.take_append_drop, hjoin, List.length_drop] at hforward
    rw [if_neg hneg, if_pos (by omega)]
    refine ⟨_, _, hforward, ?_, ?_⟩
    · omega
    · omega

/-- `utf8.offset` from the start of a code, or from the end of the string. -/
theorem utf8Offset_from {pos : Option Int64} {n : Int64} (hi : i ≤ cs.length) (hshort : (text cs).length < 2^31)
    (hpos : (offsetStart (text cs).length n pos).toInt = start cs i + 1) :
    utf8Offset (text cs) n pos = .ok (place cs (target i n.toInt)) := by
  have hl := toInt_ofNat_len hshort
  have hone : (1 : Int64).toInt = 1 := rfl
  have hsplit : cs.take i ++ cs.drop i = cs := List.take_append_drop i cs
  have hin := start_le cs i
  have hp := (@index_of_pos (offsetStart (text cs).length n pos) (by omega) (by omega)).1
  have hindex : wrap (offsetStart (text cs).length n pos - 1) = start cs i := by omega
  have hsub : (offsetStart (text cs).length n pos - 1).toInt = start cs i := by
    rw [toInt_sub_of_bounds (by omega) (by omega), hpos, hone]
    omega
  have hfirst : contIfInside (text cs) (start cs i) = .ok false := by
    have h := contIfInside_start (cs.take i) (cs.drop i)
    rw [hsplit] at h
    exact h
  unfold utf8Offset
  simp only [Int64.le_iff_toInt_le, hpos, hone, hsub, hl, hindex]
  rw [if_neg (by omega)]
  by_cases hn : n = 0
  · have hwalk := walkBack_start (cs.take i) (cs.drop i)
    rw [hsplit] at hwalk
    have htarget : target i n.toInt = i := by
      rw [hn]
      exact add_zero (i : ℤ)
    rw [if_pos hn, htarget]
    unfold start at *
    rw [hwalk, ok_bind]
    exact offsetResult_place hi
  · obtain ⟨left, k, hmove, hdone, hout⟩ := moveBy_spec hi hn
    rw [if_neg hn, hfirst, ok_bind, if_neg Bool.false_ne_true, hmove, ok_bind]
    by_cases hleft : left = 0
    · obtain ⟨hk, hktarget⟩ := hdone hleft
      rw [if_neg (not_not.mpr hleft), ← hktarget]
      exact offsetResult_place hk
    · rw [if_pos hleft, place_of_not (hout hleft)]
      rfl

/-- A position at the start of a code means itself. -/
theorem offsetStart_some {len q : ℕ} {n : Int64} (hlen : len < 2^31) (hq : q ≤ 2^31) :
    (offsetStart len n (some (Int64.ofNat q))).toInt = q := by
  have hval : (Int64.ofNat q).toInt = q := Int64.toInt_ofNat_of_lt (by omega)
  unfold offsetStart
  rw [uPosrelat_toInt hlen, hval, if_pos (by omega)]

/-- The position where `utf8.offset` starts when it is given none. -/
theorem offsetStart_none {n : Int64} (hshort : (text cs).length < 2^31) :
    (offsetStart (text cs).length n none).toInt = start cs (if 0 ≤ n.toInt then 0 else cs.length) + 1 := by
  have hl := toInt_ofNat_len hshort
  have hone : (1 : Int64).toInt = 1 := rfl
  have hzero : (0 : Int64).toInt = 0 := rfl
  unfold offsetStart
  simp only [Int64.le_iff_toInt_le, hzero]
  by_cases hn : 0 ≤ n.toInt
  · rw [if_pos hn, if_pos hn, hone]
    rfl
  · have hend : start cs cs.length = (text cs).length := by
      unfold start
      rw [List.take_length]
    rw [if_neg hn, if_neg hn, toInt_add_of_bounds (by omega) (by omega), hl, hone, hend]

/-! ## Coherence -/

/-- On every string of bytes and for all positions the functions of the library return or raise an error, and the
`for` loop over `utf8.codes` comes to its end. On a string of codes they are coherent just if all codes are codes in
strict mode. -/
theorem utf8_coherent_iff (bytes : ByteString) {lax : Bool} (s : CodeString lax) :
    InBounds bytes ∧ (Coherent s ↔ ∀ c ∈ s.codes, c.Strict) := by
  refine ⟨utf8_inBounds bytes, ?_⟩
  obtain ⟨hstrict, hlax⟩ := utf8Codes_spec s
  constructor
  · intro h c hc
    by_contra hno
    obtain ⟨steps, hsteps, -⟩ := h.codes
    rw [hlax ⟨c, hc, hno⟩] at hsteps
    cases hsteps
  · intro hall
    have hshort := s.short
    refine ⟨utf8Len_spec s, utf8Codepoint_spec s, ⟨_, hstrict hall, length_steps 0 _, fun k c hk => ?_⟩, ?_, ?_⟩
    · have hstep := getElem_steps (p := 0) hk
      rw [Nat.zero_add] at hstep
      exact hstep
    · intro n
      apply utf8Offset_from _ hshort (offsetStart_none hshort)
      split <;> omega
    · intro i n hin
      have hi := start_le s.codes i
      have hq := start_le s.codes (i + n)
      have hlen := length_le_text s.codes
      constructor
      · have hval : (Int64.ofNat (n + 1)).toInt = (n + 1 : ℕ) := Int64.toInt_ofNat_of_lt (by omega)
        have hplace := utf8Offset_from (i := i) (n := Int64.ofNat (n + 1)) (by omega) hshort
          (offsetStart_some (q := start s.codes i + 1) hshort (by omega))
        have htarget : target i (n + 1 : ℕ) = (i + n : ℕ) := by
          unfold target
          rw [if_pos (by omega)]
          omega
        rw [hval, htarget] at hplace
        exact hplace
      · have hval : (-Int64.ofNat n).toInt = -n := by
          have hn : (Int64.ofNat n).toInt = n := Int64.toInt_ofNat_of_lt (by omega)
          rw [Int64.toInt_neg, hn]
          exact Int.bmod_eq_of_le (by omega) (by omega)
        have hplace := utf8Offset_from (i := i + n) (n := -Int64.ofNat n) hin hshort
          (offsetStart_some (q := start s.codes (i + n) + 1) hshort (by omega))
        have htarget : target (i + n) (-n) = i := by
          unfold target
          rw [if_neg (by omega)]
          omega
        rw [hval, htarget] at hplace
        exact hplace

/-- `"\xED\xA0\x80"` is one code in lax mode, of a surrogate; `utf8.len(s, 1, -1, true)` is 1 and
`utf8.codes(s, true)` raises. -/
theorem utf8_incoherent : ¬ ∀ lax (s : CodeString lax), Coherent s := by
  intro h
  have hfits : Utf8Form.Fits 3 0xD800 := ⟨by decide, by decide, by decide⟩
  have hlegal : Legal true 0xD800 := show 0xD800 < 2^31 by decide
  have hsurrogate : ¬ Legal false 0xD800 := fun hl => absurd hl.2 (by decide)
  obtain ⟨s, hs⟩ : ∃ s : CodeString true, s.codes = [⟨3, 0xD800, hfits, Or.inl rfl, hlegal⟩] :=
    ⟨⟨_, show (Utf8Form.form 3 0xD800 ++ []).length < 2^31 by decide⟩, rfl⟩
  obtain ⟨steps, hsteps, -⟩ := (h true s).codes
  rw [(utf8Codes_spec s).2 ⟨_, by rw [hs]; exact List.mem_cons_self, fun hstrict => hsurrogate hstrict.2⟩] at hsteps
  cases hsteps

end Lua2wasm.Utf8
