import Lua2wasm.Io.File

/-!
# What `file:read` reads

What formats designate among the bytes behind the cursor (`ByteFormat.takes`, `reads`), and when `file:read` and
`io.read`, which reads the standard input as a file, give just that (`gives_iff`).

The loops over `$fmt_buf` give the bytes that are asked for whatever their number. But a line is cut where the
buffer ends while the cursor is behind all of it, a count is taken for an integer of 32 bits, and the formats after one
that fails are read as well.
-/

namespace Lua2wasm.Io

/-! ## What formats designate -/

/-- A format that gives bytes. A number of bytes is an integer of Lua that is not negative. -/
inductive ByteFormat where
  | line
  | lineEnd
  | all
  | count (n : ℕ) (h : n < 2^63)

namespace ByteFormat

/-- The format of `file:read`. -/
def format : ByteFormat → Format
  | line => .line
  | lineEnd => .lineEnd
  | all => .all
  | count n _ => .count (Int64.ofNat n)

/-- The bytes that it takes of those that are left. It fails if there are none, except for all of them or none. -/
def takes : ByteFormat → Bytes → Option Bytes
  | line, rest => if rest = [] then none else some (rest.take (Io.lineEnd rest + 1))
  | lineEnd, rest => if rest = [] then none else some (rest.take (Io.lineEnd rest + 1))
  | all, rest => some rest
  | count n _, rest => if n = 0 then some [] else if rest = [] then none else some (rest.take n)

/-- What it gives for them. -/
def value : ByteFormat → Bytes → Bytes
  | line, taken => taken.takeWhile (· ≠ 10)
  | _, taken => taken

end ByteFormat

/-- What some formats give, and the bytes that they take. A format that fails gives nil, and nothing is read behind it. -/
def reads : List ByteFormat → Bytes → List (Option Bytes) × Bytes
  | [], _ => ([], [])
  | fmt :: fmts, rest =>
    match fmt.takes rest with
    | none => ([none], [])
    | some taken =>
      let (vs, more) := reads fmts (rest.drop taken.length)
      (some (fmt.value taken) :: vs, taken ++ more)

/-- The formats of a call, which is for a line if there are none. -/
def formatsOrLine (fmts : List ByteFormat) : List ByteFormat := if fmts = [] then [.line] else fmts

/-- What some calls give, one after the other, and the bytes that they take. -/
def readsAll : List (List ByteFormat) → Bytes → List (List (Option Bytes)) × Bytes
  | [], _ => ([], [])
  | fmts :: calls, rest =>
    let (vs, taken) := reads (formatsOrLine fmts) rest
    let (vss, more) := readsAll calls (rest.drop taken.length)
    (vs :: vss, taken ++ more)

/-! ## The calls of the source -/

section

variable {V : Type} (parse : Bytes → V)

/-- Calls of `$io_read_impl`, one after the other. -/
def readCalls : List (List ByteFormat) → BufferedFile → List (Option (List (ReadVal V))) × BufferedFile
  | [], f => ([], f)
  | fmts :: calls, f =>
    let (vs, f) := readFormats parse (formatsOf (fmts.map ByteFormat.format)) f
    let (vss, f) := readCalls calls f
    (vs :: vss, f)

/-- The bytes behind the cursor. -/
def BufferedFile.rest (f : BufferedFile) : Bytes := f.buf.drop f.pos

/-- The file with its cursor behind some more bytes. -/
def BufferedFile.skip (f : BufferedFile) (n : ℕ) : BufferedFile := { f with pos := f.pos + n }

/-- The calls give what their formats designate, and leave the cursor behind the last byte that is taken. -/
def Gives (f : BufferedFile) (calls : List (List ByteFormat)) : Prop :=
  readCalls parse calls f =
    ((readsAll calls f.rest).1.map fun vs => some (vs.map ReadVal.ofOption), f.skip (readsAll calls f.rest).2.length)

end

/-! ## The formats of the source -/

section

variable {f : BufferedFile} {n : ℕ}

@[simp] theorem skip_zero (f : BufferedFile) : f.skip 0 = f := rfl

@[simp] theorem skip_skip (f : BufferedFile) (m n : ℕ) : (f.skip m).skip n = f.skip (m + n) := by
  unfold BufferedFile.skip
  rw [Nat.add_assoc]

@[simp] theorem rest_skip (f : BufferedFile) (n : ℕ) : (f.skip n).rest = f.rest.drop n := by
  unfold BufferedFile.rest BufferedFile.skip
  rw [List.drop_drop]

theorem length_rest (f : BufferedFile) : f.rest.length = f.buf.length - f.pos := List.length_drop

theorem rest_eq_nil : f.rest = [] ↔ f.buf.length ≤ f.pos := List.drop_eq_nil_iff

theorem fmtBuf_of_le {s : Bytes} (h : s.length ≤ fmtBufCap) : fmtBuf s = s := List.take_of_length_le h

/-- One chunk of all. -/
theorem readChunk_eq (f : BufferedFile) : f.readChunk = (f.rest.take fmtBufCap, f.skip (min fmtBufCap f.rest.length)) := by
  have hlen := length_rest f
  unfold BufferedFile.readChunk
  split_ifs with h
  · rw [rest_eq_nil.mpr h]
    rfl
  · dsimp only
    rw [show min (f.pos + fmtBufCap) f.buf.length = f.pos + min fmtBufCap f.rest.length by omega, Nat.add_sub_cancel_left]
    congr 1
    change f.rest.take (min fmtBufCap f.rest.length) = f.rest.take fmtBufCap
    rw [List.take_eq_take_iff]
    omega

/-- One chunk of a count. -/
theorem readCount_eq (f : BufferedFile) (n : ℕ) : f.readCount n =
    if f.rest = [] then (none, f) else (some (f.rest.take n), f.skip (min n f.rest.length)) := by
  have hlen := length_rest f
  unfold BufferedFile.readCount
  by_cases h : f.buf.length ≤ f.pos
  · rw [if_pos h, if_pos (rest_eq_nil.mpr h)]
  · rw [if_neg h, if_neg (mt rest_eq_nil.mp h)]
    dsimp only
    rw [show min (f.pos + n) f.buf.length = f.pos + min n f.rest.length by omega, Nat.add_sub_cancel_left]
    congr 2
    change f.rest.take (min n f.rest.length) = f.rest.take n
    rw [List.take_eq_take_iff]
    omega

theorem readAllFrom_eq : ∀ (fuel : ℕ) (acc : Bytes) (f : BufferedFile), f.rest.length < fuel →
    readAllFrom fuel acc f = (acc ++ f.rest, f.skip f.rest.length) := by
  intro fuel
  induction fuel with
  | zero =>
    intro _ _ h
    exact absurd h (Nat.not_lt_zero _)
  | succ fuel ih =>
    intro acc f hfuel
    have hcap : 0 < fmtBufCap := by decide
    unfold readAllFrom
    rw [readChunk_eq]
    dsimp only
    rw [fmtBuf_of_le (List.length_take_le _ _), List.length_take]
    split_ifs with hnil hlast
    · have hrest : f.rest = [] := by
        obtain hzero | hrest := List.take_eq_nil_iff.mp hnil
        · omega
        · exact hrest
      rw [hrest, List.append_nil]
      rfl
    · rw [List.take_of_length_le (by omega), min_eq_right (by omega)]
    · -- a full chunk, and the rest of the file
      rw [ih _ _ (by rw [rest_skip, List.length_drop]; omega), rest_skip, skip_skip, List.append_assoc,
        min_eq_left (by omega), List.take_append_drop, List.length_drop,
        show fmtBufCap + (f.rest.length - fmtBufCap) = f.rest.length by omega]

/-- All that is left. -/
theorem readAllStr_eq (f : BufferedFile) : readAllStr f = (f.rest, f.skip f.rest.length) := by
  have hlen := length_rest f
  exact (readAllFrom_eq _ [] f (by omega)).trans (by rw [List.nil_append])

/-- The loop over the chunks of a count, when some bytes are there. -/
theorem readNFrom_eq (count : ℕ) : ∀ (fuel got : ℕ) (acc : Bytes) (f : BufferedFile), count - got < fuel → got ≤ count →
    readNFrom fuel got count acc f =
      if got = count then (some acc, f)
      else if f.rest = [] then (if got = 0 then none else some acc, f)
      else (some (acc ++ f.rest.take (count - got)), f.skip (min (count - got) f.rest.length)) := by
  intro fuel
  induction fuel with
  | zero =>
    intro _ _ _ h
    exact absurd h (Nat.not_lt_zero _)
  | succ fuel ih =>
    intro got acc f hfuel hle
    have hcap : 0 < fmtBufCap := by decide
    unfold readNFrom
    by_cases hdone : got = count
    · rw [if_pos (by omega), if_pos hdone]
    · obtain ⟨chunk, hchunk⟩ : ∃ chunk, chunk = min (count - got) fmtBufCap := ⟨_, rfl⟩
      have hle' : got + chunk ≤ count := by omega
      rw [if_neg (by omega), if_neg hdone]
      dsimp only
      rw [← hchunk, readCount_eq]
      by_cases hrest : f.rest = []
      · rw [if_pos hrest, if_pos hrest]
        by_cases hgot : got = 0
        · rw [if_pos hgot, if_pos ⟨hgot, by omega⟩]
        · rw [if_neg hgot, if_neg (fun h => hgot h.1)]
      · rw [if_neg hrest, if_neg hrest]
        dsimp only
        rw [fmtBuf_of_le (by rw [List.length_take]; omega), List.length_take]
        by_cases hshort : f.rest.length < chunk
        · -- the last bytes of the file
          rw [if_pos (by omega), List.take_of_length_le (by omega), List.take_of_length_le (by omega),
            min_eq_right (by omega), min_eq_right (by omega)]
        · rw [if_neg (by omega), min_eq_left (not_lt.mp hshort), ih _ _ _ (by omega) hle', rest_skip, skip_skip]
          by_cases hall : got + chunk = count
          · rw [if_pos hall, show count - got = chunk by omega, min_eq_left (not_lt.mp hshort)]
          · rw [if_neg hall, if_neg (show ¬got + chunk = 0 by omega)]
            by_cases hend : f.rest.length ≤ chunk
            · rw [if_pos (List.drop_eq_nil_iff.mpr hend), List.take_of_length_le hend,
                List.take_of_length_le (by omega), min_eq_right (by omega), show chunk = f.rest.length by omega]
            · rw [if_neg (mt List.drop_eq_nil_iff.mp hend), List.append_assoc, List.length_drop,
                show count - got = chunk + (count - (got + chunk)) by omega, List.take_add,
                show chunk + min (count - (got + chunk)) (f.rest.length - chunk) =
                  min (chunk + (count - (got + chunk))) f.rest.length by omega]

/-- A number of bytes, however large it is. -/
theorem readNStr_eq (f : BufferedFile) (count : ℕ) : readNStr f count =
    if count = 0 then (some [], f)
    else if f.rest = [] then (none, f) else (some (f.rest.take count), f.skip (min count f.rest.length)) := by
  unfold readNStr
  rw [readNFrom_eq count _ _ _ _ (by omega) (Nat.zero_le _), Nat.sub_zero, List.nil_append]
  by_cases h : count = 0
  · rw [if_pos h, if_pos h.symm]
  · rw [if_neg h, if_neg (Ne.symm h), if_pos rfl]

theorem take_lineEnd (s : Bytes) : s.take (lineEnd s) = s.takeWhile (· ≠ 10) :=
  (List.prefix_iff_eq_take.mp (List.takeWhile_prefix _)).symm

/-- A line is what is before its end. -/
theorem takeWhile_take (s : Bytes) : (s.take (lineEnd s + 1)).takeWhile (· ≠ 10) = s.take (lineEnd s) := by
  rw [take_lineEnd]
  unfold lineEnd
  induction s with
  | nil => rfl
  | cons b s ih =>
    by_cases hb : b = 10
    · simp [hb]
    · have hcons : ∀ s : Bytes, (b :: s).takeWhile (· ≠ 10) = b :: s.takeWhile (· ≠ 10) := fun s =>
        List.takeWhile_cons_of_pos (decide_eq_true hb)
      rw [hcons, List.length_cons, List.take_succ_cons, hcons, ih]

/-- A line, with or without its end. -/
theorem fsReadLine_eq (f : BufferedFile) (keep : Bool) : fsReadLine f keep =
    if f.rest = [] then (none, f)
    else (some (fmtBuf (if keep then f.rest.take (lineEnd f.rest + 1) else f.rest.take (lineEnd f.rest))),
      f.skip (f.rest.take (lineEnd f.rest + 1)).length) := by
  have hlen := length_rest f
  have hle : lineEnd f.rest ≤ f.rest.length := (List.takeWhile_prefix _).length_le
  unfold fsReadLine BufferedFile.readLine
  by_cases h : f.buf.length ≤ f.pos
  · rw [if_pos h, if_pos (rest_eq_nil.mpr h)]
    rfl
  · obtain ⟨more, hmore⟩ : ∃ more, more = if f.pos + lineEnd f.rest < f.buf.length then 1 else 0 := ⟨_, rfl⟩
    have hskip : (f.rest.take (lineEnd f.rest + 1)).length = lineEnd f.rest + more := by
      rw [hmore, List.length_take]
      split_ifs <;> omega
    have htake : f.rest.take (lineEnd f.rest + 1) = f.rest.take (lineEnd f.rest + more) := by
      rw [List.take_eq_take_iff, hmore]
      split_ifs <;> omega
    rw [if_neg h, if_neg (mt rest_eq_nil.mp h), hskip, htake]
    unfold BufferedFile.rest at *
    unfold BufferedFile.skip
    dsimp only
    rw [← hmore, Nat.add_assoc, Nat.add_assoc, Nat.add_sub_cancel_left]
    cases keep with
    | false => rfl
    | true => rfl

theorem fsReadLine_false (f : BufferedFile) : fsReadLine f false =
    if f.rest = [] then (none, f)
    else (some (fmtBuf (f.rest.take (lineEnd f.rest))), f.skip (f.rest.take (lineEnd f.rest + 1)).length) :=
  fsReadLine_eq f false

theorem fsReadLine_true (f : BufferedFile) : fsReadLine f true =
    if f.rest = [] then (none, f)
    else (some (fmtBuf (f.rest.take (lineEnd f.rest + 1))), f.skip (f.rest.take (lineEnd f.rest + 1)).length) :=
  fsReadLine_eq f true

/-- The count as the source takes it. -/
theorem wrapI32_ofNat {n : ℕ} (h : n < 2^63) : wrapI32 (Int64.ofNat n) = (n : ℤ).bmod (2^32) := by
  unfold wrapI32
  rw [Int64.toInt_toInt32, Int64.toInt_ofNat_of_lt h]

end

/-! ## When the source reads what is designated -/

/-- What a format takes gets through the buffer: a line is not longer, and a count below `2^31`, or else its low 32 bits
are a count that takes all that is left. -/
def ByteFormat.Fits : ByteFormat → Bytes → Prop
  | line, rest => Io.lineEnd rest ≤ fmtBufCap
  | lineEnd, rest => (rest.take (Io.lineEnd rest + 1)).length ≤ fmtBufCap
  | all, _ => True
  | count n _, rest => n < 2^31 ∨ 0 < (n : ℤ).bmod (2^32) ∧ (rest.length : ℤ) ≤ (n : ℤ).bmod (2^32)

/-- The formats of a call fit, and none but the last one fails. -/
def Fit : List ByteFormat → Bytes → Prop
  | [], _ => True
  | fmt :: fmts, rest => fmt.Fits rest ∧
    (fmt.takes rest).elim (fmts = []) fun taken => Fit fmts (rest.drop taken.length)

/-- The formats of all calls do. -/
def AllFit : List (List ByteFormat) → Bytes → Prop
  | [], _ => True
  | fmts :: calls, rest =>
    Fit (formatsOrLine fmts) rest ∧ AllFit calls (rest.drop (reads (formatsOrLine fmts) rest).2.length)

section

variable {V : Type} {parse : Bytes → V} {f g : BufferedFile} {fmt : ByteFormat} {fmts : List ByteFormat} {v : ReadVal V}

theorem ofOption_injective : Function.Injective (ReadVal.ofOption : Option Bytes → ReadVal V) := by
  intro a b h
  cases a <;> cases b <;> cases h <;> rfl

theorem fmtBuf_eq_iff {s : Bytes} : fmtBuf s = s ↔ s.length ≤ fmtBufCap := List.take_eq_self_iff s

/-- The count as the source takes it is the same, or negative, or smaller. -/
theorem bmod_cases {n : ℕ} : (n : ℤ).bmod (2^32) = n ∧ n < 2^31 ∨ (n : ℤ).bmod (2^32) < n ∧ 2^31 ≤ n := by
  have h := Int.bmod_def (n : ℤ) (2^32)
  rw [h]
  split_ifs <;> omega

/-- One format, if it fits. -/
theorem readFormat_of_fits (h : fmt.Fits f.rest) : readFormat parse f fmt.format = some ((fmt.takes f.rest).elim
    (.nil, f) fun taken => (.str (fmt.value taken), f.skip taken.length)) := by
  cases fmt with
  | line =>
    simp only [ByteFormat.format, readFormat, fsReadLine_false, ByteFormat.takes]
    split_ifs with hrest
    · rfl
    · change some (ReadVal.str (fmtBuf (f.rest.take (lineEnd f.rest))), _) =
        some (ReadVal.str ((f.rest.take (lineEnd f.rest + 1)).takeWhile (· ≠ 10)), _)
      rw [takeWhile_take, fmtBuf_of_le ((List.length_take_le _ _).trans h)]
  | lineEnd =>
    simp only [ByteFormat.format, readFormat, fsReadLine_true, ByteFormat.takes]
    split_ifs with hrest
    · rfl
    · change some (ReadVal.str (fmtBuf (f.rest.take (lineEnd f.rest + 1))), _) = _
      rw [fmtBuf_of_le h]
      rfl
  | all =>
    simp only [ByteFormat.format, readFormat, readAllStr_eq]
    rfl
  | count n hn =>
    simp only [ByteFormat.format, readFormat, wrapI32_ofNat hn]
    obtain ⟨w, hw⟩ : ∃ w, w = (n : ℤ).bmod (2^32) := ⟨_, rfl⟩
    have hcases := @bmod_cases n
    have hfits : n < 2^31 ∨ 0 < w ∧ (f.rest.length : ℤ) ≤ w := by
      rw [hw]
      exact h
    rw [← hw] at hcases ⊢
    rw [if_neg (by omega), readNStr_eq]
    simp only [ByteFormat.takes]
    by_cases hzero : n = 0
    · rw [if_pos (by omega), if_pos hzero]
      rfl
    · rw [if_neg (by omega), if_neg hzero]
      split_ifs with hrest
      · rfl
      · -- as many bytes, or all that are left
        have htake : f.rest.take w.toNat = f.rest.take n := by
          rw [List.take_eq_take_iff]
          omega
        rw [Option.elim_some, htake, List.length_take, show min w.toNat f.rest.length = min n f.rest.length by omega]
        rfl

/-- A format that gives what it designates fits. -/
theorem fits_of_readFormat (h : readFormat parse f fmt.format = some (v, g))
    (hv : v = .ofOption ((fmt.takes f.rest).map fmt.value)) : fmt.Fits f.rest := by
  cases fmt with
  | line =>
    simp only [ByteFormat.format, readFormat, fsReadLine_false, ByteFormat.takes, Option.some.injEq, Prod.mk.injEq] at h hv
    split_ifs at h hv with hrest
    · change lineEnd f.rest ≤ fmtBufCap
      rw [hrest]
      exact Nat.zero_le _
    · have heq := ofOption_injective (h.1.trans hv)
      change some (fmtBuf (f.rest.take (lineEnd f.rest))) =
        some ((f.rest.take (lineEnd f.rest + 1)).takeWhile (· ≠ 10)) at heq
      rw [takeWhile_take] at heq
      -- the line that was given is not cut, so it fits the buffer
      have hle := fmtBuf_eq_iff.mp (Option.some.inj heq)
      have hline : lineEnd f.rest ≤ f.rest.length := (List.takeWhile_prefix _).length_le
      rw [List.length_take, min_eq_left hline] at hle
      exact hle
  | lineEnd =>
    simp only [ByteFormat.format, readFormat, fsReadLine_true, ByteFormat.takes, Option.some.injEq, Prod.mk.injEq] at h hv
    split_ifs at h hv with hrest
    · change (f.rest.take _).length ≤ fmtBufCap
      rw [hrest, List.take_nil]
      exact Nat.zero_le _
    · have heq := ofOption_injective (h.1.trans hv)
      exact fmtBuf_eq_iff.mp (Option.some.inj heq)
  | all => trivial
  | count n hn =>
    obtain ⟨w, hw⟩ : ∃ w, w = (n : ℤ).bmod (2^32) := ⟨_, rfl⟩
    have hcases := @bmod_cases n
    change n < 2^31 ∨ 0 < (n : ℤ).bmod (2^32) ∧ (f.rest.length : ℤ) ≤ (n : ℤ).bmod (2^32)
    simp only [ByteFormat.format, readFormat, wrapI32_ofNat hn, ByteFormat.takes] at h hv
    rw [← hw] at hcases h ⊢
    -- a count from 2^31 on is read as its remainder
    by_cases hsmall : n < 2^31
    · exact Or.inl hsmall
    · right
      by_cases hneg : w < 0
      · rw [if_pos hneg] at h
        cases h
      · rw [if_neg hneg, readNStr_eq] at h
        have hval := ofOption_injective ((congrArg Prod.fst (Option.some.inj h)).trans hv)
        rw [if_neg (show ¬n = 0 by omega)] at hval
        by_cases hrest : f.rest = []
        · rw [if_pos hrest, if_pos hrest] at hval
          refine ⟨?_, by rw [hrest]; exact not_lt.mp hneg⟩
          by_contra hzero
          rw [if_pos (by omega)] at hval
          cases hval
        · have hpos := List.length_pos_iff.mpr hrest
          rw [if_neg hrest, if_neg hrest] at hval
          by_cases hzero : w = 0
          · -- an empty string is given, and there are bytes
            rw [if_pos (by omega)] at hval
            have hlen := congrArg List.length (Option.some.inj hval)
            change 0 = (f.rest.take n).length at hlen
            rw [List.length_take] at hlen
            omega
          · rw [if_neg (by omega)] at hval
            have hlen := congrArg List.length (Option.some.inj hval)
            change (f.rest.take w.toNat).length = (f.rest.take n).length at hlen
            rw [List.length_take, List.length_take] at hlen
            omega

theorem length_readFormats {fmts : List Format} : ∀ {f : BufferedFile} {vs : List (ReadVal V)},
    (readFormats parse fmts f).1 = some vs → vs.length = fmts.length := by
  induction fmts with
  | nil =>
    intro f vs h
    rw [← Option.some.inj h]
    rfl
  | cons fmt fmts ih =>
    intro f vs h
    unfold readFormats at h
    cases hfmt : readFormat parse f fmt with
    | none =>
      rw [hfmt] at h
      cases h
    | some r =>
      rw [hfmt] at h
      obtain ⟨vs', hvs', rfl⟩ := Option.map_eq_some_iff.mp h
      rw [List.length_cons, List.length_cons, ih hvs']

/-- Formats that fit give what they designate. -/
theorem readFormats_of_fit (h : Fit fmts f.rest) : readFormats parse (fmts.map ByteFormat.format) f =
    (some ((reads fmts f.rest).1.map ReadVal.ofOption), f.skip (reads fmts f.rest).2.length) := by
  induction fmts generalizing f with
  | nil => rfl
  | cons fmt fmts ih =>
    obtain ⟨hfits, hrest⟩ := h
    rw [List.map_cons]
    unfold readFormats reads
    rw [readFormat_of_fits hfits]
    cases htakes : fmt.takes f.rest with
    | none =>
      rw [htakes] at hrest
      obtain rfl : fmts = [] := hrest
      rfl
    | some taken =>
      rw [htakes] at hrest
      have hmore := @ih (f.skip taken.length) (by rw [rest_skip]; exact hrest)
      rw [rest_skip, skip_skip] at hmore
      dsimp only [Option.elim_some]
      rw [hmore, List.length_append]
      rfl

/-- Formats that give what they designate fit: a value that differs is seen, and so is one too many. -/
theorem fit_of_readFormats (h : (readFormats parse (fmts.map ByteFormat.format) f).1 =
    some ((reads fmts f.rest).1.map ReadVal.ofOption)) : Fit fmts f.rest := by
  induction fmts generalizing f with
  | nil => trivial
  | cons fmt fmts ih =>
    rw [List.map_cons] at h
    unfold readFormats reads at h
    cases hfmt : readFormat parse f fmt.format with
    | none =>
      rw [hfmt] at h
      cases h
    | some r =>
      obtain ⟨v, g⟩ := r
      rw [hfmt] at h
      obtain ⟨vs, hvs, heq⟩ := Option.map_eq_some_iff.mp h
      cases htakes : fmt.takes f.rest with
      | none =>
        rw [htakes] at heq
        obtain ⟨hv, hnil⟩ := List.cons.inj heq
        have hlen := length_readFormats hvs
        rw [hnil] at hlen
        refine ⟨fits_of_readFormat hfmt (by rw [htakes]; exact hv), ?_⟩
        rw [htakes]
        exact List.map_eq_nil_iff.mp (List.eq_nil_of_length_eq_zero hlen.symm)
      | some taken =>
        rw [htakes] at heq
        obtain ⟨hv, hmore⟩ := List.cons.inj heq
        have hfits := fits_of_readFormat hfmt (by rw [htakes]; exact hv)
        have hg : readFormat parse f fmt.format = _ := readFormat_of_fits hfits
        rw [hfmt, htakes] at hg
        obtain rfl : g = f.skip taken.length := congrArg Prod.snd (Option.some.inj hg)
        refine ⟨hfits, ?_⟩
        rw [htakes]
        have hfit := @ih (f.skip taken.length) (by rw [hvs, hmore, rest_skip])
        rwa [rest_skip] at hfit

theorem map_formatsOrLine (fmts : List ByteFormat) :
    formatsOf (fmts.map ByteFormat.format) = (formatsOrLine fmts).map ByteFormat.format := by
  cases fmts <;> rfl

end

/-- The first of some calls, and the others from where it leaves the cursor. -/
theorem gives_cons {V : Type} {parse : Bytes → V} {f : BufferedFile} {fmts : List ByteFormat}
    {calls : List (List ByteFormat)} : Gives parse f (fmts :: calls) ↔ Fit (formatsOrLine fmts) f.rest ∧
      Gives parse (f.skip (reads (formatsOrLine fmts) f.rest).2.length) calls := by
  have hcalls : readCalls parse (fmts :: calls) f =
      ((readFormats parse ((formatsOrLine fmts).map ByteFormat.format) f).1 ::
        (readCalls parse calls (readFormats parse ((formatsOrLine fmts).map ByteFormat.format) f).2).1,
        (readCalls parse calls (readFormats parse ((formatsOrLine fmts).map ByteFormat.format) f).2).2) := by
    rw [← map_formatsOrLine]
    rfl
  have hreads : readsAll (fmts :: calls) f.rest = ((reads (formatsOrLine fmts) f.rest).1 ::
      (readsAll calls (f.rest.drop (reads (formatsOrLine fmts) f.rest).2.length)).1, (reads (formatsOrLine fmts) f.rest).2 ++
        (readsAll calls (f.rest.drop (reads (formatsOrLine fmts) f.rest).2.length)).2) := rfl
  unfold Gives
  rw [rest_skip, hcalls, hreads]
  constructor
  · intro h
    have hfit := fit_of_readFormats (List.cons.inj (congrArg Prod.fst h)).1
    rw [readFormats_of_fit hfit] at h
    have hcursor := congrArg Prod.snd h
    rw [List.length_append, ← skip_skip] at hcursor
    exact ⟨hfit, Prod.ext (List.cons.inj (congrArg Prod.fst h)).2 hcursor⟩
  · rintro ⟨hfit, hmore⟩
    rw [readFormats_of_fit hfit]
    rw [hmore, skip_skip, List.length_append]
    rfl

/-- Calls give what their formats designate exactly when every line and count gets through and no format but the last
one of a call fails. -/
theorem gives_iff {V : Type} (parse : Bytes → V) (f : BufferedFile) (calls : List (List ByteFormat)) :
    Gives parse f calls ↔ AllFit calls f.rest := by
  induction calls generalizing f with
  | nil => exact ⟨fun _ => trivial, fun _ => rfl⟩
  | cons fmts calls ih =>
    rw [gives_cons, ih, rest_skip]
    rfl

theorem lineEnd_replicate (n : ℕ) : lineEnd (List.replicate n 65) = n := by
  unfold lineEnd
  rw [List.takeWhile_replicate, if_pos (by decide), List.length_replicate]

theorem rest_ofBytes (bytes : Bytes) : (BufferedFile.ofBytes bytes false).rest = bytes := rfl

/-- A line of one byte more than the buffer has is cut. -/
theorem not_gives_long_line :
    ¬Gives (fun _ => ()) (BufferedFile.ofBytes (List.replicate 16385 65) false) [[.line]] := by
  intro h
  have hfit := (gives_cons.mp h).1
  rw [rest_ofBytes] at hfit
  have hle : lineEnd (List.replicate 16385 65) ≤ fmtBufCap := hfit.1
  rw [lineEnd_replicate] at hle
  exact absurd hle (Nat.not_succ_le_self 16384)

end Lua2wasm.Io
