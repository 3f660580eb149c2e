import Lua2wasm.Os.Date

/-!
# The dates that `os.date` shows

What a table and the directives show of a time of the Gregorian calendar (`Shows`), and when `os.date` shows the time
that it is (`consistent_iff`).

Two things go wrong. The integers of the table are read back without their signs, so a negative year is not shown. And
the day of the year is taken from the distance of two midnights: it is one too small when the clock has been put
forward since the first of January, and in the year 0, which the constructors take for 1900, that had no 29th of
February. `Counted` says when the distance has the days in it.
-/

namespace Lua2wasm.Os

open Gregorian (Leap yearOf yearStart monthStart monthLength Moment)
open Table (setAt)
open Pack (packReadInt packIdx packByte)
open Io (fmtBufCap)

/-! ## The fields of a `Date` -/

section

variable (t : ℤ)

/-- The date of a time value. -/
def dateOf : Gregorian.Date := .ofNumber (day t)

theorem yearFromTime_eq : yearFromTime t = (dateOf t).year := rfl

theorem weekDay_eq : weekDay t = (dateOf t).weekday := by
  unfold weekDay Gregorian.Date.weekday dateOf
  rw [Gregorian.Date.number_ofNumber]

theorem dayWithinYear_eq : dayWithinYear t = (dateOf t).dayOfYear - 1 := by
  have h : day t = (dateOf t).number := (Gregorian.Date.number_ofNumber _).symm
  unfold dayWithinYear
  rw [yearFromTime_eq, h]
  unfold Gregorian.Date.number
  omega

/-- The numbers of days in the source are where the months begin. -/
theorem monthStart_table : monthStart (yearFromTime t) 1 = 31 ∧ monthStart (yearFromTime t) 2 = 59 + inLeapYear t ∧
    monthStart (yearFromTime t) 3 = 90 + inLeapYear t ∧ monthStart (yearFromTime t) 4 = 120 + inLeapYear t ∧
    monthStart (yearFromTime t) 5 = 151 + inLeapYear t ∧ monthStart (yearFromTime t) 6 = 181 + inLeapYear t ∧
    monthStart (yearFromTime t) 7 = 212 + inLeapYear t ∧ monthStart (yearFromTime t) 8 = 243 + inLeapYear t ∧
    monthStart (yearFromTime t) 9 = 273 + inLeapYear t ∧ monthStart (yearFromTime t) 10 = 304 + inLeapYear t ∧
    monthStart (yearFromTime t) 11 = 334 + inLeapYear t := by
  unfold inLeapYear
  by_cases h : Leap (yearFromTime t) <;>
    simp [Gregorian.monthStart_succ, monthLength, h]

/-- A day that a month before has not got is in this one, or behind it. -/
theorem monthOf_step {y d next : ℤ} {m rest : ℕ} (hm : m < 12) (hle : monthStart y m ≤ d) (hnext : monthStart y (m + 1) = next)
    (hrest : next ≤ d → rest = Gregorian.monthOf y d) : (if d < next then m else rest) = Gregorian.monthOf y d := by
  split_ifs with hlt
  · exact (Gregorian.monthOf_eq hm hle (hlt.trans_eq hnext.symm)).symm
  · exact hrest (not_lt.mp hlt)

theorem monthFromTime_eq : monthFromTime t = (dateOf t).month := by
  obtain ⟨h₁, h₂, h₃, h₄, h₅, h₆, h₇, h₈, h₉, h₁₀, h₁₁⟩ := monthStart_table t
  have hbounds : 0 ≤ dayWithinYear t ∧ dayWithinYear t < monthStart (yearFromTime t) 12 := by
    rw [dayWithinYear_eq, Gregorian.monthStart_twelve, yearFromTime_eq]
    have := (dateOf t).dayOfYear_bounds
    omega
  have hmonth : (dateOf t).month = Gregorian.monthOf (yearFromTime t) (dayWithinYear t) := rfl
  rw [hmonth]
  unfold monthFromTime
  -- one month after another, each up to the beginning of the next one
  refine monthOf_step (by decide) ((Gregorian.monthStart_zero _).trans_le hbounds.1) h₁ fun g₁ => ?_
  refine monthOf_step (by decide) (h₁.trans_le g₁) h₂ fun g₂ => ?_
  refine monthOf_step (by decide) (h₂.trans_le g₂) h₃ fun g₃ => ?_
  refine monthOf_step (by decide) (h₃.trans_le g₃) h₄ fun g₄ => ?_
  refine monthOf_step (by decide) (h₄.trans_le g₄) h₅ fun g₅ => ?_
  refine monthOf_step (by decide) (h₅.trans_le g₅) h₆ fun g₆ => ?_
  refine monthOf_step (by decide) (h₆.trans_le g₆) h₇ fun g₇ => ?_
  refine monthOf_step (by decide) (h₇.trans_le g₇) h₈ fun g₈ => ?_
  refine monthOf_step (by decide) (h₈.trans_le g₈) h₉ fun g₉ => ?_
  refine monthOf_step (by decide) (h₉.trans_le g₉) h₁₀ fun g₁₀ => ?_
  refine monthOf_step (by decide) (h₁₀.trans_le g₁₀) h₁₁ fun g₁₁ => ?_
  exact (Gregorian.monthOf_eq (by decide) (h₁₁.trans_le g₁₁) hbounds.2).symm

theorem dateFromTime_eq : dateFromTime t = (dateOf t).day := by
  obtain ⟨h₁, h₂, h₃, h₄, h₅, h₆, h₇, h₈, h₉, h₁₀, h₁₁⟩ := monthStart_table t
  have h₀ : monthStart (yearFromTime t) 0 = 0 := Gregorian.monthStart_zero _
  have hday : (dateOf t).day = dayWithinYear t - monthStart (yearFromTime t) (monthFromTime t) + 1 := by
    rw [monthFromTime_eq]
    rfl
  have hlt : monthFromTime t < 12 := by
    rw [monthFromTime_eq]
    exact (dateOf t).month_lt
  rw [hday]
  unfold dateFromTime
  generalize monthFromTime t = m at *
  interval_cases m
  all_goals
    simp only [h₀, h₁, h₂, h₃, h₄, h₅, h₆, h₇, h₈, h₉, h₁₀, h₁₁]
    ring

end

/-! ## The day of the year -/

/-- The local time that the constructors take for the midnight of a date. -/
def midnight (y : ℤ) (month : ℕ) (date : ℤ) : ℤ := makeDay (makeFullYear y) month date * msPerDay

/-- The instant that they take for it. -/
def taken (zone : Zone) (utc : Bool) (l : ℤ) : ℤ := if utc then l else zone.instant l

/-- The distance of the two midnights has the days of the year in it: both are time values, and what the clock has been
put back between them is less than a day and, with the day that 1900 lacks, not negative. -/
def Counted (zone : Zone) (utc : Bool) (d : Gregorian.Date) : Prop :=
  let start := midnight d.year 0 1
  let now := midnight d.year d.month d.day
  let lost := if d.year = 0 ∧ 2 ≤ d.month then msPerDay else 0
  let back := (start - taken zone utc start) - (now - taken zone utc now) - lost
  |taken zone utc start| ≤ maxTime ∧ |taken zone utc now| ≤ maxTime ∧ 0 ≤ back ∧ back < msPerDay

section

variable (zone : Zone) (utc : Bool) (t : ℤ)

theorem monthStart_makeFullYear (y : ℤ) (m : ℕ) :
    monthStart (makeFullYear y) m = monthStart y m - if y = 0 ∧ 2 ≤ m then 1 else 0 := by
  have hleap : Leap (makeFullYear y) ↔ Leap y ∧ y ≠ 0 := by
    unfold makeFullYear Leap
    split_ifs <;> omega
  rw [Gregorian.monthStart_leap, Gregorian.monthStart_leap y]
  by_cases hzero : y = 0
  · have : Leap 0 := by decide
    subst hzero
    simp [hleap, this]
  · simp [hleap, hzero]

theorem midnight_sub (d : Gregorian.Date) : midnight d.year d.month d.day - midnight d.year 0 1 =
    (d.dayOfYear - 1) * msPerDay - if d.year = 0 ∧ 2 ≤ d.month then msPerDay else 0 := by
  have hmonth := monthStart_makeFullYear d.year d.month
  unfold midnight makeDay Gregorian.Date.dayOfYear msPerDay
  rw [hmonth, Gregorian.monthStart_zero]
  split_ifs <;> ring

theorem yday_def : yday zone utc t =
    (timeClip (taken zone utc (midnight (dateOf (split zone utc t)).year 0 1))).bind fun start =>
      (timeClip (taken zone utc (midnight (dateOf (split zone utc t)).year (dateOf (split zone utc t)).month
        (dateOf (split zone utc t)).day))).bind fun now => some ((now - start) / 86400000 + 1) := by
  unfold yday
  rw [yearFromTime_eq, monthFromTime_eq, dateFromTime_eq]
  cases utc <;> rfl

theorem timeClip_eq_some {l v : ℤ} : timeClip l = some v ↔ |l| ≤ maxTime ∧ l = v := by
  unfold timeClip
  split_ifs with h
  · rw [Option.some.injEq]
    exact ⟨fun heq => ⟨h, heq⟩, fun heq => heq.2⟩
  · exact iff_of_false (by simp) fun heq => h heq.1

/-- The number is that of the day exactly when the distance has the days in it. -/
theorem yday_iff : yday zone utc t = some (dateOf (split zone utc t)).dayOfYear ↔
    Counted zone utc (dateOf (split zone utc t)) := by
  rw [yday_def]
  generalize dateOf (split zone utc t) = d
  have hsub := midnight_sub d
  unfold Counted
  generalize (if d.year = 0 ∧ 2 ≤ d.month then msPerDay else 0) = lost at *
  simp only [Option.bind_eq_some_iff, timeClip_eq_some, Option.some.injEq]
  unfold msPerDay at *
  constructor
  · rintro ⟨start, ⟨hstart, rfl⟩, now, ⟨hnow, rfl⟩, heq⟩
    refine ⟨hstart, hnow, ?_, ?_⟩ <;> omega
  · rintro ⟨hstart, hnow, hback, hlt⟩
    refine ⟨_, ⟨hstart, rfl⟩, _, ⟨hnow, rfl⟩, ?_⟩
    omega

theorem yday_bound {v : ℤ} (h : yday zone utc t = some v) : |v| < 2^31 := by
  rw [yday_def] at h
  simp only [Option.bind_eq_some_iff, timeClip_eq_some, Option.some.injEq] at h
  obtain ⟨start, ⟨hstart, rfl⟩, now, ⟨hnow, rfl⟩, rfl⟩ := h
  unfold maxTime at *
  rw [abs_le] at hstart hnow
  rw [abs_lt]
  omega

end

/-! ## The table -/

/-- What `$fmt_buf` holds. -/
abbrev FmtBuf := {b : List UInt8 // b.length = fmtBufCap}

/-- The bytes of a field. -/
def leBytes (v : Int32) : List UInt8 := [byteOf v 0, byteOf v 1, byteOf v 2, byteOf v 3]

section

variable {p old r : List UInt8} {x b : UInt8} {n i : ℕ} {v : Int32}

theorem setAt_append (hp : p.length = n) : setAt (p ++ x :: r) n b = some (p ++ b :: r) := by
  unfold setAt
  rw [if_pos (by rw [List.length_append, List.length_cons]; omega), List.set_append_right _ _ hp.le, hp, Nat.sub_self,
    List.set_cons_zero]

/-- The loop writes the bytes of the fields. -/
theorem writeFields_eq {vs : List Int32} : ∀ {i : ℕ} {p old : List UInt8}, p.length = i * 4 → old.length = vs.length * 4 →
    writeFields i (p ++ (old ++ r)) vs = some (p ++ (vs.flatMap leBytes ++ r)) := by
  induction vs with
  | nil =>
    intro i p old _ hold
    obtain rfl : old = [] := List.eq_nil_of_length_eq_zero (by simpa using hold)
    rfl
  | cons v vs ih =>
    intro i p old hp hold
    obtain ⟨x₀, x₁, x₂, x₃, old', rfl⟩ : ∃ x₀ x₁ x₂ x₃ old', old = x₀ :: x₁ :: x₂ :: x₃ :: old' := by
      rw [List.length_cons] at hold
      obtain ⟨x₀, o₀, rfl⟩ := List.exists_cons_of_length_pos (show 0 < old.length by omega)
      obtain ⟨x₁, o₁, rfl⟩ := List.exists_cons_of_length_pos (show 0 < o₀.length by simp at hold; omega)
      obtain ⟨x₂, o₂, rfl⟩ := List.exists_cons_of_length_pos (show 0 < o₁.length by simp at hold; omega)
      obtain ⟨x₃, o₃, rfl⟩ := List.exists_cons_of_length_pos (show 0 < o₂.length by simp at hold; omega)
      exact ⟨x₀, x₁, x₂, x₃, o₃, rfl⟩
    have hrest := @ih (i + 1) (p ++ leBytes v) old' (by simp [leBytes, hp]; omega) (by simp at hold; omega)
    unfold writeFields
    simp only [List.cons_append]
    rw [setAt_append hp]
    change setAt _ _ _ >>= _ = _
    rw [List.append_cons p, setAt_append (by simp [hp])]
    change setAt _ _ _ >>= _ = _
    rw [List.append_cons (p ++ _), setAt_append (by simp [hp])]
    change setAt _ _ _ >>= _ = _
    rw [List.append_cons (p ++ _ ++ _), setAt_append (by simp [hp])]
    change writeFields (i + 1) _ vs = _
    rw [List.append_cons (p ++ _ ++ _ ++ _)]
    rw [show p ++ [byteOf v 0] ++ [byteOf v 1] ++ [byteOf v 2] ++ [byteOf v 3] = p ++ leBytes v by simp [leBytes], hrest]
    simp

theorem length_leBytes (vs : List Int32) : (vs.flatMap leBytes).length = vs.length * 4 := by
  induction vs with
  | nil => rfl
  | cons v vs ih =>
    rw [List.flatMap_cons, List.length_append, ih, List.length_cons]
    change 4 + vs.length * 4 = _
    omega

theorem packByte_setWidth (v : Int32) {k : ℕ} (hk : k < 4) : packByte (v.toBitVec.setWidth 64) k = byteOf v k := by
  unfold packByte byteOf
  rw [if_pos (by omega)]
  congr 1

/-- A field is read back without its sign. -/
theorem dateField_eq (hp : p.length = n * 4) (hn : n ≤ 8) :
    packReadInt (p ++ (leBytes v ++ r)) (n * 4) 4 true = some (v.toBitVec.setWidth 64) := by
  have hread := @Pack.packReadInt_written (p ++ (leBytes v ++ r)) (n * 4) 4 true (v.toBitVec.setWidth 64) fun j hj => by
    rw [Pack.packIdx_eq (by omega) hj, packByte_setWidth v hj]
    simp only [if_true]
    rw [List.getElem?_append_right (by omega), hp, Nat.add_sub_cancel_left]
    interval_cases j <;> rfl
  rw [hread]
  congr 1
  unfold Pack.low
  apply BitVec.eq_of_getLsbD_eq
  intro j hj
  simp only [BitVec.getLsbD_setWidth]
  by_cases h : j < 32
  · simp [h]
  · simp [BitVec.getLsbD_of_ge v.toBitVec j (by omega)]

theorem toInt_setWidth (v : Int32) : (Int64.ofBitVec (v.toBitVec.setWidth 64)).toInt = v.toBitVec.toNat := by
  change (v.toBitVec.setWidth 64).toInt = _
  rw [BitVec.toInt_eq_toNat_of_lt (by rw [BitVec.toNat_setWidth, Nat.mod_eq_of_lt (by omega)]; omega),
    BitVec.toNat_setWidth, Nat.mod_eq_of_lt (by omega)]

theorem toNat_toInt32 (o : Option ℤ) : ((toInt32 o).toBitVec.toNat : ℤ) = o.getD 0 % 2^32 := by
  cases o with
  | none => rfl
  | some n =>
    change ((BitVec.ofInt 32 n).toNat : ℤ) = n % 2^32
    rw [BitVec.toNat_ofInt]
    omega

end

/-! ## What a time looks like -/

/-- Two digits. -/
def twoDigits (n : ℕ) : List Char := [Nat.digitChar (n / 10), Nat.digitChar (n % 10)]

/-- Three digits. -/
def threeDigits (n : ℕ) : List Char := [Nat.digitChar (n / 100), Nat.digitChar (n / 10 % 10), Nat.digitChar (n % 10)]

/-- What the directives print, as C does. The year of a century has two digits. -/
def shown (m : Moment) (c : Char) : List Char :=
  let weekday := WDAY.getD m.date.weekday.toNat []
  let month := MON.getD m.date.month []
  let mday := if m.date.day < 10 then [' ', Nat.digitChar m.date.day.toNat] else twoDigits m.date.day.toNat
  let clock := twoDigits m.hour.toNat ++ ':' :: twoDigits m.min.toNat ++ ':' :: twoDigits m.sec.toNat
  match c with
  | 'Y' => intStr m.date.year
  | 'y' => twoDigits (m.date.year.natAbs % 100)
  | 'm' => twoDigits (m.date.month + 1)
  | 'd' => twoDigits m.date.day.toNat
  | 'e' => mday
  | 'H' => twoDigits m.hour.toNat
  | 'I' => twoDigits (if m.hour % 12 = 0 then 12 else (m.hour % 12).toNat)
  | 'M' => twoDigits m.min.toNat
  | 'S' => twoDigits m.sec.toNat
  | 'j' => threeDigits m.date.dayOfYear.toNat
  | 'w' => [Nat.digitChar m.date.weekday.toNat]
  | 'a' => weekday.take 3
  | 'A' => weekday
  | 'b' | 'h' => month.take 3
  | 'B' => month
  | 'p' => if m.hour < 12 then ['A', 'M'] else ['P', 'M']
  | 'c' => weekday.take 3 ++ ' ' :: month.take 3 ++ ' ' :: mday ++ ' ' :: clock ++ ' ' :: intStr m.date.year
  | 'x' => twoDigits (m.date.month + 1) ++ '/' :: twoDigits m.date.day.toNat ++ '/' :: twoDigits (m.date.year.natAbs % 100)
  | 'X' => clock
  | '%' => ['%']
  | c => ['%', c]

/-- The format for UTC begins with a mark. -/
def mark (utc : Bool) (fmt : List Char) : List Char := if utc then '!' :: fmt else fmt

/-- The table and every directive show a time. -/
structure Shows (zone : Zone) (utc : Bool) (t : ℤ) (m : Moment) : Prop where
  table : ∀ buf : FmtBuf, ∃ tb, builtinOsDate zone (some (mark utc ['*', 't'])) t buf = some (.table tb) ∧
    tb.year.toInt = m.date.year ∧ tb.month.toInt = m.date.month + 1 ∧ tb.day.toInt = m.date.day ∧
    tb.hour.toInt = m.hour ∧ tb.min.toInt = m.min ∧ tb.sec.toInt = m.sec ∧
    tb.wday.toInt = m.date.weekday + 1 ∧ tb.yday.toInt = m.date.dayOfYear
  directive : ∀ (buf : FmtBuf) (c : Char), builtinOsDate zone (some (mark utc ['%', c])) t buf =
    some (.str ((shown m c).map fun c => UInt8.ofNat c.toNat))

/-- What `os.date` shows is the time that it is, in UTC or in local time. -/
def Consistent (zone : Zone) (utc : Bool) (t : TimeValue) : Prop :=
  ∃ m : Moment, m.number = split zone utc t / 1000 ∧ Shows zone utc t m

section

variable {zone : Zone} {utc : Bool} {t : ℤ} {m : Moment} {n : ℤ}

/-- The getters give the fields of the time. -/
theorem get_eq (hm : m.number = split zone utc t / 1000) : m.date = dateOf (split zone utc t) ∧
    get zone utc t .H = m.hour ∧ get zone utc t .M = m.min ∧ get zone utc t .S = m.sec := by
  have hm' : m = .ofNumber (split zone utc t / 1000) := by rw [← hm, Moment.ofNumber_number]
  rw [hm']
  refine ⟨?_, ?_, ?_, ?_⟩
  · change Gregorian.Date.ofNumber _ = .ofNumber _
    unfold day msPerDay
    congr 1
    omega
  · change split zone utc t / 3600000 % 24 = split zone utc t / 1000 / 3600 % 24
    omega
  · change split zone utc t / 60000 % 60 = split zone utc t / 1000 / 60 % 60
    omega
  · change split zone utc t / 1000 % 60 = _
    rfl

theorem get_date (hdate : m.date = dateOf (split zone utc t)) : get zone utc t .Y = m.date.year ∧
    get zone utc t .m = m.date.month + 1 ∧ get zone utc t .d = m.date.day ∧ get zone utc t .w = m.date.weekday := by
  rw [hdate, ← yearFromTime_eq, ← monthFromTime_eq, ← dateFromTime_eq, ← weekDay_eq]
  exact ⟨rfl, rfl, rfl, rfl⟩

/-- The table has the fields without their signs. -/
theorem table_eq (buf : FmtBuf) : ∃ tb, builtinOsDate zone (some (mark utc ['*', 't'])) t buf = some (.table tb) ∧
    tb.year.toInt = get zone utc t .Y % 2^32 ∧ tb.month.toInt = get zone utc t .m % 2^32 ∧
    tb.day.toInt = get zone utc t .d % 2^32 ∧ tb.hour.toInt = get zone utc t .H % 2^32 ∧
    tb.min.toInt = get zone utc t .M % 2^32 ∧ tb.sec.toInt = get zone utc t .S % 2^32 ∧
    tb.wday.toInt = (get zone utc t .w + 1) % 2^32 ∧ tb.yday.toInt = (yday zone utc t).getD 0 % 2^32 := by
  obtain ⟨old, r, hbuf, hold⟩ : ∃ old r, buf.val = old ++ r ∧ old.length = 36 :=
    ⟨buf.val.take 36, buf.val.drop 36, (List.take_append_drop _ _).symm, by
      rw [List.length_take, buf.property]
      rfl⟩
  have hwrite := @writeFields_eq r ((fields zone utc t).map toInt32) 0 [] old rfl hold
  have hdate : osDate zone (some (mark utc ['*', 't'])) t buf =
      (writeFields 0 buf ((fields zone utc t).map toInt32)).bind fun buf => some (-1, buf) := by
    cases utc <;> rfl
  rw [List.nil_append, List.nil_append, ← hbuf] at hwrite
  obtain ⟨buf', hbuf'⟩ : ∃ buf', buf' = ((fields zone utc t).map toInt32).flatMap leBytes ++ r := ⟨_, rfl⟩
  have hfield : ∀ (us : List Int32) {ws : List Int32} {v : Int32} (n : ℕ), (fields zone utc t).map toInt32 = us ++ v :: ws →
      us.length = n → n ≤ 8 → packReadInt buf' (n * 4) 4 true = some (v.toBitVec.setWidth 64) := by
    intro us ws v n hvs hn hle
    rw [hbuf', hvs, List.flatMap_append, List.flatMap_cons, List.append_assoc, List.append_assoc]
    exact dateField_eq (by rw [length_leBytes, hn]) hle
  have h₀ := hfield [] 0 rfl rfl (by decide)
  have h₁ := hfield [_] 1 rfl rfl (by decide)
  have h₂ := hfield [_, _] 2 rfl rfl (by decide)
  have h₃ := hfield [_, _, _] 3 rfl rfl (by decide)
  have h₄ := hfield [_, _, _, _] 4 rfl rfl (by decide)
  have h₅ := hfield [_, _, _, _, _] 5 rfl rfl (by decide)
  have h₆ := hfield [_, _, _, _, _, _] 6 rfl rfl (by decide)
  have h₇ := hfield [_, _, _, _, _, _, _] 7 rfl rfl (by decide)
  have h₈ := hfield [_, _, _, _, _, _, _, _] 8 rfl rfl (by decide)
  unfold builtinOsDate
  rw [hdate, hwrite, ← hbuf']
  change ∃ tb, (dateTable buf').map DateValue.table = some (.table tb) ∧ _
  unfold dateTable dateField
  simp only [Option.bind_eq_bind, Option.bind_some, h₀, h₁, h₂, h₃, h₄, h₅, h₆, h₇, Option.map_some]
  rw [show packReadInt buf' 32 4 true = _ from h₈]
  refine ⟨_, rfl, ?_⟩
  simp only [toInt_setWidth, toNat_toInt32]
  exact ⟨rfl, rfl, rfl, rfl, rfl, rfl, rfl, trivial⟩

/-! ## The directives -/

theorem intStr_of_nonneg (h : 0 ≤ n) : intStr n = Nat.toDigits 10 n.toNat := by
  unfold intStr
  rw [if_neg (by omega), show n.natAbs = n.toNat by omega]

theorem toDigits_two {k : ℕ} (hlo : 10 ≤ k) (hhi : k < 100) : Nat.toDigits 10 k = twoDigits k := by
  rw [Nat.toDigits_of_base_le (by decide) hlo, Nat.toDigits_of_lt_base (by omega)]
  rfl

theorem pad2_eq (hlo : 0 ≤ n) (hhi : n < 100) : pad2 n = twoDigits n.toNat := by
  unfold pad2
  rw [intStr_of_nonneg hlo]
  split_ifs with h
  · rw [Nat.toDigits_of_lt_base (by omega)]
    unfold twoDigits
    rw [Nat.div_eq_of_lt (by omega), Nat.mod_eq_of_lt (by omega)]
    rfl
  · exact toDigits_two (by omega) (by omega)

theorem pad2sp_eq (hlo : 0 ≤ n) (hhi : n < 100) :
    pad2sp n = if n < 10 then [' ', Nat.digitChar n.toNat] else twoDigits n.toNat := by
  unfold pad2sp
  rw [intStr_of_nonneg hlo]
  split_ifs with h
  · rw [Nat.toDigits_of_lt_base (by omega)]
  · exact toDigits_two (by omega) (by omega)

theorem ydayStr_eq (h : yday zone utc t = some n) (hlo : 0 ≤ n) (hhi : n < 1000) :
    ydayStr zone utc t = threeDigits n.toNat := by
  unfold ydayStr
  rw [h]
  dsimp only
  rw [intStr_of_nonneg hlo]
  have hlt : n.toNat < 1000 := by omega
  generalize n.toNat = k at *
  unfold threeDigits
  obtain h₁ | h₁ := Nat.lt_or_ge k 10
  · rw [Nat.toDigits_of_lt_base h₁, Nat.div_eq_of_lt (by omega), Nat.div_eq_of_lt h₁, Nat.mod_eq_of_lt h₁]
    rfl
  · obtain h₂ | h₂ := Nat.lt_or_ge k 100
    · rw [toDigits_two h₁ h₂, Nat.div_eq_of_lt h₂, Nat.mod_eq_of_lt (show k / 10 < 10 by omega)]
      rfl
    · rw [Nat.toDigits_of_base_le (by decide) h₁, toDigits_two (by omega) (by omega)]
      unfold twoDigits
      rw [Nat.div_div_eq_div_mul]
      rfl

/-- The text of a directive is in the buffer, up to its end. -/
theorem directive_eq (buf : FmtBuf) (c : Char) : builtinOsDate zone (some (mark utc ['%', c])) t buf =
    some (.str (((if c = '\n' ∨ c = '\r' then ['%', c] else replacement zone utc t c).map
      fun c => UInt8.ofNat c.toNat).take fmtBufCap)) := by
  have hdate : osDate zone (some (mark utc ['%', c])) t buf = some (writeFmtBuf buf (replaceAll zone utc t ['%', c])) := by
    cases utc <;> rfl
  have hall : replaceAll zone utc t ['%', c] =
      if c = '\n' ∨ c = '\r' then ['%', c] else replacement zone utc t c := List.append_nil _
  have hwrite : ∀ s : List Char, ∃ buf' : List UInt8, ∃ n : ℕ, writeFmtBuf buf s = ((n : ℤ), buf') ∧
      buf'.take n = (s.map fun c => UInt8.ofNat c.toNat).take fmtBufCap := by
    intro s
    refine ⟨_, _, rfl, ?_⟩
    rw [List.take_append_of_le_length (by rw [List.length_take]; omega), List.take_take, List.take_eq_take_iff]
    omega
  obtain ⟨buf', n, heq, htake⟩ := hwrite (if c = '\n' ∨ c = '\r' then ['%', c] else replacement zone utc t c)
  unfold builtinOsDate
  rw [hdate, hall, heq, ← htake]
  change (if 0 ≤ (n : ℤ) then some (DateValue.str (buf'.take (n : ℤ).toNat)) else (dateTable buf').map .table) = _
  rw [if_pos (Int.natCast_nonneg n), Int.toNat_natCast]

theorem date_ranges (d : Gregorian.Date) :
    d.day ≤ 31 ∧ Gregorian.yearLength d.year ≤ 366 ∧ 0 ≤ d.weekday ∧ d.weekday < 7 := by
  refine ⟨d.day_le.trans (by unfold monthLength; split_ifs <;> decide), Gregorian.yearLength_le _, ?_⟩
  unfold Gregorian.Date.weekday
  omega

/-- A directive prints what it is to show. -/
theorem replacement_eq (hm : m.number = split zone utc t / 1000) (hyear : 0 ≤ m.date.year)
    (hyday : yday zone utc t = some m.date.dayOfYear) (c : Char) : replacement zone utc t c = shown m c := by
  obtain ⟨hdate, hH, hM, hS⟩ := get_eq hm
  obtain ⟨hY, hm', hd, hw⟩ := get_date hdate
  have hhour := m.hour_range
  have hmin := m.min_range
  have hsec := m.sec_range
  have hmonth := m.date.month_lt
  have hday := m.date.day_pos
  obtain ⟨hday', hdoy', hwday⟩ := date_ranges m.date
  have hdoy := m.date.dayOfYear_bounds
  have hY2 : pad2 (m.date.year.tmod 100) = twoDigits (m.date.year.natAbs % 100) := by
    rw [Int.tmod_eq_emod_of_nonneg hyear, pad2_eq (by omega) (by omega)]
    congr 1
    omega
  have hm2 : pad2 ((m.date.month : ℤ) + 1) = twoDigits (m.date.month + 1) := by
    rw [pad2_eq (by omega) (by omega)]
    congr 1
  have hd2 := @pad2_eq m.date.day (by omega) (by omega)
  have hd2' := @pad2sp_eq m.date.day (by omega) (by omega)
  have hH2 := @pad2_eq m.hour (by omega) (by omega)
  have hM2 := @pad2_eq m.min (by omega) (by omega)
  have hS2 := @pad2_eq m.sec (by omega) (by omega)
  have hj := ydayStr_eq hyday (by omega) (by omega)
  have hI2 : pad2 (hour12 zone utc t) = twoDigits (if m.hour % 12 = 0 then 12 else (m.hour % 12).toNat) := by
    unfold hour12
    dsimp only
    rw [hH, Int.tmod_eq_emod_of_nonneg hhour.1]
    split_ifs
    · rfl
    · exact pad2_eq (by omega) (by omega)
  have hw1 : intStr m.date.weekday = [Nat.digitChar m.date.weekday.toNat] := by
    rw [intStr_of_nonneg hwday.1, Nat.toDigits_of_lt_base (by omega)]
  have hwn : weekdayName zone utc t = WDAY.getD m.date.weekday.toNat [] := by
    unfold weekdayName
    rw [hw]
    rfl
  have hmn : monthName zone utc t = MON.getD m.date.month [] := by
    unfold monthName
    rw [hm', Int.add_sub_cancel, Int.toNat_natCast]
    rfl
  unfold replacement shown
  dsimp only
  rw [hY, hm', hd, hw, hH, hM, hS, hY2, hm2, hd2, hd2', hH2, hM2, hS2, hj, hI2, hw1, hwn, hmn]
  split <;> first
    | rfl
    -- the text of `%c` is grouped in another way
    | simp only [List.append_assoc, List.cons_append]

theorem length_shown (hlo : 0 ≤ m.date.year) (hhi : m.date.year < 10^6) (c : Char) :
    (shown m c).length ≤ fmtBufCap := by
  have hY : (intStr m.date.year).length ≤ 6 := by
    rw [intStr_of_nonneg hlo, Nat.length_toDigits_le_iff (by decide) (by decide)]
    omega
  have hnames : ∀ (names : List (List Char)) (i : ℕ), (∀ s ∈ names, s.length ≤ 9) → (names.getD i []).length ≤ 9 := by
    intro names i h
    rw [List.getD_eq_getElem?_getD]
    cases hi : names[i]? with
    | none => exact Nat.zero_le _
    | some s => exact h s (List.mem_of_getElem? hi)
  have hw := hnames WDAY m.date.weekday.toNat (by decide)
  have hmo := hnames MON m.date.month (by decide)
  have hmday : (if m.date.day < 10 then [' ', Nat.digitChar m.date.day.toNat] else twoDigits m.date.day.toNat).length = 2 := by
    split_ifs <;> rfl
  have htwo : ∀ k, (twoDigits k).length = 2 := fun _ => rfl
  have hthree : ∀ k, (threeDigits k).length = 3 := fun _ => rfl
  have hhalf : (if m.hour < 12 then ['A', 'M'] else ['P', 'M']).length = 2 := by
    split_ifs <;> rfl
  have hcap : 40 ≤ fmtBufCap := by decide
  unfold shown
  dsimp only
  split
  all_goals
    try simp only [List.length_append, List.length_cons, List.length_nil, List.length_take, hmday, htwo, hthree, hhalf]
    omega

/-- No year of a `Date` has more digits. -/
theorem year_lt (zone : Zone) (utc : Bool) (t : TimeValue) : (dateOf (split zone utc t)).year < 10^6 := by
  have hbound := abs_le.mp t.property
  have hoff := abs_lt.mp (zone.offset_lt t)
  have hday : day (split zone utc t) ≤ 100000001 := by
    unfold day split
    unfold maxTime at hbound
    unfold msPerDay at *
    split_ifs <;> omega
  have hlast : yearOf 100000001 = 275760 := by decide
  have hle := Gregorian.yearOf_mono hday
  change yearOf (day (split zone utc t)) < _
  omega

end

/-- What the table shows says that the year is not negative, and which day the number has to be. -/
theorem Consistent.yday_eq {zone : Zone} {utc : Bool} {t : TimeValue} (h : Consistent zone utc t) :
    0 ≤ (dateOf (split zone utc t)).year ∧ yday zone utc t = some (dateOf (split zone utc t)).dayOfYear := by
  obtain ⟨m, hm, hshows⟩ := h
  obtain ⟨hdate, -⟩ := get_eq hm
  obtain ⟨tb, htb, hyear, -, -, -, -, -, -, hyday⟩ := hshows.table ⟨List.replicate fmtBufCap 0, List.length_replicate⟩
  obtain ⟨tb', htb', hyear', -, -, -, -, -, -, hyday'⟩ :=
    @table_eq zone utc t ⟨List.replicate fmtBufCap 0, List.length_replicate⟩
  obtain rfl : tb = tb' := by
    rw [htb] at htb'
    exact DateValue.table.inj (Option.some.inj htb')
  rw [hdate] at hyear hyday
  have hdoy := (dateOf (split zone utc t)).dayOfYear_bounds
  refine ⟨by omega, ?_⟩
  cases hd : yday zone utc t with
  | none =>
    rw [hd] at hyday'
    change _ = 0 % 2^32 at hyday'
    omega
  | some v =>
    have hv := abs_lt.mp (yday_bound zone utc t hd)
    have hlength := Gregorian.yearLength_le (dateOf (split zone utc t)).year
    rw [hd] at hyday'
    change _ = v % 2^32 at hyday'
    congr 1
    omega

/-- With these, the table and the directives show the time. -/
theorem consistent_of_yday {zone : Zone} {utc : Bool} {t : TimeValue} (hyear : 0 ≤ (dateOf (split zone utc t)).year)
    (hyday : yday zone utc t = some (dateOf (split zone utc t)).dayOfYear) : Consistent zone utc t := by
  have hm : (Moment.ofNumber (split zone utc t / 1000)).number = split zone utc t / 1000 := Moment.number_ofNumber _
  generalize Moment.ofNumber (split zone utc t / 1000) = m at hm
  obtain ⟨hdate, hH, hM, hS⟩ := get_eq hm
  obtain ⟨hY, hmonth, hd, hw⟩ := get_date hdate
  have hlt := year_lt zone utc t
  rw [← hdate] at hyear hyday hlt
  refine ⟨m, hm, fun buf => ?_, fun buf c => ?_⟩
  · obtain ⟨tb, htb, h₁, h₂, h₃, h₄, h₅, h₆, h₇, h₈⟩ := @table_eq zone utc t buf
    have hhour := m.hour_range
    have hmin := m.min_range
    have hsec := m.sec_range
    have hlast := m.date.month_lt
    have hday := m.date.day_pos
    obtain ⟨hday', hlength, hwday⟩ := date_ranges m.date
    have hdoy := m.date.dayOfYear_bounds
    rw [hyday, Option.getD_some] at h₈
    rw [hY] at h₁
    rw [hmonth] at h₂
    rw [hd] at h₃
    rw [hH] at h₄
    rw [hM] at h₅
    rw [hS] at h₆
    rw [hw] at h₇
    refine ⟨tb, htb, ?_, ?_, ?_, ?_, ?_, ?_, ?_, ?_⟩ <;> omega
  · have htext := replacement_eq hm hyear hyday c
    have hshown : (if c = '\n' ∨ c = '\r' then ['%', c] else replacement zone utc t c) = shown m c := by
      rw [htext]
      split_ifs with hline
      · obtain rfl | rfl := hline <;> rfl
      · rfl
    rw [directive_eq, hshown, List.take_of_length_le (by rw [List.length_map]; exact length_shown hyear hlt c)]

/-- `os.date` shows the time that it is exactly when the year is not negative and the distance of the two midnights has
the days of the year in it. -/
theorem consistent_iff (zone : Zone) (utc : Bool) (t : TimeValue) : Consistent zone utc t ↔
    0 ≤ (dateOf (split zone utc t)).year ∧ Counted zone utc (dateOf (split zone utc t)) := by
  rw [← yday_iff]
  exact ⟨fun h => h.yday_eq, fun h => consistent_of_yday h.1 h.2⟩

/-- A zone where the clock was put forward by an hour in March 2024. -/
def summerZone : Zone where
  offset t := if t < 1711846800000 then 0 else 3600000
  instant l := if l - 3600000 < 1711846800000 then l else l - 3600000
  offset_lt t := by
    unfold msPerDay
    split_ifs <;> decide
  occurring l t h := by
    split_ifs at * <;> omega
  skipped l h := by
    refine ⟨1711846800000, ?_⟩
    have h₁ := h l
    have h₂ := h (l - 3600000)
    split_ifs at * <;> omega

/-- The first of July 2024 is said to be the day 182 there, and it is the day 183. -/
theorem not_consistent_july : ¬Consistent summerZone false ⟨1719792000000, by decide⟩ := by
  intro h
  have hyday : yday summerZone false 1719792000000 = some 182 := by decide
  have hday : (dateOf (split summerZone false 1719792000000)).dayOfYear = 183 := by decide
  have heq := h.yday_eq.2
  rw [hyday, hday] at heq
  exact absurd heq (by decide)

end Lua2wasm.Os
