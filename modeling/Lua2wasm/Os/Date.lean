import Lua2wasm.Io.File
import Lua2wasm.Lib.Gregorian
import Lua2wasm.Pack.Ints

/-!
# `os.date`

`osDate` of `runtime/host-bindings.mjs`, and `$builtin_os_date` of `runtime/prelude/os.wat`, which makes a string or a
table of what `osDate` leaves in `$fmt_buf`. The date is given as its time value, the milliseconds since 1970; that is a
number here, so a `Date` without one is left out.

`Date` itself is that of ECMAScript: time values are split into fields as if all days had the same length, and local
times are time values that are shifted by the offset of the zone. A zone is a parameter.
-/

namespace Lua2wasm.Os

open Gregorian (Leap yearOf yearStart monthStart)
open Table (setAt)
open Pack (packReadInt)
open Io (fmtBufCap)

/-! ## `Date` -/

/-- `msPerDay`. -/
def msPerDay : ℤ := 86400000

/-- The largest time value. -/
def maxTime : ℤ := 8640000000000000

/-- What a `Date` can represent. -/
abbrev TimeValue := {t : ℤ // |t| ≤ maxTime}

/-- `TimeClip`, where none is `NaN`. -/
def timeClip (t : ℤ) : Option ℤ := if |t| ≤ maxTime then some t else none

/-- `Day`. -/
def day (t : ℤ) : ℤ := t / msPerDay

/-- `YearFromTime`. -/
def yearFromTime (t : ℤ) : ℤ := yearOf (day t)

/-- `DayWithinYear`. -/
def dayWithinYear (t : ℤ) : ℤ := day t - yearStart (yearFromTime t)

/-- `InLeapYear`. -/
def inLeapYear (t : ℤ) : ℤ := if Leap (yearFromTime t) then 1 else 0

/-- `MonthFromTime`. -/
def monthFromTime (t : ℤ) : ℕ :=
  let d := dayWithinYear t
  let leap := inLeapYear t
  if d < 31 then 0
  else if d < 59 + leap then 1
  else if d < 90 + leap then 2
  else if d < 120 + leap then 3
  else if d < 151 + leap then 4
  else if d < 181 + leap then 5
  else if d < 212 + leap then 6
  else if d < 243 + leap then 7
  else if d < 273 + leap then 8
  else if d < 304 + leap then 9
  else if d < 334 + leap then 10
  else 11

/-- `DateFromTime`. -/
def dateFromTime (t : ℤ) : ℤ :=
  let d := dayWithinYear t
  let leap := inLeapYear t
  match monthFromTime t with
  | 0 => d + 1
  | 1 => d - 30
  | 2 => d - 58 - leap
  | 3 => d - 89 - leap
  | 4 => d - 119 - leap
  | 5 => d - 150 - leap
  | 6 => d - 180 - leap
  | 7 => d - 211 - leap
  | 8 => d - 242 - leap
  | 9 => d - 272 - leap
  | 10 => d - 303 - leap
  | _ => d - 333 - leap

/-- `WeekDay`. -/
def weekDay (t : ℤ) : ℤ := (day t + 4) % 7

/-- `HourFromTime`. -/
def hourFromTime (t : ℤ) : ℤ := t / 3600000 % 24

/-- `MinFromTime`. -/
def minFromTime (t : ℤ) : ℤ := t / 60000 % 60

/-- `SecFromTime`. -/
def secFromTime (t : ℤ) : ℤ := t / 1000 % 60

/-- `MakeFullYear`. -/
def makeFullYear (y : ℤ) : ℤ := if 0 ≤ y ∧ y ≤ 99 then 1900 + y else y

/-- `MakeDay`, of a month that there is. -/
def makeDay (y : ℤ) (month : ℕ) (date : ℤ) : ℤ := yearStart y + monthStart y month + date - 1

/-- A time zone: the offset of its local time at each instant, and the instant that is taken for a local time. Of two
instants it is the first; a local time that is skipped is taken with the offset from before. -/
structure Zone where
  offset : ℤ → ℤ
  instant : ℤ → ℤ
  offset_lt : ∀ t, |offset t| < msPerDay
  occurring : ∀ l t, t + offset t = l → instant l + offset (instant l) = l ∧ instant l ≤ t
  skipped : ∀ l, (∀ t, t + offset t ≠ l) →
    ∃ b, b - 1 + offset (b - 1) < l ∧ l < b + offset b ∧ instant l = l - offset (b - 1)

/-- `Date.UTC` of a date. -/
def dateUTC (y : ℤ) (month : ℕ) (date : ℤ) : Option ℤ := timeClip (makeDay (makeFullYear y) month date * msPerDay)

/-- `new Date` of a date. -/
def newDate (zone : Zone) (y : ℤ) (month : ℕ) (date : ℤ) : Option ℤ :=
  timeClip (zone.instant (makeDay (makeFullYear y) month date * msPerDay))

/-! ## `osDate` -/

/-- A number as a text. -/
def intStr (n : ℤ) : List Char := if n < 0 then '-' :: Nat.toDigits 10 n.natAbs else Nat.toDigits 10 n.natAbs

/-- `pad2`. -/
def pad2 (n : ℤ) : List Char := if n < 10 then '0' :: intStr n else intStr n

/-- `pad2sp`. -/
def pad2sp (n : ℤ) : List Char := if n < 10 then ' ' :: intStr n else intStr n

/-- `WDAY`. -/
def WDAY : List (List Char) :=
  ["Sunday".toList, "Monday".toList, "Tuesday".toList, "Wednesday".toList, "Thursday".toList, "Friday".toList,
    "Saturday".toList]

/-- `MON`. -/
def MON : List (List Char) :=
  ["January".toList, "February".toList, "March".toList, "April".toList, "May".toList, "June".toList, "July".toList,
    "August".toList, "September".toList, "October".toList, "November".toList, "December".toList]

/-- The argument of `get`. -/
inductive Kind where
  | Y | m | d | H | M | S | w

section

variable (zone : Zone) (useUTC : Bool) (dt : ℤ)

/-- What the getters of the date split: `LocalTime`, or the time value itself. -/
def split : ℤ := if useUTC then dt else dt + zone.offset dt

/-- `get`. -/
def get : Kind → ℤ
  | .Y => yearFromTime (split zone useUTC dt)
  | .m => monthFromTime (split zone useUTC dt) + 1
  | .d => dateFromTime (split zone useUTC dt)
  | .H => hourFromTime (split zone useUTC dt)
  | .M => minFromTime (split zone useUTC dt)
  | .S => secFromTime (split zone useUTC dt)
  | .w => weekDay (split zone useUTC dt)

/-- `yday`. -/
def yday : Option ℤ := do
  let y := yearFromTime (split zone useUTC dt)
  let month := monthFromTime (split zone useUTC dt)
  let date := dateFromTime (split zone useUTC dt)
  let start ← if useUTC then dateUTC y 0 1 else newDate zone y 0 1
  let now ← if useUTC then dateUTC y month date else newDate zone y month date
  some ((now - start) / 86400000 + 1)

/-- The comparison of `getTimezoneOffset`, which has the opposite sign. That of no date is never larger. -/
def isdst : ℤ :=
  if useUTC then 0
  else match newDate zone (yearFromTime (split zone useUTC dt)) 0 1 with
    | some january => if zone.offset january < zone.offset dt then 1 else 0
    | none => 0

/-- The fields of `*t`. -/
def fields : List (Option ℤ) :=
  let get := get zone useUTC dt
  [some (get .Y), some (get .m), some (get .d), some (get .H), some (get .M), some (get .S), some (get .w + 1),
    yday zone useUTC dt, some (isdst zone useUTC dt)]

/-- `hour12`. -/
def hour12 : ℤ := let h := (get zone useUTC dt .H).tmod 12; if h = 0 then 12 else h

/-- `WDAY[get("w")]`. -/
def weekdayName : List Char := (WDAY[(get zone useUTC dt .w).toNat]?).getD []

/-- `MON[get("m") - 1]`. -/
def monthName : List Char := (MON[(get zone useUTC dt .m - 1).toNat]?).getD []

/-- `yday` with three digits. -/
def ydayStr : List Char :=
  let s := match yday zone useUTC dt with
    | some n => intStr n
    | none => ['N', 'a', 'N']
  List.replicate (3 - s.length) '0' ++ s

/-- The replacement for a directive. -/
def replacement (c : Char) : List Char :=
  let get := get zone useUTC dt
  match c with
  | 'Y' => intStr (get .Y)
  | 'y' => pad2 ((get .Y).tmod 100)
  | 'm' => pad2 (get .m)
  | 'd' => pad2 (get .d)
  | 'e' => pad2sp (get .d)
  | 'H' => pad2 (get .H)
  | 'I' => pad2 (hour12 zone useUTC dt)
  | 'M' => pad2 (get .M)
  | 'S' => pad2 (get .S)
  | 'j' => ydayStr zone useUTC dt
  | 'w' => intStr (get .w)
  | 'a' => (weekdayName zone useUTC dt).take 3
  | 'A' => weekdayName zone useUTC dt
  | 'b' | 'h' => (monthName zone useUTC dt).take 3
  | 'B' => monthName zone useUTC dt
  | 'p' => if get .H < 12 then ['A', 'M'] else ['P', 'M']
  | 'c' => (weekdayName zone useUTC dt).take 3 ++ ' ' :: (monthName zone useUTC dt).take 3 ++ ' ' :: pad2sp (get .d) ++
      ' ' :: pad2 (get .H) ++ ':' :: pad2 (get .M) ++ ':' :: pad2 (get .S) ++ ' ' :: intStr (get .Y)
  | 'x' => pad2 (get .m) ++ '/' :: pad2 (get .d) ++ '/' :: pad2 ((get .Y).tmod 100)
  | 'X' => pad2 (get .H) ++ ':' :: pad2 (get .M) ++ ':' :: pad2 (get .S)
  | '%' => ['%']
  | c => ['%', c]

/-- `body.replace`. The dot of the pattern is not the end of a line. -/
def replaceAll : List Char → List Char
  | '%' :: c :: s => (if c = '\n' ∨ c = '\r' then ['%', c] else replacement zone useUTC dt c) ++ replaceAll s
  | c :: s => c :: replaceAll s
  | [] => []

end

/-- `fields[i] | 0`. -/
def toInt32 : Option ℤ → Int32
  | some n => Int32.ofInt n
  | none => 0

/-- The low byte of `v >>> 8 * k`. -/
def byteOf (v : Int32) (k : ℕ) : UInt8 := UInt8.ofBitVec ((v.toBitVec >>> (k * 8)).setWidth 8)

/-- The loop that writes the fields, from one on. -/
def writeFields (i : ℕ) (buf : List UInt8) : List Int32 → Option (List UInt8)
  | [] => some buf
  | v :: fields => do
    let o := i * 4
    let buf ← setAt buf o (byteOf v 0)
    let buf ← setAt buf (o + 1) (byteOf v 1)
    let buf ← setAt buf (o + 2) (byteOf v 2)
    let buf ← setAt buf (o + 3) (byteOf v 3)
    writeFields (i + 1) buf fields

/-- `writeFmtBuf`: how many bytes there are, and the buffer. -/
def writeFmtBuf (buf : List UInt8) (s : List Char) : ℤ × List UInt8 :=
  let bytes := s.map fun c => UInt8.ofNat c.toNat
  let n := min bytes.length fmtBufCap
  (n, bytes.take n ++ buf.drop n)

/-- `osDate`, with what is in `$fmt_buf` before and after. A trap is none. -/
def osDate (zone : Zone) (fmt : Option (List Char)) (dt : ℤ) (buf : List UInt8) : Option (ℤ × List UInt8) :=
  let fmtStr := fmt.getD ['%', 'c']
  let useUTC := fmtStr.head? = some '!'
  let body := if useUTC then fmtStr.tail else fmtStr
  if body = ['*', 't'] then do
    let buf ← writeFields 0 buf ((fields zone useUTC dt).map toInt32)
    some (-1, buf)
  else some (writeFmtBuf buf (replaceAll zone useUTC dt body))

/-! ## `$builtin_os_date` -/

/-- The table for `*t`. -/
structure DateTable where
  year : Int64
  month : Int64
  day : Int64
  hour : Int64
  min : Int64
  sec : Int64
  wday : Int64
  yday : Int64
  isdst : Bool

/-- What `os.date` returns. -/
inductive DateValue where
  | str (s : List UInt8)
  | table (t : DateTable)

/-- The integer that `$os_date_set_int` makes. -/
def dateField (buf : List UInt8) (idx : ℕ) : Option Int64 := (packReadInt buf (idx * 4) 4 true).map Int64.ofBitVec

/-- The table of the fields in `$fmt_buf`. -/
def dateTable (buf : List UInt8) : Option DateTable := do
  let year ← dateField buf 0
  let month ← dateField buf 1
  let day ← dateField buf 2
  let hour ← dateField buf 3
  let min ← dateField buf 4
  let sec ← dateField buf 5
  let wday ← dateField buf 6
  let yday ← dateField buf 7
  let dst ← packReadInt buf 32 4 true
  some ⟨year, month, day, hour, min, sec, wday, yday, dst.setWidth 32 ≠ 0⟩

/-- `$builtin_os_date`. -/
def builtinOsDate (zone : Zone) (fmt : Option (List Char)) (dt : ℤ) (buf : List UInt8) : Option DateValue := do
  let (written, buf) ← osDate zone fmt dt buf
  if 0 ≤ written then some (.str (buf.take written.toNat)) else (dateTable buf).map .table

end Lua2wasm.Os
