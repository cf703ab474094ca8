import NineP.Attributes
import NineP.Text.Numeral

/-!
# Calendar times

A point in time as a date and a time of day in UTC, in the Gregorian calendar
without leap seconds in the count. A leap second is the second after a minute's
last one; it is told by a nanosecond count of a whole second or more.

Times beyond the calendar's range collapse to the start of 1970.

* `instant_nsec_lt`: the nanoseconds of a calendar time are less than two
  seconds, and less than one unless a minute ends.
-/

namespace NineP

/-- A point in time that the calendar can show. -/
structure Instant where
  sec : Nat := 0
  nsec : Nat := 0
  deriving DecidableEq, Repr, Inhabited

/-- The last second of the calendar, at the end of the year 262142. -/
def lastSecond : Nat := 8210266876799

/-- The nanoseconds of a second. -/
def nanoseconds : Nat := 1000000000

/-- Whether the calendar can show a time. -/
def Time.isShown (t : Time) : Bool :=
  t.sec.toNat ≤ lastSecond &&
    (t.nsec.toNat < nanoseconds || (t.nsec.toNat < 2 * nanoseconds && t.sec.toNat % 60 == 59))

/-- The calendar time of a point in time. -/
def Time.instant (t : Time) : Instant :=
  if t.isShown then { sec := t.sec.toNat, nsec := t.nsec.toNat } else {}

theorem Time.instant_nsec_lt (t : Time) :
    t.instant.nsec < 2 * nanoseconds ∧
      (t.instant.sec % 60 ≠ 59 → t.instant.nsec < nanoseconds) := by
  simp only [Time.instant]
  split
  · rename_i h
    simp only [Time.isShown, Bool.and_eq_true, Bool.or_eq_true, decide_eq_true_eq, beq_iff_eq] at h
    obtain ⟨-, h | ⟨h, h'⟩⟩ := h
    · exact ⟨Nat.lt_trans h (by decide), fun _ => h⟩
    · exact ⟨h, fun hn => absurd h' hn⟩
  · exact ⟨by decide, fun _ => by decide⟩

namespace Instant

/-- A day of the calendar. -/
structure Date where
  year : Nat
  month : Nat
  day : Nat
  deriving DecidableEq, Repr

/-- The date of a number of days after the first of January 1970. Years are
counted from March, so that the leap day is the last of its year, in eras of
400 years. -/
def dateOfDays (days : Nat) : Date :=
  let z := days + 719468
  let era := z / 146097
  let dayOfEra := z % 146097
  let yearOfEra := (dayOfEra - dayOfEra / 1460 + dayOfEra / 36524 - dayOfEra / 146096) / 365
  let dayOfYear := dayOfEra - (365 * yearOfEra + yearOfEra / 4 - yearOfEra / 100)
  let fromMarch := (5 * dayOfYear + 2) / 153
  let day := dayOfYear - (153 * fromMarch + 2) / 5 + 1
  let month := if fromMarch < 10 then fromMarch + 3 else fromMarch - 9
  let year := yearOfEra + era * 400 + (if month ≤ 2 then 1 else 0)
  { year, month, day }

def date (t : Instant) : Date := dateOfDays (t.sec / 86400)

def hour (t : Instant) : Nat := t.sec % 86400 / 3600

def minute (t : Instant) : Nat := t.sec % 3600 / 60

/-- The second of the minute; 60 in a leap second. -/
def second (t : Instant) : Nat := t.sec % 60 + t.nsec / nanoseconds

/-- A year, with a sign if it has more than four digits. -/
def yearText (year : Nat) : String :=
  if year > 9999 then "+" ++ toString year else Text.decimal 4 year

def dateText (t : Instant) : String :=
  let d := t.date
  yearText d.year ++ "-" ++ Text.decimal 2 d.month ++ "-" ++ Text.decimal 2 d.day

def minuteText (t : Instant) : String :=
  Text.decimal 2 t.hour ++ ":" ++ Text.decimal 2 t.minute

/-- The fraction of a second in the fewest of no, three, six or nine digits that
lose nothing. -/
def fractionText (t : Instant) : String :=
  let n := t.nsec % nanoseconds
  if n = 0 then ""
  else if n % 1000000 = 0 then "." ++ Text.decimal 3 (n / 1000000)
  else if n % 1000 = 0 then "." ++ Text.decimal 6 (n / 1000)
  else "." ++ Text.decimal 9 n

/-- Date and time of day to the minute, for listings. -/
def shortText (t : Instant) : String := t.dateText ++ " " ++ t.minuteText

/-- Date, time of day and offset from UTC in the internet date format. -/
def text (t : Instant) : String :=
  t.dateText ++ "T" ++ t.minuteText ++ ":" ++ Text.decimal 2 t.second ++ t.fractionText ++ "+00:00"

end Instant

end NineP
