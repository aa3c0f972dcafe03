import Lintel.Data

/-!
# The clock

A clock counts the seconds since the first of January 1970. `Moment.ofSeconds` gives the day and
the time of day. To find the day, years are taken to begin in March, so that a leap day is the
last day of its year.
-/

namespace Lintel

/-- The days of four hundred years. -/
def Day.eraLength : Nat := 146097

/-- The day that is so many days after the first of January 1970. -/
def Day.ofNumber (n : Nat) : Day :=
  let fromMarch := n + 719468
  let inEra := fromMarch % eraLength
  let yearOfEra := (inEra - inEra / 1460 + inEra / 36524 - inEra / 146096) / 365
  let inYear := inEra - (365 * yearOfEra + yearOfEra / 4 - yearOfEra / 100)
  let month := (5 * inYear + 2) / 153
  let late := decide (10 ≤ month)
  { year := fromMarch / eraLength * 400 + yearOfEra + if late then 1 else 0
    month := if late then month - 9 else month + 3
    day := inYear - (153 * month + 2) / 5 + 1 }

/-- The moment so many seconds after the beginning of 1970, without its zone. -/
def Moment.ofSeconds (n : Nat) : Moment :=
  let rest := n % 86400
  ⟨Day.ofNumber (n / 86400), rest / 3600, rest / 60 % 60, rest % 60, 0, none⟩

example : Day.ofNumber 0 = ⟨1970, 1, 1⟩ := by decide

example : Moment.ofSeconds 946782245 = ⟨⟨2000, 1, 2⟩, 3, 4, 5, 0, none⟩ := by decide

example : Day.ofNumber 11016 = ⟨2000, 2, 29⟩ := by decide

end Lintel
