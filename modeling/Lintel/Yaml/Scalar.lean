import Lintel.Data.Spelling
import Lintel.Number.Decimal
import Lintel.Text.Lower
import Lintel.Yaml.Cursor
import Lintel.Yaml.Plain

/-!
# The data of scalars

What the text of a scalar stands for, given the kind of data that is asked for. A scalar that was
written plain has the form that its kind demands, but a tag can ask for any kind, and then more is
accepted than the language says: numbers with blanks around them, with digits of other scripts,
with two signs. What is not accepted is refused, mostly with a message that shows the text.

Numbers may be written in several bases. A day or a time of day that does not exist is refused.
-/

namespace Lintel

namespace Yaml

/-! ### Numbers -/

/-- The most characters of a quoted text that a message about a whole number shows. -/
def shownLimit : Nat := 200

/-- The words for a text that is not a whole number in some base. -/
def notWholeMessage (base : Nat) (cs : List Char) : String :=
  let shown := String.ofList ((quoted (String.ofList cs)).toList.take shownLimit)
  "invalid literal for int() with base " ++ toString base ++ ": " ++ shown

def wholeOf (base : Nat) (cs : List Char) : Except Error Int :=
  match Whole.read base cs with
  | .ok n => .ok n
  | .error (.tooLong digits) => .error (.fault (.badValue (Whole.tooLongMessage digits)))
  | .error .malformed => .error (.fault (.badValue (notWholeMessage base cs)))

/-- A number in base sixty. All parts are read before they are added up. -/
def sexagesimalOf (cs : List Char) : Except Error Int :=
  ((Plain.colonParts cs).mapM (wholeOf 10)).map fun parts =>
    parts.foldl (fun n part => n * 60 + part) 0

def wholeBody (cs : List Char) : Except Error Int :=
  match cs with
  | [] => .error (.fault .noDigits)
  | ['0'] => .ok 0
  | '0' :: 'b' :: ds => wholeOf 2 ds
  | '0' :: 'x' :: ds => wholeOf 16 ds
  -- eights and nines behind a zero are refused by the reading in base eight
  | '0' :: _ => wholeOf 8 cs
  | _ => if cs.contains ':' then sexagesimalOf cs else wholeOf 10 cs

def isNegative (cs : List Char) : Bool := cs.head? == some '-'

def dropUnderscores (cs : List Char) : List Char := cs.filter (· ≠ '_')

def intOf (cs : List Char) : Except Error Int :=
  let ds := dropUnderscores cs
  (wholeBody (Plain.dropSign ds)).map fun n => if isNegative ds then -n else n

def decimalOf (cs : List Char) : Except Error Binary64 :=
  match Decimal.read? cs with
  | some x => .ok x
  | none =>
    .error (.fault (.badValue ("could not convert string to float: " ++ quoted (String.ofList cs))))

/-- The sum of the parts of a number in base sixty, the last part first. Every step is rounded. -/
def sexagesimalSum : Nat → Binary64 → List Binary64 → Except Error Binary64
  | _, sum, [] => .ok sum
  | unit, sum, x :: xs =>
    match x.scale? unit with
    | some y => sexagesimalSum (unit * 60) (sum.add y) xs
    -- the unit has become larger than any floating point number
    | none => .error (.fault .tooLarge)

def nanWord : List Char := ['.', 'n', 'a', 'n']

/-- A decimal number without its sign. -/
def decimalBody (cs : List Char) : Except Error Binary64 :=
  if cs = ['.', 'i', 'n', 'f'] then .ok (.infinity false)
  else if cs.contains ':' then do
    let parts ← (Plain.colonParts cs).mapM decimalOf
    sexagesimalSum 1 (.ofSize false 0) parts.reverse
  else decimalOf cs

def plainDecimal (cs : List Char) : List Char :=
  (lowerText (String.ofList (dropUnderscores cs))).toList

/-- Whether the language's own word for what is not a number is written. -/
def isCommonNaN (cs : List Char) : Bool :=
  Plain.dropSign (plainDecimal cs) == nanWord

def floatOf (cs : List Char) : Except Error Binary64 :=
  let ds := plainDecimal cs
  if ds.isEmpty then .error (.fault .noDigits)
  else if isCommonNaN cs then .ok .nan
  else (decimalBody (Plain.dropSign ds)).map fun x => if isNegative ds then x.neg else x

def digitsValue (cs : List Char) : Nat :=
  cs.foldl (fun n c => n * 10 + (c.toNat - '0'.toNat)) 0

/-! ### Days and moments -/

def isLeap (year : Nat) : Bool :=
  year % 4 == 0 && (year % 100 != 0 || year % 400 == 0)

def daysIn (year month : Nat) : Nat :=
  if month = 2 then if isLeap year then 29 else 28
  else if month = 4 || month = 6 || month = 9 || month = 11 then 30
  else 31

def dayOf (t : Plain.TimeText) : Except Error Day :=
  let year := digitsValue t.year
  let month := digitsValue t.month
  let day := digitsValue t.day
  if year = 0 then .error (.fault (.badValue "year 0 is out of range"))
  else if month = 0 || 12 < month then .error (.fault (.badValue "month must be in 1..12"))
  else if day = 0 || daysIn year month < day then
    .error (.fault (.badValue "day is out of range for month"))
  else .ok ⟨year, month, day⟩

/-- The words for a distance from universal time of a day or more. -/
def offsetMessage (seconds : Int) : String :=
  "offset must be a timedelta strictly between -timedelta(hours=24) and timedelta(hours=24), not "
    ++ Data.spanSpelling seconds ++ "."

/-- The distance from universal time in seconds. -/
def zoneOf : Option (Option Plain.ZoneText) → Except Error (Option Int)
  | none => .ok none
  | some none => .ok (some 0)
  | some (some z) =>
    let size : Int := digitsValue z.hours * 3600 + digitsValue z.minutes * 60
    let seconds := if z.negative then -size else size
    if 86400 ≤ size then .error (.fault (.badValue (offsetMessage seconds))) else .ok (some seconds)

/-- The fraction of a second in millionths; further digits do not count. -/
def microsecondsOf (cs : List Char) : Nat :=
  let ds := cs.take 6
  digitsValue (ds ++ List.replicate (6 - ds.length) '0')

/-- A day, or a moment if there is a time of day. -/
def timeOf (t : Plain.TimeText) : Except Error Data :=
  match t.clock with
  | none => (dayOf t).map .date
  | some (h, m, s) => do
    -- the zone is looked at before day and time, which is the order in which faults are told
    let zone ← zoneOf t.zone
    let day ← dayOf t
    let hour := digitsValue h
    let minute := digitsValue m
    let second := digitsValue s
    if 23 < hour then .error (.fault (.badValue "hour must be in 0..23"))
    else if 59 < minute then .error (.fault (.badValue "minute must be in 0..59"))
    else if 59 < second then .error (.fault (.badValue "second must be in 0..59"))
    else .ok (.time ⟨day, hour, minute, second, microsecondsOf t.fraction, zone⟩)

/-! ### Octets -/

/-- The value of a digit of base sixty-four. -/
def base64Value? (c : Char) : Option Nat :=
  if 'A' ≤ c && c ≤ 'Z' then some (c.toNat - 'A'.toNat)
  else if 'a' ≤ c && c ≤ 'z' then some (c.toNat - 'a'.toNat + 26)
  else if c.isDigit then some (c.toNat - '0'.toNat + 52)
  else if c = '+' then some 62
  else if c = '/' then some 63
  else none

/-- Octets in base sixty-four: groups of four digits, the last one filled up with equals signs.
`place` is the place in the group, `left` what is left of the digit before, and `pads` counts the
equals signs. Other characters are skipped. -/
def base64From : Nat → Nat → Nat → List Char → Option Bytes
  | place, _, _, [] => if place = 0 then some [] else none
  | place, left, pads, c :: cs =>
    if c = '=' then
      -- the group is full with this sign, and whatever follows is not looked at
      if 2 ≤ place && 4 ≤ place + pads + 1 then some []
      else base64From place left (if 2 ≤ place then pads + 1 else pads) cs
    else
      match base64Value? c with
      | none => base64From place left pads cs
      | some v =>
        match place with
        | 0 => base64From 1 v 0 cs
        | 1 => (base64From 2 (v % 16) 0 cs).map (UInt8.ofNat (left * 4 + v / 16) :: ·)
        | 2 => (base64From 3 (v % 4) 0 cs).map (UInt8.ofNat (left * 16 + v / 4) :: ·)
        | _ => (base64From 0 0 0 cs).map (UInt8.ofNat (left * 64 + v) :: ·)

/-- Octets written in base sixty-four, which must be ASCII. -/
def bytesOf (cs : List Char) : Except Error Data :=
  if cs.all fun c => c.toNat < 0x80 then
    match base64From 0 0 0 cs with
    | some bs => .ok (.bytes bs)
    | none => .error .malformed
  else .error .malformed

/-! ### Scalars -/

def truthOf (s : String) : Except Error Bool :=
  let w := lowerText s
  if ["yes", "true", "on"].contains w then .ok true
  else if ["no", "false", "off"].contains w then .ok false
  else .error (.fault (.noTruthValue w))

/-- A day or a moment. A line feed at the end does not count. -/
def momentOf (cs : List Char) : Except Error Data :=
  match Plain.time? (Plain.dropLineFeed cs) with
  | some t => timeOf t
  | none => .error (.fault .noMoment)

end Yaml

end Lintel
