import Lintel.Number.Binary64
import Lintel.Text.Utf8

/-!
# Data of documents

Configuration files hold data whose shape is not known before they are read: texts, numbers,
dates, lists and mappings. A mapping is a list of entries in the order in which the document
gives them, and its keys may be any data that is not itself a list, a mapping or a set.

A list or a mapping may hold itself. `Data.again` marks the place where it comes up again.

Two keys are the same if they are equal as numbers or equal as anything else: the truth values
count as the numbers zero and one, and moments are equal if they are at the same time, as far as
that is known.
-/

namespace Lintel

structure Day where
  year : Nat
  month : Nat
  day : Nat
  deriving DecidableEq, Repr

/-- How many days lie before a day. Years are taken to begin in March, so that a leap day is the
last day of its year. -/
def Day.number (d : Day) : Nat :=
  let year := if d.month ≤ 2 then d.year - 1 else d.year
  -- from March on the lengths of the months go round in `153` days to five months
  365 * year + year / 4 - year / 100 + year / 400 + (153 * ((d.month + 9) % 12) + 2) / 5 + d.day

/-- A moment on a day, with its distance from universal time in seconds if that is known. -/
structure Moment where
  day : Day
  hour : Nat
  minute : Nat
  second : Nat
  microsecond : Nat
  offset : Option Int
  deriving DecidableEq, Repr

/-- A moment in millionths of a second of universal time, or of the time of day where the distance
from it is not known. -/
def Moment.instant (t : Moment) : Int :=
  let seconds : Int := t.day.number * 86400 + t.hour * 3600 + t.minute * 60 + t.second
  (seconds - t.offset.getD 0) * 1000000 + t.microsecond

/-- Whether two moments are at the same time, as far as that is known. -/
def Moment.isSame (t u : Moment) : Bool :=
  t.offset.isSome == u.offset.isSome && t.instant == u.instant

inductive Data where
  | null
  | bool (b : Bool)
  | int (n : Int)
  | float (x : Binary64)
  | text (s : String)
  | bytes (bs : Bytes)
  | date (d : Day)
  | time (t : Moment)
  | list (xs : List Data)
  | map (entries : List (Data × Data))
  | set (xs : List Data)
  /-- Two values in order, as lists of entries hold them. -/
  | pair (key value : Data)
  /-- A list or a mapping inside of itself. -/
  | again (isMap : Bool)

instance : Inhabited Data := ⟨.null⟩

namespace Data

def isKey : Data → Bool
  | list _ | map _ | set _ | pair .. | again _ => false
  | _ => true

def wholeKey? : Data → Option Int
  | bool b => some (if b then 1 else 0)
  | int n => some n
  | float x => x.toInt?
  | _ => none

def sameKey (a b : Data) : Bool :=
  match a.wholeKey?, b.wholeKey? with
  -- truth values, whole numbers and floating point numbers are compared as numbers
  | some m, some n => m == n
  | some _, none => false
  | none, some _ => false
  | none, none =>
    match a, b with
    | null, null => true
    -- infinite, or with a fractional part
    | float x, float y => x == y && !x.isNaN
    | text s, text t => s == t
    | bytes x, bytes y => x == y
    | date x, date y => x == y
    | time x, time y => x.isSame y
    | _, _ => false

/-- Put a value under a key. A key that is already there keeps its place and its spelling. -/
def put (key value : Data) : List (Data × Data) → List (Data × Data)
  | [] => [(key, value)]
  | (k, v) :: more => if sameKey k key then (k, value) :: more else (k, v) :: put key value more

def get? (entries : List (Data × Data)) (key : String) : Option Data :=
  (entries.find? fun e => match e.1 with | text s => s == key | _ => false).map (·.2)

def isNull : Data → Bool
  | null => true
  | _ => false

/-- Data that counts as nothing: null, false, zero, and whatever is empty. -/
def isNothing : Data → Bool
  | null => true
  | bool b => !b
  | int n => n == 0
  | float x => x.isZero
  | text s => s.isEmpty
  | bytes bs => bs.isEmpty
  | date _ | time _ => false
  | list xs => xs.isEmpty
  | map es => es.isEmpty
  | set xs => xs.isEmpty
  | pair .. | again _ => false

end Data

end Lintel
