/-!
# What a plain scalar stands for

A scalar that is written without quotes may stand for something other than its own text: `no` is a
truth value, `0x1F` a number and `2001-12-14` a day. `Plain.sense` tells which kind of value the
characters of a plain scalar stand for. The same function serves both ways: a reader asks it what
to make of a scalar, and a writer may leave out the quotes exactly when the answer is `text`.

The forms are those of version 1.1 of the language. Underscores may stand between the digits of a
number, and numbers may be written in base sixty with colons between the digits.
-/

namespace Lintel

namespace Yaml

/-- The kinds of value that a plain scalar can stand for. -/
inductive Sense where
  | null
  | bool
  | int
  | float
  | time
  /-- The key under which a mapping takes over the entries of another. -/
  | merge
  /-- The key of the value that stands for a whole mapping. -/
  | default
  | mark
  | text
  deriving DecidableEq, Repr

namespace Plain

/-! ### Pieces of numbers -/

def isFigure (c : Char) : Bool := c.isDigit || c = '_'

def isHexFigure (c : Char) : Bool :=
  isFigure c || ('a' ≤ c && c ≤ 'f') || ('A' ≤ c && c ≤ 'F')

def isOctalFigure (c : Char) : Bool := ('0' ≤ c && c ≤ '7') || c = '_'

def isBinaryFigure (c : Char) : Bool := c = '0' || c = '1' || c = '_'

def isSign (c : Char) : Bool := c = '+' || c = '-'

def dropSign : List Char → List Char
  | c :: cs => if isSign c then cs else c :: cs
  | [] => []

/-- A list that is not empty and holds only characters of a class. -/
def allOf (p : Char → Bool) (cs : List Char) : Bool :=
  !cs.isEmpty && cs.all p

/-- A digit of base sixty, written with one or two digits. -/
def isSixtieth : List Char → Bool
  | [c] => c.isDigit
  | [c, d] => ('0' ≤ c && c ≤ '5') && d.isDigit
  | _ => false

def colonParts : List Char → List (List Char)
  | [] => [[]]
  | c :: cs =>
    if c = ':' then [] :: colonParts cs
    else
      match colonParts cs with
      | [] => [[c]]
      | p :: ps => (c :: p) :: ps

/-- A number in base sixty: a first part that passes a test, and at least one more digit. -/
def isSexagesimal (first : List Char → Bool) (cs : List Char) : Bool :=
  match colonParts cs with
  | p :: q :: ps => first p && (q :: ps).all isSixtieth
  | _ => false

def isFigures : List Char → Bool
  | c :: cs => c.isDigit && cs.all isFigure
  | [] => false

/-- Figures that do not begin with a zero. -/
def isPositive (cs : List Char) : Bool :=
  isFigures cs && cs.head? != some '0'

/-! ### The forms -/

/-- A whole number: binary, octal, decimal, hexadecimal, or in base sixty. -/
def isInt (cs : List Char) : Bool :=
  match dropSign cs with
  | ['0'] => true
  -- a zero in front asks for another base, with or without a letter
  | '0' :: 'b' :: ds => allOf isBinaryFigure ds
  | '0' :: 'x' :: ds => allOf isHexFigure ds
  | '0' :: ds => allOf isOctalFigure ds
  | ds => isPositive ds || isSexagesimal isPositive ds

def isExponent : List Char → Bool
  | [] => true
  | e :: s :: ds => (e = 'e' || e = 'E') && isSign s && allOf Char.isDigit ds
  | _ => false

def isFraction (cs : List Char) : Bool :=
  isExponent (cs.dropWhile isFigure)

def infinityWords : List String := ["inf", "Inf", "INF"]

/-- The words for what is not a number, after the point. -/
def nanWords : List String := ["nan", "NaN", "NAN"]

def isFloat (cs : List Char) : Bool :=
  let ds := dropSign cs
  let whole := ds.takeWhile (· ≠ '.')
  match ds.dropWhile (· ≠ '.') with
  | '.' :: rest =>
    (isFigures whole && isFraction rest)
      || (isSexagesimal isFigures whole && rest.all isFigure)
      || (whole.isEmpty && infinityWords.contains (String.ofList rest))
      -- a number that begins with its point has no sign, and no more has one that is none
      || (cs.head? == some '.'
        && (nanWords.contains (String.ofList rest)
          || ((rest.head?.map Char.isDigit).getD false && isFraction rest)))
  | _ => false

def truthWords : List String :=
  ["yes", "Yes", "YES", "no", "No", "NO", "true", "True", "TRUE", "false", "False", "FALSE",
    "on", "On", "ON", "off", "Off", "OFF"]

def nullWords : List String := ["", "~", "null", "Null", "NULL"]

/-! ### Days and moments -/

/-- One or two digits at the start, as a number, and what follows. -/
def oneOrTwoDigits? : List Char → Option (List Char × List Char)
  | c :: d :: cs =>
    if c.isDigit && d.isDigit then some ([c, d], cs)
    else if c.isDigit then some ([c], d :: cs) else none
  | [c] => if c.isDigit then some ([c], []) else none
  | [] => none

/-- Exactly two digits at the start, and what follows. -/
def twoDigits? : List Char → Option (List Char × List Char)
  | c :: d :: cs => if c.isDigit && d.isDigit then some ([c, d], cs) else none
  | _ => none

/-- What follows a character at the start. -/
def after? (c : Char) : List Char → Option (List Char)
  | d :: cs => if d = c then some cs else none
  | [] => none

/-- The distance from universal time: a sign, hours and minutes. -/
structure ZoneText where
  negative : Bool
  hours : List Char
  minutes : List Char

/-- The parts of a moment as they are written. -/
structure TimeText where
  year : List Char
  month : List Char
  day : List Char
  /-- The time of day, if there is one. -/
  clock : Option (List Char × List Char × List Char) := none
  fraction : List Char := []
  /-- The zone, if there is one; universal time has no distance. -/
  zone : Option (Option ZoneText) := none

def zoneMinutes? (negative : Bool) (hours : List Char) : List Char → Option ZoneText
  | [] => some ⟨negative, hours, []⟩
  | cs => do
    -- minutes come with their colon or not at all
    let cs ← after? ':' cs
    let (minutes, cs) ← twoDigits? cs
    if cs.isEmpty then some ⟨negative, hours, minutes⟩ else none

/-- A zone up to the end: blanks, and a `Z` or a distance. -/
def zone? (cs : List Char) : Option (Option (Option ZoneText)) :=
  match cs, cs.dropWhile (fun c => c = ' ' || c = '\t') with
  | [], _ => some none
  | _, ['Z'] => some (some none)
  | _, c :: ds =>
    if isSign c then do
      let (hours, ds) ← oneOrTwoDigits? ds
      (zoneMinutes? (c = '-') hours ds).map fun z => some (some z)
    else none
  | _, [] => none

def secondFraction (cs : List Char) : List Char × List Char :=
  match cs with
  | '.' :: ds => (ds.takeWhile Char.isDigit, ds.dropWhile Char.isDigit)
  | _ => ([], cs)

/-- What separates a day from the time of day: a letter or blanks. -/
def clockStart? : List Char → Option (List Char)
  | 'T' :: cs => some cs
  | 't' :: cs => some cs
  | ' ' :: cs => some (cs.dropWhile fun c => c = ' ' || c = '\t')
  | '\t' :: cs => some (cs.dropWhile fun c => c = ' ' || c = '\t')
  | _ => none

/-- The time of day and the zone, after a day. -/
def clock? (t : TimeText) (cs : List Char) : Option TimeText := do
  let cs ← clockStart? cs
  let (hour, cs) ← oneOrTwoDigits? cs
  let cs ← after? ':' cs
  let (minute, cs) ← twoDigits? cs
  let cs ← after? ':' cs
  let (second, cs) ← twoDigits? cs
  let (fraction, cs) := secondFraction cs
  let zone ← zone? cs
  some { t with clock := some (hour, minute, second), fraction := fraction, zone := zone }

/-- The parts of a day or a moment. -/
def time? (cs : List Char) : Option TimeText := do
  let (century, cs) ← twoDigits? cs
  let (years, cs) ← twoDigits? cs
  let cs ← after? '-' cs
  let (month, cs) ← oneOrTwoDigits? cs
  let cs ← after? '-' cs
  let (day, cs) ← oneOrTwoDigits? cs
  let t : TimeText := { year := century ++ years, month := month, day := day }
  if cs.isEmpty then some t else clock? t cs

/-- A day with two digits each for month and day, or a moment. -/
def isTime (cs : List Char) : Bool :=
  match time? cs with
  | none => false
  | some t => t.clock.isSome || (t.month.length == 2 && t.day.length == 2)

/-! ### Sense -/

/-- The marks of the language that stand in front of a node. -/
def markWords : List String := ["!", "&", "*"]

/-- What characters without a line feed at their end stand for. -/
def senseOf (cs : List Char) : Sense :=
  let word := String.ofList cs
  if truthWords.contains word then .bool
  else if isFloat cs then .float
  else if isInt cs then .int
  else if word = "<<" then .merge
  else if nullWords.contains word then .null
  else if isTime cs then .time
  else if word = "=" then .default
  else if markWords.contains word then .mark
  else .text

/-- A line feed at the end of characters does not count, unless there is nothing else. -/
def dropLineFeed (cs : List Char) : List Char :=
  if cs.getLast? = some '\n' && cs ≠ ['\n'] then cs.dropLast else cs

/-- What the characters of a plain scalar stand for. -/
def sense (cs : List Char) : Sense := senseOf (dropLineFeed cs)

end Plain

end Yaml

end Lintel
