import Lintel.Data
import Lintel.Number.Shortest
import Lintel.Number.Whole
import Lintel.Text.Quoted

/-!
# The spelling of data in messages

A message that refuses a value shows it in a spelling that tells texts from numbers and words:
texts are quoted, the words for nothing and for the truth values are capitalised, and lists and
mappings are written in brackets and braces, with three points where they come up inside of
themselves. Whole numbers with too many digits have no spelling, and nor has what holds one.
-/

namespace Lintel

namespace Data

def floatWords : NonFiniteWords := ⟨"inf", "nan"⟩

def octetSpelling (q : Char) (b : UInt8) : List Char :=
  let c := Char.ofNat b.toNat
  if c = q || c = '\\' then ['\\', c]
  else if c = '\t' then ['\\', 't']
  else if c = '\n' then ['\\', 'n']
  else if c = '\r' then ['\\', 'r']
  else if 0x20 ≤ b.toNat && b.toNat < 0x7F then [c]
  else escapeCode b.toNat

/-- Octets in quotes after a `b`. -/
def bytesSpelling (bs : Bytes) : String :=
  let q := quoteFor (bs.map fun b => Char.ofNat b.toNat)
  String.ofList ('b' :: q :: bs.flatMap (octetSpelling q) ++ [q])

def spanSpelling (seconds : Int) : String :=
  -- the rest is never negative, so a span backwards is a day less and something more
  let days := seconds.fdiv 86400
  let rest := seconds.fmod 86400
  let parts := (if days = 0 then [] else ["days=" ++ toString days])
    ++ (if rest = 0 then [] else ["seconds=" ++ toString rest])
  "datetime.timedelta(" ++ ", ".intercalate parts ++ ")"

/-- The distance from universal time. -/
def offsetSpelling (seconds : Int) : String :=
  if seconds = 0 then "datetime.timezone.utc"
  else "datetime.timezone(" ++ spanSpelling seconds ++ ")"

def dayNumbers (d : Day) : List Nat := [d.year, d.month, d.day]

/-- A moment by its numbers; seconds and their fractions are left out where nothing follows. -/
def momentSpelling (t : Moment) : String :=
  let fine :=
    -- a fraction of a second is told after the second, even if that is zero
    if t.microsecond ≠ 0 then [t.second, t.microsecond]
    else if t.second ≠ 0 then [t.second]
    else []
  let numbers := (dayNumbers t.day ++ [t.hour, t.minute] ++ fine).map toString
  let zone := match t.offset with
    | some s => ["tzinfo=" ++ offsetSpelling s]
    | none => []
  "datetime.datetime(" ++ ", ".intercalate (numbers ++ zone) ++ ")"

mutual

def spelling : Data → String
  | null => "None"
  | bool b => if b then "True" else "False"
  | int n => toString n
  | float x => x.text floatWords
  | text s => quoted s
  | bytes bs => bytesSpelling bs
  | date d => "datetime.date(" ++ ", ".intercalate ((dayNumbers d).map toString) ++ ")"
  | time t => momentSpelling t
  | list xs => "[" ++ ", ".intercalate (spellings xs) ++ "]"
  | map es => "\x7b" ++ ", ".intercalate (entrySpellings es) ++ "\x7d"
  | set xs => if xs.isEmpty then "set()" else "\x7b" ++ ", ".intercalate (spellings xs) ++ "\x7d"
  | pair k v => "(" ++ spelling k ++ ", " ++ spelling v ++ ")"
  | again isMap => if isMap then "\x7b...\x7d" else "[...]"

def spellings : List Data → List String
  | [] => []
  | x :: xs => spelling x :: spellings xs

def entrySpellings : List (Data × Data) → List String
  | [] => []
  | (k, v) :: es => (spelling k ++ ": " ++ spelling v) :: entrySpellings es

end

mutual

def holdsTooLong : Data → Bool
  | int n => Whole.isTooLong n
  | list xs | set xs => anyTooLong xs
  | map es => entriesTooLong es
  | pair k v => holdsTooLong k || holdsTooLong v
  | _ => false

def anyTooLong : List Data → Bool
  | [] => false
  | x :: xs => holdsTooLong x || anyTooLong xs

def entriesTooLong : List (Data × Data) → Bool
  | [] => false
  | (k, v) :: es => holdsTooLong k || holdsTooLong v || entriesTooLong es

end

def twoDigits (n : Nat) : String :=
  if n < 10 then "0" ++ toString n else toString n

/-- A day as written in a document. -/
def dayText (d : Day) : String :=
  let y := toString d.year
  String.ofList (List.replicate (4 - y.length) '0') ++ y ++ "-" ++ twoDigits d.month ++ "-"
    ++ twoDigits d.day

/-- Data where a name is expected: a text stands for itself, anything else for its spelling. -/
def shown : Data → String
  | text s => s
  | date d => dayText d
  | d => d.spelling

end Data

end Lintel
