import Lintel.Number.Binary64
import Lintel.Text.Blank
import Lintel.Text.Digit

/-!
# Decimal numbers in digits

A decimal number is written with digits of any script, a point among them or next to them, and an
exponent of ten. There may be a sign before it and blanks around it. Infinity and what is not a
number are written as words. `Decimal.read?` gives the nearest floating point number.
-/

namespace Lintel

namespace Decimal

def digitsValue (ds : List Nat) : Nat :=
  ds.foldl (fun n d => n * 10 + d) 0

/-- The digits at the start, and what follows them. -/
def takeDigits : List Char → List Nat × List Char
  | [] => ([], [])
  | c :: cs =>
    match Digit.value? c with
    | none => ([], c :: cs)
    | some n =>
      let (ds, rest) := takeDigits cs
      (n :: ds, rest)

/-- A sign at the start, and what follows it. -/
def takeSign : List Char → Bool × List Char
  | '-' :: cs => (true, cs)
  | '+' :: cs => (false, cs)
  | cs => (false, cs)

/-- The exponent that a number ends with; nothing if it ends otherwise. -/
def exponent? : List Char → Option Int
  | [] => some 0
  | e :: cs =>
    let (negative, cs) := takeSign cs
    let (ds, rest) := takeDigits cs
    if (e = 'e' || e = 'E') && !ds.isEmpty && rest.isEmpty then
      some (if negative then -(digitsValue ds : Int) else digitsValue ds)
    else none

/-- The number without its sign that digits stand for. -/
def unsigned? (negative : Bool) (cs : List Char) : Option Binary64 :=
  let (whole, rest) := takeDigits cs
  let (fraction, rest) := match rest with
    | '.' :: more => takeDigits more
    | more => ([], more)
  match exponent? rest, whole ++ fraction with
  -- digits on one side of the point are enough
  | some e, d :: ds =>
    some (.ofDecimal negative (digitsValue (d :: ds)) (e - fraction.length))
  | _, _ => none

/-- The number without its sign that a word stands for. -/
def word? (negative : Bool) (cs : List Char) : Option Binary64 :=
  let w := lowerAscii (String.ofList cs)
  if w = "inf" || w = "infinity" then some (.infinity negative)
  else if w = "nan" then some .nan
  else none

/-- The number that characters stand for. -/
def read? (cs : List Char) : Option Binary64 :=
  let (negative, cs) := takeSign (trimBoth isWhiteSpace cs)
  (unsigned? negative cs).or (word? negative cs)

example : (read? [' ', '1', '.', '5']).map (·.bits) = some 0x3FF8000000000000 := by decide +kernel

example : read? ['.'] = none := by decide

end Decimal

end Lintel
