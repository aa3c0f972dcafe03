import Lintel.Text.Blank
import Lintel.Text.Digit

/-!
# Whole numbers in digits

A whole number is written with decimal digits of any script. There may be single underscores
between the digits, a sign before them, and blanks around the whole. In base two, eight and
sixteen the letter of the base may stand between a zero and the digits, and further digits are
letters.

A number may not have more than `digitLimit` decimal digits, neither on reading nor on writing. In
the other bases, which are powers of two, there is no limit on reading.
-/

namespace Lintel

namespace Whole

/-- The most decimal digits that a number may have. -/
def digitLimit : Nat := 4300

/-- Why a text is not a whole number. -/
inductive Refusal where
  /-- It has not the form of one. -/
  | malformed
  | tooLong (digits : Nat)
  deriving DecidableEq, Repr

/-- What a digit is worth in some base; letters are digits above nine. -/
def digit? (base : Nat) (c : Char) : Option Nat :=
  let value :=
    if 'a' ≤ c && c ≤ 'z' then some (c.toNat - 'a'.toNat + 10)
    else if 'A' ≤ c && c ≤ 'Z' then some (c.toNat - 'A'.toNat + 10)
    else Digit.value? c
  value.filter (· < base)

/-- What the digits are worth, one by one; there may be single underscores between them. -/
def digits? (base : Nat) : List Char → Option (List Nat)
  | [] => none
  | [c] => (digit? base c).map fun n => [n]
  | c :: '_' :: cs => (digit? base c).bind fun n => (digits? base cs).map (n :: ·)
  | c :: cs => (digit? base c).bind fun n => (digits? base cs).map (n :: ·)

/-- The number with these digits, the highest first. -/
def ofDigits (base : Nat) (ds : List Nat) : Nat :=
  ds.foldl (fun n d => n * base + d) 0

def baseLetter? : Nat → Option Char
  | 2 => some 'b'
  | 8 => some 'o'
  | 16 => some 'x'
  | _ => none

def dropBase (base : Nat) : List Char → List Char
  | '0' :: c :: cs => if baseLetter? base = some c.toLower then cs else '0' :: c :: cs
  | cs => cs

def isFigure (base : Nat) (c : Char) : Bool :=
  c = '_' || (digit? base c).isSome

/-- The number that digits without a sign stand for. The digits are counted before what follows
them is looked at. -/
def unsigned (base : Nat) (cs : List Char) : Except Refusal Nat :=
  let cs := dropBase base cs
  match digits? base (cs.takeWhile (isFigure base)) with
  | none => .error .malformed
  | some ds =>
    if (baseLetter? base).isNone && digitLimit < ds.length then .error (.tooLong ds.length)
    else if cs.all (isFigure base) then .ok (ofDigits base ds)
    else .error .malformed

/-- The number that digits with or without a sign stand for. -/
def signed (base : Nat) : List Char → Except Refusal Int
  | '-' :: cs => (unsigned base cs).map fun n => -(n : Int)
  | '+' :: cs => (unsigned base cs).map fun n => (n : Int)
  | cs => (unsigned base cs).map fun n => (n : Int)

/-- The number that characters stand for, blanks around them left out. -/
def read (base : Nat) (cs : List Char) : Except Refusal Int :=
  signed base (trimBoth isWhiteSpace cs)

/-- The number that a text stands for in base ten. -/
def ofText? (s : String) : Option Int :=
  (read 10 s.toList).toOption

/-- Whether a number has too many decimal digits to be written. -/
def isTooLong (n : Int) : Bool := decide (Nat.pow 10 digitLimit ≤ n.natAbs)

def tooLongMessage (digits : Nat) : String :=
  "Exceeds the limit (" ++ toString digitLimit ++ " digits) for integer string conversion: value has "
    ++ toString digits ++ " digits; use sys.set_int_max_str_digits() to increase the limit"

/-- The words for a number that has too many digits to be written. -/
def unwritableMessage : String :=
  "Exceeds the limit (" ++ toString digitLimit ++ " digits) for integer string conversion; "
    ++ "use sys.set_int_max_str_digits() to increase the limit"

example : ofText? " -1_000 " = some (-1000) := by decide

example : (read 16 ['0', 'x', '1', 'F']).toOption = some 31 := by decide

example : ofText? "1_" = none := by decide

end Whole

end Lintel
