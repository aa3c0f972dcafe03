import Lintel.Invocation.Switch
import Lintel.Text.Digit

/-!
# The words of a command line

An argument that begins with a hyphen names a switch. A long name may be shortened as long as it
is clear which one is meant, and an equals sign may bring its value. After a letter, the rest of
the argument holds more letters or a value. What looks like a negative number, or has a space in
it and names nothing, is an operand, and so is everything that does not begin with a hyphen.

Two hyphens alone divide the command line: everything after them is an operand.
-/

namespace Lintel

/-- What an argument stands for. -/
inductive Word where
  /-- A switch by its long name, with the value after an equals sign. -/
  | long (s : Switch) (value : Option String)
  | short (s : Switch) (rest : List Char)
  /-- A beginning of several long names. -/
  | ambiguous
  /-- Something with a hyphen that names no switch. -/
  | unknown
  | operand (text : String)
  /-- The two hyphens after which there are only operands. -/
  | divider
  deriving DecidableEq, Repr

namespace Word

/-- Two hyphens alone. -/
def dividerText : String := "--"

def isDigits (cs : List Char) : Bool :=
  !cs.isEmpty && cs.all Digit.isDecimal

/-- A hyphen and digits, which may have a point before the last of them. A line feed at the end
does not count. -/
def isNegativeNumber (s : String) : Bool :=
  match s.toList with
  | '-' :: cs =>
    let cs := if cs.getLast? = some '\n' then cs.dropLast else cs
    match cs.dropWhile Digit.isDecimal with
    | [] => isDigits cs
    | '.' :: places => isDigits places
    | _ => false
  | _ => false

/-- What an argument with a hyphen stands for if it names no switch. -/
def nameless (s : String) : Word :=
  if isNegativeNumber s || s.toList.contains ' ' then .operand s else .unknown

/-- The value after the first equals sign. -/
def valueIn (cs : List Char) : Option String :=
  match cs.dropWhile (· ≠ '=') with
  | [] => none
  | _ :: value => some (String.ofList value)

/-- What an argument with two hyphens stands for. -/
def ofLong (s : String) : Word :=
  let name := String.ofList (s.toList.takeWhile (· ≠ '='))
  match Switch.named? name with
  | some w => .long w (valueIn s.toList)
  | none =>
    -- a name that is written out is never taken for the beginning of another one
    match Switch.abbreviated name with
    | [] => nameless s
    | [w] => .long w (valueIn s.toList)
    | _ => .ambiguous

def ofArgument (s : String) : Word :=
  match s.toList with
  | '-' :: '-' :: _ => ofLong s
  | '-' :: c :: rest =>
    match Switch.letter? c with
    | some w => .short w rest
    | none => nameless s
  | _ => .operand s

def ofArguments : List String → List Word
  | [] => []
  | s :: rest =>
    if s = dividerText then .divider :: rest.map .operand else ofArgument s :: ofArguments rest

@[simp] theorem ofLong_name (s : Switch) : ofLong s.name = .long s none := by
  cases s <;> decide

@[simp] theorem ofArgument_name (s : Switch) : ofArgument s.name = .long s none := by
  cases s <;> decide

end Word

end Lintel
