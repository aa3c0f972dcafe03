import Lintel.Text.Split
import Lintel.Text.Utf8

/-!
# Lines, columns and offsets

A location is a line and a column, both counted from one; columns count characters. Lines are
separated by the octet `0x0A` and by nothing else.

`locate` turns an offset into a location. Offsets before the text count as its start and offsets
past it as its end. An offset inside a character belongs to the column of that character, because
broken octets before it are not counted. `offsetOf` goes the other way: lines before the first
give the start of the text, lines after the last its end, and columns past the end of a line give
the end of that line.

Both take the starts of the lines, which `lineStarts` computes once per text.
-/

namespace Lintel

structure Location where
  line : Int
  column : Int
  deriving DecidableEq, Repr

namespace Location

def le (a b : Location) : Bool :=
  decide (a.line < b.line) || (a.line == b.line && decide (a.column ≤ b.column))

def text (l : Location) : String :=
  toString l.line ++ ":" ++ toString l.column

end Location

/-- The octet that ends a line. -/
def newline : UInt8 := 0x0A

/-- The offsets after each line feed of a text that begins at `offset`. -/
def startsAfter : Nat → Bytes → List Nat
  | _, [] => []
  | offset, b :: rest =>
    if b = newline then (offset + 1) :: startsAfter (offset + 1) rest
    else startsAfter (offset + 1) rest

/-- The offsets at which the lines of a text start. -/
def lineStarts (bs : Bytes) : List Nat :=
  0 :: startsAfter 0 bs

/-- An offset moved into a text of `size` octets. -/
def clampOffset (size : Nat) (offset : Int) : Nat :=
  min offset.toNat size

def locateFrom (bs : Bytes) (starts : List Nat) (offset : Int) : Location :=
  let b := clampOffset bs.length offset
  let line := starts.countP (· ≤ b)
  let start := starts.getD (line - 1) 0
  let column := (Utf8.decodeSkipping ((bs.drop start).take (b - start))).length + 1
  ⟨line, column⟩

def locate (bs : Bytes) (offset : Int) : Location :=
  locateFrom bs (lineStarts bs) offset

def splitLines (cs : List Char) : List (List Char) :=
  splitOnChar '\n' cs

def linesOf (s : String) : List String :=
  (splitLines s.toList).map String.ofList

/-- The offset of a line and a column, given the octets and the starts of the lines. -/
def offsetFrom (text : String) (bs : Bytes) (starts : List Nat) (line column : Int) : Nat :=
  if line < 1 then 0
  else if starts.length < line.toNat then bs.length
  else
    let i := line.toNat - 1
    let chars := (splitLines text.toList).getD i []
    starts.getD i 0 + (Utf8.encode (chars.take (column - 1).toNat)).length

def offsetOf (text : String) (line column : Int) : Nat :=
  let bs := Utf8.ofString text
  offsetFrom text bs (lineStarts bs) line column

/-- The index that `i` names in a list of `size` elements: negative ones count from the end, and
all are moved into the list. -/
def sliceIndex (size : Nat) (i : Int) : Nat :=
  if i < 0 then (i + size).toNat else min i.toNat size

/-- The elements from index `i` up to index `j`, both read by `sliceIndex`. -/
def slice {α : Type} (xs : List α) (i j : Int) : List α :=
  let a := sliceIndex xs.length i
  let b := sliceIndex xs.length j
  (xs.drop a).take (b - a)

end Lintel
