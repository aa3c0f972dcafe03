import Lintel.Fault

/-!
# Reading characters

A cursor is what is left of a document together with the place it begins at. The place counts all
characters, the lines, and the characters of the current line; a byte order mark takes no room in
its line.

Line breaks are the line feed, the next-line character and the two separators of Unicode. Within a
text the first two count as line feeds. Carriage returns do not occur: whoever reads a file has
made line feeds of them.
-/

namespace Lintel

namespace Yaml

/-- Why a document cannot be read. -/
inductive Error where
  /-- It is not a document, or not one, or it asks for data of an unknown kind. -/
  | malformed
  /-- It has a value that does not exist. -/
  | fault (f : Fault)
  deriving DecidableEq, Repr

def byteOrderMark : Char := '\uFEFF'

/-- The characters that end a line. -/
def isBreak (c : Char) : Bool :=
  c = '\n' || c.toNat = 0x85 || c.toNat = 0x2028 || c.toNat = 0x2029

def isSpace (c : Char) : Bool := c = ' ' || c = '\t'

def isLineEnd : Option Char → Bool
  | none => true
  | some c => isBreak c

/-- A blank, the end of the line, or the end of the document. -/
def isGap : Option Char → Bool
  | none => true
  | some c => isSpace c || isBreak c

/-- The characters a document may hold. -/
def isAllowed (c : Char) : Bool :=
  let n := c.toNat
  n == 0x09 || n == 0x0A || n == 0x0D || (decide (0x20 ≤ n) && decide (n ≤ 0x7E)) || n == 0x85
    || (decide (0xA0 ≤ n) && decide (n ≤ 0xD7FF)) || (decide (0xE000 ≤ n) && decide (n ≤ 0xFFFD))
    || decide (0x10000 ≤ n)

/-- What is left of a document, and the place it begins at. -/
structure Cursor where
  rest : List Char
  index : Nat := 0
  line : Nat := 0
  column : Nat := 0
  deriving DecidableEq, Repr

namespace Cursor

def peek (c : Cursor) : Option Char := c.rest.head?

/-- The character after `n` others. -/
def peekAt (c : Cursor) (n : Nat) : Option Char := c.rest[n]?

def next (c : Cursor) : Cursor :=
  match c.rest with
  | [] => c
  | ch :: rest =>
    if isBreak ch then ⟨rest, c.index + 1, c.line + 1, 0⟩
    else if ch = byteOrderMark then ⟨rest, c.index + 1, c.line, c.column⟩
    else ⟨rest, c.index + 1, c.line, c.column + 1⟩

def skip : Nat → Cursor → Cursor
  | 0, c => c
  | n + 1, c => skip n c.next

/-- The characters of a class at the start, and the cursor after them. -/
def takeWhile (p : Char → Bool) (c : Cursor) : List Char × Cursor :=
  let cs := c.rest.takeWhile p
  (cs, c.skip cs.length)

def skipWhile (p : Char → Bool) (c : Cursor) : Cursor :=
  (c.takeWhile p).2

/-- Go past the rest of the line, but not past its end. -/
def skipLine (c : Cursor) : Cursor :=
  c.skipWhile fun ch => !isBreak ch

/-- The line break at the start as it counts in a text, and the cursor after it. -/
def lineBreak? (c : Cursor) : Option (Char × Cursor) :=
  match c.peek with
  | some ch =>
    -- line feed and next line count as line feeds, the separators of Unicode as themselves
    if isBreak ch then some (if ch.toNat < 0x2028 then '\n' else ch, c.next) else none
  | none => none

/-- Whether a mark between documents stands here: three hyphens or points before a gap. -/
def atMark (mark : Char) (c : Cursor) : Bool :=
  c.peekAt 0 == some mark && c.peekAt 1 == some mark && c.peekAt 2 == some mark
    && isGap (c.peekAt 3)

/-- Whether a mark of either kind stands here. -/
def atAnyMark (c : Cursor) : Bool :=
  c.atMark '-' || c.atMark '.'

end Cursor

end Yaml

end Lintel
