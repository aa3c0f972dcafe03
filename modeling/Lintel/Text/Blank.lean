/-!
# Blank characters

Two classes of blank characters are in use. `isWhiteSpace` is the `White_Space` property of
Unicode. `isBlank` has in addition the four information separators `U+001C` to `U+001F`; it is
the class that trims names and separates the words of a suppression comment. A third class,
`isByteBlank`, is for octets: the six blanks of ASCII.
-/

namespace Lintel

def isWhiteSpace (c : Char) : Bool :=
  let n := c.toNat
  (decide (0x09 ≤ n) && decide (n ≤ 0x0D)) || n == 0x20 || n == 0x85 || n == 0xA0 || n == 0x1680
    || (decide (0x2000 ≤ n) && decide (n ≤ 0x200A)) || n == 0x2028 || n == 0x2029 || n == 0x202F
    || n == 0x205F || n == 0x3000

def isBlank (c : Char) : Bool :=
  isWhiteSpace c || (decide (0x1C ≤ c.toNat) && decide (c.toNat ≤ 0x1F))

/-- The blanks of ASCII, as octets. -/
def isByteBlank (b : UInt8) : Bool :=
  b == 0x20 || (decide (0x09 ≤ b.toNat) && decide (b.toNat ≤ 0x0D))

/-- Drop the characters of a class at both ends. -/
def trimBoth (p : Char → Bool) (cs : List Char) : List Char :=
  ((cs.dropWhile p).reverse.dropWhile p).reverse

def trimBlank (s : String) : String :=
  String.ofList (trimBoth isBlank s.toList)

/-- The lower-case form of the letters of ASCII; other characters stay. This is enough wherever
the result is only compared with words of ASCII letters none of which is a `k`. -/
def lowerAscii (s : String) : String :=
  String.ofList (s.toList.map Char.toLower)

end Lintel
