/-!
# Bytes of a text

Every offset in this library counts bytes of the UTF-8 form of a text, while columns and
messages count characters. This module holds the passage between the two.

Bytes are lists of octets. Writing is `Utf8.encode`. Reading is done in two stages. First
`Utf8.pieces` cuts the octets into **pieces**: a piece is either one well-formed character or a
maximal broken run, that is, the longest prefix of a would-be character before the octet that
rules it out. Then three readings of the pieces are offered:

* `Utf8.decode` refuses a text with a broken piece and says where and why;
* `Utf8.decodeLossy` puts one replacement character for each broken piece;
* `Utf8.decodeSkipping` leaves broken pieces out.

The cut runs along the list itself: after a piece of width `w` the next `w - 1` octets are
skipped. This keeps the recursion structural.
-/

namespace Lintel

/-- Octets, in order. -/
abbrev Bytes := List UInt8

namespace Utf8

def encode (cs : List Char) : Bytes :=
  cs.flatMap String.utf8EncodeChar

@[simp] theorem encode_nil : encode [] = [] := rfl

@[simp] theorem encode_cons (c : Char) (cs : List Char) :
    encode (c :: cs) = String.utf8EncodeChar c ++ encode cs := rfl

@[simp] theorem encode_append (cs ds : List Char) :
    encode (cs ++ ds) = encode cs ++ encode ds := by
  simp [encode]

def ofString (s : String) : Bytes :=
  encode s.toList

inductive Defect where
  | badStart
  /-- The octet after the run cannot continue it. -/
  | badContinuation
  /-- The text ends inside the character. -/
  | truncated
  deriving DecidableEq, Repr

/-- A well-formed character, or a maximal broken run, with the number of octets it takes. -/
inductive Piece where
  | char (c : Char) (width : Nat)
  | broken (width : Nat) (why : Defect)
  deriving DecidableEq, Repr

def Piece.width : Piece → Nat
  | .char _ w => w
  | .broken w _ => w

/-- The value of an octet between `0x80` and `0xBF` in its six low bits. -/
def tailBits (b : UInt8) : Nat :=
  b.toNat % 64

/-- An octet that may continue a character. -/
def isTail (b : UInt8) : Bool :=
  decide (0x80 ≤ b.toNat) && decide (b.toNat ≤ 0xBF)

/-- Whether `b` may follow the first octet `lead` of a character of three or four octets. The
first tail octet is narrower after `E0`, `ED`, `F0` and `F4`, which rules out overlong forms,
surrogates and values past the last code point. -/
def isSecond (lead : Nat) (b : UInt8) : Bool :=
  let n := b.toNat
  if lead = 0xE0 then decide (0xA0 ≤ n) && decide (n ≤ 0xBF)
  else if lead = 0xED then decide (0x80 ≤ n) && decide (n ≤ 0x9F)
  else if lead = 0xF0 then decide (0x90 ≤ n) && decide (n ≤ 0xBF)
  else if lead = 0xF4 then decide (0x80 ≤ n) && decide (n ≤ 0x8F)
  else isTail b

/-- The piece that starts with the octet `b` before `rest`. -/
def next (b : UInt8) (rest : Bytes) : Piece :=
  let lead := b.toNat
  if lead < 0x80 then .char (Char.ofNat lead) 1
  -- a tail octet, or the start of an overlong form of two octets
  else if lead < 0xC2 then .broken 1 .badStart
  -- two octets: five bits and six
  else if lead < 0xE0 then
    match rest with
    | [] => .broken 1 .truncated
    | b₁ :: _ =>
      if isTail b₁ then .char (Char.ofNat ((lead - 0xC0) * 64 + tailBits b₁)) 2
      else .broken 1 .badContinuation
  -- three octets: four bits, six and six
  else if lead < 0xF0 then
    match rest with
    | [] => .broken 1 .truncated
    | b₁ :: more =>
      if isSecond lead b₁ then
        match more with
        | [] => .broken 2 .truncated
        | b₂ :: _ =>
          if isTail b₂ then
            .char (Char.ofNat (((lead - 0xE0) * 64 + tailBits b₁) * 64 + tailBits b₂)) 3
          else .broken 2 .badContinuation
      else .broken 1 .badContinuation
  -- four octets; the second keeps the value below `0x110000`
  else if lead < 0xF5 then
    match rest with
    | [] => .broken 1 .truncated
    | b₁ :: more =>
      if isSecond lead b₁ then
        match more with
        | [] => .broken 2 .truncated
        | b₂ :: last =>
          if isTail b₂ then
            match last with
            | [] => .broken 3 .truncated
            | b₃ :: _ =>
              if isTail b₃ then
                .char (Char.ofNat
                  ((((lead - 0xF0) * 64 + tailBits b₁) * 64 + tailBits b₂) * 64 + tailBits b₃)) 4
              else .broken 3 .badContinuation
          else .broken 2 .badContinuation
      else .broken 1 .badContinuation
  else .broken 1 .badStart

/-- The pieces of a text whose first `skip` octets belong to a piece already cut. -/
def piecesAfter : Nat → Bytes → List Piece
  | _, [] => []
  | skip + 1, _ :: rest => piecesAfter skip rest
  | 0, b :: rest => next b rest :: piecesAfter ((next b rest).width - 1) rest

def pieces (bs : Bytes) : List Piece :=
  piecesAfter 0 bs

/-- The character that stands for a broken piece. -/
def replacement : Char := '\uFFFD'

/-- One replacement character for each broken piece. -/
def decodeLossy (bs : Bytes) : List Char :=
  (pieces bs).map fun
    | .char c _ => c
    | .broken .. => replacement

/-- The well-formed characters only. -/
def decodeSkipping (bs : Bytes) : List Char :=
  (pieces bs).filterMap fun
    | .char c _ => some c
    | .broken .. => none

/-- The first broken piece of a text: where it starts, how long it is, its first octet and what
is wrong with it. -/
structure BadBytes where
  position : Nat
  width : Nat
  octet : UInt8
  why : Defect
  deriving DecidableEq, Repr

/-- The characters of the pieces of `bs` from `position` on, or the first broken piece. -/
def readPieces (bs : Bytes) : Nat → List Piece → Except BadBytes (List Char)
  | _, [] => .ok []
  | position, .char c w :: rest => (readPieces bs (position + w) rest).map (c :: ·)
  -- no more than the first broken piece is looked at
  | position, .broken w why :: _ => .error ⟨position, w, bs.getD position 0, why⟩

/-- The characters of a well-formed text. -/
def decode (bs : Bytes) : Except BadBytes (List Char) :=
  readPieces bs 0 (pieces bs)

/-- Two lower-case hexadecimal digits. -/
def hexOctet (b : UInt8) : String :=
  let digits := Nat.toDigits 16 b.toNat
  String.ofList (List.replicate (2 - digits.length) '0' ++ digits)

def Defect.message : Defect → String
  | .badStart => "invalid start byte"
  | .badContinuation => "invalid continuation byte"
  | .truncated => "unexpected end of data"

def BadBytes.message (e : BadBytes) : String :=
  let place :=
    if e.width = 1 then
      "byte 0x" ++ hexOctet e.octet ++ " in position " ++ toString e.position
    else
      "bytes in position " ++ toString e.position ++ "-" ++ toString (e.position + e.width - 1)
  "'utf-8' codec can't decode " ++ place ++ ": " ++ e.why.message

end Utf8

end Lintel
