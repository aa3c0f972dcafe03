import Lintel.Data
import Lintel.Number.Shortest
import Lintel.Text.Quoted

/-!
# Data written as JSON

The document has one entry or element to a line, indented by two spaces a level, or stands in one
line. Only ASCII is used: every other character is written by its UTF-16 units. Data that JSON
has no form for is left to the readers of texts: octets, dates and moments are written as null,
and sets and pairs as lists.
-/

namespace Lintel

namespace Data

/-- How a document is laid out. -/
inductive JsonLayout where
  | inline
  /-- One element to a line. -/
  | indented
  deriving DecidableEq, Repr

def unitEscape (n : Nat) : List Char :=
  '\\' :: 'u' :: hexDigits 4 n

/-- One character inside a string. -/
def jsonChar (c : Char) : List Char :=
  let n := c.toNat
  if c = '"' then ['\\', '"']
  else if c = '\\' then ['\\', '\\']
  else if c = '\n' then ['\\', 'n']
  else if c = '\r' then ['\\', 'r']
  else if c = '\t' then ['\\', 't']
  else if n = 0x0C then ['\\', 'f']
  else if n = 0x08 then ['\\', 'b']
  else if 0x20 ≤ n && n ≤ 0x7E then [c]
  else if n < 0x10000 then unitEscape n
  -- a pair of units, ten bits in each
  else unitEscape (0xD800 + (n - 0x10000) / 0x400) ++ unitEscape (0xDC00 + (n - 0x10000) % 0x400)

def jsonString (s : String) : String :=
  String.ofList ('"' :: s.toList.flatMap jsonChar ++ ['"'])

def lineBreak (layout : JsonLayout) (level : Nat) : String :=
  match layout with
  | .inline => ""
  | .indented => String.ofList ('\n' :: List.replicate (2 * level) ' ')

/-- What stands between two elements. -/
def elementGap (layout : JsonLayout) (level : Nat) : String :=
  match layout with
  | .inline => ", "
  | .indented => "," ++ lineBreak layout level

def jsonBlock (layout : JsonLayout) (level : Nat) (opening closing : String)
    (elements : List String) : String :=
  -- nothing inside, and no line break for it
  if elements.isEmpty then opening ++ closing
  else
    opening ++ lineBreak layout (level + 1)
      ++ (elementGap layout (level + 1)).intercalate elements
      ++ lineBreak layout level ++ closing

def jsonKey : Data → String
  | text s => jsonString s
  | bool b => jsonString (if b then "true" else "false")
  | int n => jsonString (toString n)
  | _ => jsonString "null"

mutual

def jsonAt (layout : JsonLayout) (level : Nat) : Data → String
  | null | bytes _ | date _ | time _ | again _ => "null"
  | bool b => if b then "true" else "false"
  | int n => toString n
  | float x => x.text ⟨"Infinity", "NaN"⟩
  | text s => jsonString s
  | list xs | set xs => jsonBlock layout level "[" "]" (jsonElements layout (level + 1) xs)
  | pair k v =>
    jsonBlock layout level "[" "]" [jsonAt layout (level + 1) k, jsonAt layout (level + 1) v]
  | map es => jsonBlock layout level "\x7b" "\x7d" (jsonEntries layout (level + 1) es)

def jsonElements (layout : JsonLayout) (level : Nat) : List Data → List String
  | [] => []
  | x :: xs => jsonAt layout level x :: jsonElements layout level xs

def jsonEntries (layout : JsonLayout) (level : Nat) : List (Data × Data) → List String
  | [] => []
  | (k, v) :: es =>
    (jsonKey k ++ ": " ++ jsonAt layout level v) :: jsonEntries layout level es

end

def json (layout : JsonLayout) (d : Data) : String :=
  jsonAt layout 0 d

def record (fields : List (String × Data)) : Data :=
  map (fields.map fun (k, v) => (text k, v))

def optText : Option String → Data
  | some s => text s
  | none => null

def nat (n : Nat) : Data := int n

end Data

end Lintel
