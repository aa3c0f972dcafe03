import Lintel.Data
import Lintel.Text.Quoted
import Lintel.Yaml.Cursor
import Lintel.Yaml.Plain

/-!
# Writing block documents

A document is written in block style, one entry or element to a line. A text is written in the
least quoted of three styles that reads back as that text:

* **plain**, if no character of it means something at its place and its sense is that of a text;
* in **single quotes**, which are doubled inside, if all its characters are printable ASCII or line
  feeds and no blank stands beside a line feed;
* in **double quotes**, where everything else is escaped.

Lines are folded at single spaces once they have passed column eighty. In double quotes a fold is
marked by a backslash, because blanks around a line break do not count there.

A key stands on the line of its colon if it is short, not empty and in one line; otherwise it is
introduced by a question mark.
-/

namespace Lintel

namespace Yaml

/-! ### Characters -/

/-- Characters that no unquoted text may begin with. -/
def leadingMarks : List Char :=
  ['#', ',', '[', ']', '\x7b', '\x7d', '&', '*', '!', '|', '>', '\'', '"', '%', '@', '\x60']

def isPlainAscii (c : Char) : Bool :=
  decide (0x20 ≤ c.toNat) && decide (c.toNat ≤ 0x7E)

/-! ### Styles -/

/-- How a text is written. -/
inductive Style where
  | plain
  | single
  | double
  deriving DecidableEq, Repr

/-- Whether a character would mean something after the character `before`, with `rest` after it. -/
def isMarkAt (before : Option Char) (c : Char) (rest : List Char) : Bool :=
  match before with
  -- at the beginning some characters mean something whatever follows
  | none =>
    leadingMarks.contains c || ((c = '?' || c = ':' || c = '-') && isGap rest.head?)
  | some b => (c = ':' && isGap rest.head?) || (c = '#' && isGap (some b))

/-- Whether some character would mean something. -/
def hasMarks : Option Char → List Char → Bool
  | _, [] => false
  | before, c :: rest => isMarkAt before c rest || hasMarks (some c) rest

/-- Whether `a` is followed by `b` somewhere. -/
def hasPair (a b : Char) : List Char → Bool
  | c :: d :: rest => (c = a && d = b) || hasPair a b (d :: rest)
  | _ => false

/-- A text that begins like the mark between two documents. -/
def startsLikeMark (cs : List Char) : Bool :=
  ['-', '-', '-'].isPrefixOf cs || ['.', '.', '.'].isPrefixOf cs

/-- A text that may stand in single quotes. -/
def fitsSingle (cs : List Char) : Bool :=
  cs.all (fun c => c = '\n' || isPlainAscii c) && !hasPair ' ' '\n' cs && !hasPair '\n' ' ' cs

/-- A text that may stand without quotes. -/
def fitsPlain (cs : List Char) : Bool :=
  !cs.isEmpty && cs.all isPlainAscii && cs.head? != some ' ' && cs.getLast? != some ' '
    && !startsLikeMark cs && !hasMarks none cs && Plain.sense cs == .text

/-- The style of a text. A key in front of its colon must stay in one line. -/
def styleOf (isKey : Bool) (cs : List Char) : Style :=
  if fitsPlain cs then .plain
  else if fitsSingle cs && !(isKey && cs.contains '\n') then .single
  else .double

/-! ### Scalars -/

/-- The column after which lines are folded. -/
def lineWidth : Nat := 80

def newLine (indent : Nat) : List Char :=
  '\n' :: List.replicate indent ' '

/-- A run of characters of one kind. -/
inductive Run where
  | word (cs : List Char)
  | spaces (n : Nat)
  | breaks (n : Nat)
  deriving DecidableEq, Repr

/-- Put a character in front of runs. -/
def addToRuns (c : Char) (runs : List Run) : List Run :=
  if c = ' ' then
    match runs with
    | .spaces n :: more => .spaces (n + 1) :: more
    | _ => .spaces 1 :: runs
  else if c = '\n' then
    match runs with
    | .breaks n :: more => .breaks (n + 1) :: more
    | _ => .breaks 1 :: runs
  else
    match runs with
    | .word cs :: more => .word (c :: cs) :: more
    | _ => .word [c] :: runs

def runsOf (cs : List Char) : List Run :=
  cs.foldr addToRuns []

/-- Write runs from a column on. A single space between words becomes a line break once the line
is too long; a line break in the text is written as an empty line. -/
def writeRuns (split : Bool) (indent : Nat) : Nat → Bool → List Run → List Char
  | _, _, [] => []
  | column, _, .word cs :: more =>
    cs ++ writeRuns split indent (column + cs.length) true more
  | column, inside, .spaces n :: more =>
    -- several spaces in a row would not be read back from a folded line
    if n = 1 && split && inside && !more.isEmpty && decide (lineWidth < column) then
      newLine indent ++ writeRuns split indent indent true more
    -- one line break more than the text has, since the first of several is not counted
    else List.replicate n ' ' ++ writeRuns split indent (column + n) true more
  | _, _, .breaks n :: more =>
    List.replicate n '\n' ++ newLine indent ++ writeRuns split indent indent true more

def doubleQuotes (cs : List Char) : List Char :=
  cs.flatMap fun c => if c = '\'' then ['\'', '\''] else [c]

/-- The letters that stand for characters after a backslash. -/
def escapeLetter? (c : Char) : Option Char :=
  match c.toNat with
  | 0x00 => some '0'
  | 0x07 => some 'a'
  | 0x08 => some 'b'
  | 0x09 => some 't'
  | 0x0A => some 'n'
  | 0x0B => some 'v'
  | 0x0C => some 'f'
  | 0x0D => some 'r'
  | 0x1B => some 'e'
  | 0x22 => some '"'
  | 0x5C => some '\\'
  | 0x85 => some 'N'
  | 0xA0 => some '_'
  | 0x2028 => some 'L'
  | 0x2029 => some 'P'
  | _ => none

/-- The escape of a character that double quotes need one for. -/
def escape? (c : Char) : Option (List Char) :=
  match escapeLetter? c with
  | some l => some ['\\', l]
  | none =>
    if isPlainAscii c then none
    else
      match escapeCode c.toNat with
      -- digits in upper case, but the letter before them as it is
      | mark :: width :: digits => some (mark :: width :: digits.map Char.toUpper)
      | cs => some cs

/-- The mark of a fold in double quotes; a blank that follows it is escaped too. -/
def foldMark (indent : Nat) (next : Option Char) : List Char :=
  '\\' :: newLine indent ++ if next = some ' ' then ['\\'] else []

def foldColumn (indent : Nat) (next : Option Char) : Nat :=
  if next = some ' ' then indent + 1 else indent

/-- Write the inside of double quotes from a column on. A line that is too long is folded before a
blank, before the first character after an escape, and after an escape, but never before the
first character or the last. -/
def writeDouble (split : Bool) (indent : Nat) : Nat → Bool → Bool → List Char → List Char
  | _, _, _, [] => []
  | column, inside, fresh, c :: rest =>
    let mayFold := split && inside && !rest.isEmpty
    match escape? c with
    | some e =>
      let column := column + e.length
      -- the escape is written in full before the line is broken
      if mayFold && decide (lineWidth + 1 < column) then
        e ++ foldMark indent rest.head?
          ++ writeDouble split indent (foldColumn indent rest.head?) true true rest
      else e ++ writeDouble split indent column true true rest
    | none =>
      if mayFold && (c = ' ' || fresh) && decide (lineWidth < column) then
        foldMark indent (some c) ++ c
          :: writeDouble split indent (foldColumn indent (some c) + 1) true false rest
      else c :: writeDouble split indent (column + 1) true false rest

/-- A text in its style, from a column on. Further lines are indented by `indent`. -/
def writeText (isKey : Bool) (indent column : Nat) (s : String) : String :=
  let cs := s.toList
  -- a key stays in one line, however long that gets
  let split := !isKey
  String.ofList <| match styleOf isKey cs with
    | .plain => writeRuns split indent column false (runsOf cs)
    | .single =>
      '\'' :: writeRuns split indent (column + 1) false (runsOf (doubleQuotes cs)) ++ ['\'']
    | .double => '"' :: writeDouble split indent (column + 1) false true cs ++ ['"']

/-! ### Blocks -/

inductive Block where
  | texts (xs : List String)
  | map (entries : List (String × Block))

/-- The longest key that stands in front of its colon. -/
def keyWidth : Nat := 122

/-- A key that stands in front of its colon. -/
def isSimpleKey (key : String) : Bool :=
  !key.isEmpty && !key.toList.any isBreak && decide (key.length ≤ keyWidth)

def spaces (n : Nat) : String :=
  String.ofList (List.replicate n ' ')

def elementLines (indent : Nat) (xs : List String) : List String :=
  xs.map fun x => spaces indent ++ "- " ++ writeText false (indent + 2) (indent + 2) x

/-- Put a colon into the indentation of the first line. -/
def withColon (indent : Nat) : List String → List String
  | [] => [spaces indent ++ ":"]
  | line :: more =>
    (spaces indent ++ ": " ++ String.ofList (line.toList.drop (indent + 2))) :: more

mutual

def Block.lines (indent : Nat) : Block → List String
  | .texts xs => elementLines indent xs
  | .map entries => entryLines indent entries

/-- The lines of the entries of a mapping. A list below a key that stands in front of its colon
has the indentation of the key. -/
def entryLines (indent : Nat) : List (String × Block) → List String
  | [] => []
  | (key, block) :: more =>
    let first :=
      if isSimpleKey key then
        let head := spaces indent ++ writeText true indent indent key ++ ":"
        match block with
        -- an empty collection has no lines to go below its key
        | .texts [] => [head ++ " []"]
        | .map [] => [head ++ " \x7b\x7d"]
        | .texts xs => head :: elementLines indent xs
        | .map entries => head :: entryLines (indent + 2) entries
      else
        let head := spaces indent ++ "? " ++ writeText false (indent + 2) (indent + 2) key
        match block with
        | .texts [] => [head, spaces indent ++ ": []"]
        | .map [] => [head, spaces indent ++ ": \x7b\x7d"]
        | .texts xs => head :: withColon indent (elementLines (indent + 2) xs)
        | .map entries => head :: withColon indent (entryLines (indent + 2) entries)
    first ++ entryLines indent more

end

/-- A block as a document, without a line break at the end. -/
def Block.render (b : Block) : String :=
  "\n".intercalate (b.lines 0)

mutual

def Block.data : Block → Data
  | .texts xs => .list (xs.map .text)
  | .map entries => .map (entryData entries)

/-- The data that entries say. -/
def entryData : List (String × Block) → List (Data × Data)
  | [] => []
  | (key, block) :: more => (.text key, block.data) :: entryData more

end

end Yaml

end Lintel
