import Lintel.Number.Whole
import Lintel.Yaml.Cursor

/-!
# Tokens

A document is read in two steps: first its characters become tokens, and then tokens become nodes.
This module has the tokens and reads those that stand for themselves: directives, names of
anchors, tags, and scalars in their five styles. Which token comes next, and where the layout of
the lines opens and closes a block, is for `Lintel.Yaml.Layout`.

In quoted and plain scalars a single line break counts as a space, and of several line breaks one
is dropped. In block scalars every line break counts, unless the scalar is folded, where a line
break between two lines that begin with no blank counts as a space.
-/

namespace Lintel

namespace Yaml

inductive Instruction where
  /-- The document is written in this version of the language. -/
  | version (major minor : Nat)
  /-- Tags with this handle begin like this. -/
  | handle (name start : String)
  /-- An instruction without a meaning. -/
  | other
  deriving DecidableEq, Repr

/-- The parts of a document. -/
inductive Token where
  | instruction (i : Instruction)
  | documentStart
  | documentEnd
  | openList
  /-- A block of entries begins. -/
  | openMap
  /-- A block ends. -/
  | close
  | openFlowList
  | openFlowMap
  | closeFlowList
  | closeFlowMap
  | dash
  | comma
  | key
  | value
  | alias (name : String)
  | anchor (name : String)
  | tag (handle : Option String) (rest : String)
  | scalar (text : String) (plain : Bool)
  deriving DecidableEq, Repr

/-! ### Names and tags -/

def isNameChar (c : Char) : Bool :=
  c.isAlphanum || c = '-' || c = '_'

def isTagChar (c : Char) : Bool :=
  c.isAlphanum || "-;/?:@&=+$,_.!~*'()[]%".toList.contains c

def hexValue? (c : Char) : Option Nat :=
  if c.isDigit then some (c.toNat - '0'.toNat)
  else if 'a' ≤ c && c ≤ 'f' then some (c.toNat - 'a'.toNat + 10)
  else if 'A' ≤ c && c ≤ 'F' then some (c.toNat - 'A'.toNat + 10)
  else none

/-- The number written by hexadecimal digits. -/
def hexNumber? (cs : List Char) : Option Nat :=
  cs.foldlM (fun n c => (hexValue? c).map (n * 16 + ·)) 0

/-- Octets written by escapes, as a text. -/
def unescapeTag? (octets : Bytes) : List Char → Option (List Char)
  | '%' :: a :: b :: cs =>
    match hexNumber? [a, b] with
    | some n => unescapeTag? (octets ++ [UInt8.ofNat n]) cs
    | none => none
  | '%' :: _ => none
  | cs =>
    -- the escapes are over: together they must make up characters
    match Utf8.decode octets with
    | .error _ => none
    | .ok text =>
      match cs with
      | [] => some text
      | c :: more => (unescapeTag? [] more).map (text ++ c :: ·)

/-- The characters of a tag, with their escapes undone. -/
def readTagText (c : Cursor) : Except Error (String × Cursor) :=
  let (cs, c) := c.takeWhile isTagChar
  match cs, unescapeTag? [] cs with
  | [], _ => .error .malformed
  | _, some text => .ok (String.ofList text, c)
  | _, none => .error .malformed

/-- The handle of a tag: a name between exclamation marks, or one of them before a space. -/
def readHandle (c : Cursor) : Except Error (String × Cursor) :=
  match c.rest with
  | '!' :: ' ' :: _ => .ok ("!", c.next)
  | '!' :: more =>
    let name := more.takeWhile isNameChar
    if more[name.length]? = some '!' then
      .ok (String.ofList ('!' :: name ++ ['!']), c.skip (name.length + 2))
    else .error .malformed
  | _ => .error .malformed

/-- Whether an exclamation mark follows before the next space. -/
def hasHandle (cs : List Char) : Bool :=
  (cs.takeWhile fun ch => ch ≠ ' ' && !isBreak ch).contains '!'

/-- A tag without the check of what follows it. -/
def readTagBody (c : Cursor) : Except Error (Token × Cursor) :=
  if c.peekAt 1 = some '<' then do
    let (text, c) ← readTagText (c.skip 2)
    if c.peek = some '>' then .ok (.tag none text, c.next) else .error .malformed
  -- a mark by itself asks for the kind that the text has without it
  else if isGap (c.peekAt 1) then .ok (.tag none "!", c.next)
  else do
    let (handle, c) ← if hasHandle (c.rest.drop 1) then readHandle c else .ok ("!", c.next)
    let (text, c) ← readTagText c
    .ok (.tag (some handle) text, c)

/-- A tag, with a space or the end of the line after it. -/
def readTag (c : Cursor) : Except Error (Token × Cursor) := do
  let (t, c) ← readTagBody c
  if isLineEnd c.peek || c.peek = some ' ' then .ok (t, c) else .error .malformed

/-- What may follow the name of an anchor. -/
def endsName (c : Option Char) : Bool :=
  isGap c || (c.map fun ch => "?:,]\x7d%@\x60".toList.contains ch).getD false

/-- The name of an anchor or an alias, after its mark. -/
def readName (c : Cursor) : Except Error (String × Cursor) :=
  let (name, c) := c.next.takeWhile isNameChar
  if name.isEmpty || !endsName c.peek then .error .malformed
  else .ok (String.ofList name, c)

/-! ### Directives -/

/-- The end of a line that holds nothing more, or only a comment. -/
def finishLine (c : Cursor) : Except Error Cursor :=
  let c := c.skipWhile (· = ' ')
  let c := if c.peek = some '#' then c.skipLine else c
  match c.peek, c.lineBreak? with
  | none, _ => .ok c
  | _, some (_, c) => .ok c
  | _, none => .error .malformed

def readNumber (c : Cursor) : Except Error (Nat × Cursor) :=
  let (ds, c) := c.takeWhile Char.isDigit
  match Whole.unsigned 10 ds with
  | .ok n => .ok (n, c)
  -- digits it is, but the number cannot be made of them
  | .error (.tooLong digits) => .error (.fault (.badValue (Whole.tooLongMessage digits)))
  | .error .malformed => .error .malformed

def expectSpace (c : Cursor) : Except Error Unit :=
  if isLineEnd c.peek || c.peek = some ' ' then .ok () else .error .malformed

def readVersion (c : Cursor) : Except Error (Instruction × Cursor) := do
  let (major, c) ← readNumber (c.skipWhile (· = ' '))
  if c.peek ≠ some '.' then .error .malformed
  else
    let (minor, c) ← readNumber c.next
    expectSpace c
    .ok (.version major minor, c)

def readHandleRule (c : Cursor) : Except Error (Instruction × Cursor) := do
  let (name, c) ← readHandle (c.skipWhile (· = ' '))
  if c.peek ≠ some ' ' then .error .malformed
  else
    let (start, c) ← readTagText (c.skipWhile (· = ' '))
    expectSpace c
    .ok (.handle name start, c)

/-- A directive with the rest of its line. -/
def readInstruction (c : Cursor) : Except Error (Token × Cursor) := do
  let (name, c) := c.next.takeWhile isNameChar
  if name.isEmpty then .error .malformed
  else
    expectSpace c
    let (i, c) ← match String.ofList name with
      | "YAML" => readVersion c
      | "TAG" => readHandleRule c
      | _ => .ok (.other, c.skipLine)
    let c ← finishLine c
    .ok (.instruction i, c)

/-! ### Quoted scalars -/

/-- The line breaks and blanks at the start of a line inside a quoted scalar. -/
def quotedBreaks : Nat → Cursor → Except Error (List Char × Cursor)
  | 0, _ => .error .malformed
  | fuel + 1, c =>
    -- the next document begins, and the quote was never closed
    if c.atAnyMark then .error .malformed
    else
      let c := c.skipWhile isSpace
      match c.lineBreak? with
      | none => .ok ([], c)
      | some (b, c) => do
        let (bs, c) ← quotedBreaks fuel c
        .ok (b :: bs, c)

/-- What a line break counts for, given the line breaks after it. -/
def foldBreaks (first : Char) (more : List Char) : List Char :=
  -- only a plain line feed is folded; one of those that follow has gone with it
  if first ≠ '\n' then first :: more else if more.isEmpty then [' '] else more

def quotedGap (fuel : Nat) (c : Cursor) : Except Error (List Char × Cursor) :=
  let (blanks, c) := c.takeWhile isSpace
  match c.peek, c.lineBreak? with
  | none, _ => .error .malformed
  | _, none => .ok (blanks, c)
  | _, some (b, c) => do
    let (bs, c) ← quotedBreaks fuel c
    .ok (foldBreaks b bs, c)

/-- The characters that a letter stands for after a backslash. -/
def letterValue? (c : Char) : Option Char :=
  match c with
  | '0' => some '\x00'
  | 'a' => some '\x07'
  | 'b' => some '\x08'
  | 't' => some '\t'
  | '\t' => some '\t'
  | 'n' => some '\n'
  | 'v' => some '\x0B'
  | 'f' => some '\x0C'
  | 'r' => some '\r'
  | 'e' => some '\x1B'
  | ' ' => some ' '
  | '"' => some '"'
  | '\\' => some '\\'
  | '/' => some '/'
  | 'N' => some '\u0085'
  | '_' => some '\u00A0'
  | 'L' => some '\u2028'
  | 'P' => some '\u2029'
  | _ => none

/-- How many hexadecimal digits follow a letter. -/
def codeWidth? (c : Char) : Option Nat :=
  match c with
  | 'x' => some 2
  | 'u' => some 4
  | 'U' => some 8
  | _ => none

/-- A character given by its code point in `width` digits. Half of a surrogate pair is none, and a
document that names one is given up. -/
def readCode (width : Nat) (c : Cursor) : Except Error (List Char × Cursor) :=
  let digits := c.rest.take width
  match hexNumber? digits with
  | none => .error .malformed
  | some n =>
    -- too few characters are left; their digits were looked at before
    if digits.length < width then .error .malformed
    else if 0x80000000 ≤ n then .error (.fault .tooLarge)
    else if 0x110000 ≤ n then .error (.fault (.badValue "chr() arg not in range(0x110000)"))
    else if 0xD800 ≤ n ∧ n ≤ 0xDFFF then .error (.fault .noOctets)
    else .ok ([Char.ofNat n], c.skip width)

/-- What stands after a backslash. -/
def readEscape (fuel : Nat) (c : Cursor) : Except Error (List Char × Cursor) :=
  match c.peek with
  | none => .error .malformed
  | some ch =>
    match letterValue? ch, codeWidth? ch, c.lineBreak? with
    | some v, _, _ => .ok ([v], c.next)
    | none, some width, _ => readCode width c.next
    | none, none, some (_, c) => quotedBreaks fuel c
    | none, none, none => .error .malformed

/-- The rest of a quoted scalar up to its closing quote. -/
def quotedRest (double : Bool) : Nat → Cursor → Except Error (List Char × Cursor)
  | 0, _ => .error .malformed
  | fuel + 1, c =>
    let continueWith (part : List Char × Cursor) : Except Error (List Char × Cursor) := do
      let (rest, c) ← quotedRest double fuel part.2
      .ok (part.1 ++ rest, c)
    match c.rest with
    | [] => .error .malformed
    | ch :: more =>
      if ch = '\'' && !double then
        if more.head? = some '\'' then continueWith (['\''], c.skip 2) else .ok ([], c.next)
      else if ch = '"' && double then .ok ([], c.next)
      else if ch = '\\' && double then
        match readEscape fuel c.next with
        | .error e => .error e
        | .ok part => continueWith part
      else if isSpace ch || isBreak ch then
        match quotedGap fuel c with
        | .error e => .error e
        | .ok part => continueWith part
      else continueWith ([ch], c.next)

def readQuoted (double : Bool) (c : Cursor) : Except Error (Token × Cursor) := do
  let (text, c) ← quotedRest double (c.rest.length + 1) c.next
  .ok (.scalar (String.ofList text) false, c)

/-! ### Plain scalars -/

def isFlowMark (c : Char) : Bool :=
  c = ',' || c = '[' || c = ']' || c = '\x7b' || c = '\x7d'

/-- Whether a colon before `next` ends a plain scalar. -/
def endsBeforeColon (inFlow : Bool) (next : Option Char) : Bool :=
  isGap next || (inFlow && (next.map isFlowMark).getD false)

/-- The characters of a plain scalar up to a blank or a mark. -/
def plainWord (inFlow : Bool) : List Char → List Char
  | [] => []
  | c :: cs =>
    if isGap (some c) || (c = ':' && endsBeforeColon inFlow cs.head?)
        || (inFlow && (isFlowMark c || c = '?')) then []
    else c :: plainWord inFlow cs

/-- What follows a line break in a plain scalar: line breaks and spaces. Nothing is given if a
mark between documents comes first. -/
def plainBreaks : Nat → Cursor → Option (List Char) × Cursor
  | 0, c => (none, c)
  | fuel + 1, c =>
    if c.peek = some ' ' then plainBreaks fuel c.next
    else
      match c.lineBreak? with
      | none => (some [], c)
      | some (b, c) =>
        -- what was read of this gap is dropped, breaks and all
        if c.atAnyMark then (none, c)
        else
          let (bs, c) := plainBreaks fuel c
          (bs.map (b :: ·), c)

/-- The blanks between two words of a plain scalar, as far as they count, and whether they hold a
line break. -/
def plainGap (fuel : Nat) (c : Cursor) : List Char × Bool × Cursor :=
  let (blanks, c) := c.takeWhile (· = ' ')
  match c.lineBreak? with
  | none => (blanks, false, c)
  | some (b, c) =>
    if c.atAnyMark then ([], true, c)
    else
      let (bs, c) := plainBreaks fuel c
      ((bs.map (foldBreaks b)).getD [], true, c)

/-- The rest of a plain scalar whose lines are indented by at least `indent`: its characters, the
cursor after it, and whether it ended with a line break. -/
def plainRest (inFlow : Bool) (indent : Int) :
    Nat → Bool → List Char → Cursor → List Char × Bool × Cursor
  | 0, broken, _, c => ([], broken, c)
  | fuel + 1, broken, gap, c =>
    -- a comment begins after a blank only, which is where a word begins
    let word := if c.peek = some '#' then [] else plainWord inFlow c.rest
    if word.isEmpty then ([], broken, c)
    else
      let (gap', broken', c') := plainGap fuel (c.skip word.length)
      -- the scalar ends with this word, and what follows it does not count
      if gap'.isEmpty || c'.peek = some '#' || (!inFlow && decide ((c'.column : Int) < indent)) then
        (gap ++ word, broken', c')
      else
        let (rest, result) := plainRest inFlow indent fuel broken' gap' c'
        (gap ++ word ++ rest, result)

/-- A plain scalar, and whether it ended with a line break. -/
def readPlain (inFlow : Bool) (indent : Int) (c : Cursor) : Token × Bool × Cursor :=
  let (text, broken, c) := plainRest inFlow indent (c.rest.length + 1) false [] c
  (.scalar (String.ofList text) true, broken, c)

/-! ### Block scalars -/

/-- What becomes of the line breaks at the end of a block scalar. -/
inductive Chomping where
  | strip
  | clip
  | keep
  deriving DecidableEq, Repr

/-- The mark for what becomes of the line breaks at the end. -/
def chompingOf? : Option Char → Option Chomping
  | some '+' => some .keep
  | some '-' => some .strip
  | _ => none

/-- An indentation in one digit; zero is none. -/
def readIncrement (c : Cursor) : Except Error (Option Nat × Cursor) :=
  match c.peek with
  | some d =>
    if d = '0' then .error .malformed
    else if d.isDigit then .ok (some (d.toNat - '0'.toNat), c.next) else .ok (none, c)
  | none => .ok (none, c)

/-- The two marks of a block scalar, in either order. -/
def readBlockMarks (c : Cursor) : Except Error (Chomping × Option Nat × Cursor) :=
  match chompingOf? c.peek with
  | some chomping => do
    let (increment, c) ← readIncrement c.next
    .ok (chomping, increment, c)
  | none => do
    let (increment, c) ← readIncrement c
    match increment, chompingOf? c.peek with
    | some _, some chomping => .ok (chomping, increment, c.next)
    | _, _ => .ok (.clip, increment, c)

def skipIndent (indent : Nat) (c : Cursor) : Cursor :=
  c.skip (min (c.rest.takeWhile (· = ' ')).length (indent - c.column))

/-- The empty lines at the start, and the cursor at the indentation of the next line. -/
def blockBreaks (indent : Nat) : Nat → Cursor → List Char × Cursor
  | 0, c => ([], c)
  | fuel + 1, c =>
    let c := skipIndent indent c
    match c.lineBreak? with
    | none => ([], c)
    | some (b, c) =>
      let (bs, c) := blockBreaks indent fuel c
      (b :: bs, c)

/-- The lines of blanks at the start, with the greatest indentation among them. -/
def blockIndent : Nat → Nat → Cursor → List Char × Nat × Cursor
  | 0, deepest, c => ([], deepest, c)
  | fuel + 1, deepest, c =>
    if c.peek = some ' ' then blockIndent fuel (max deepest c.next.column) c.next
    else
      match c.lineBreak? with
      | none => ([], deepest, c)
      | some (b, c) =>
        let (bs, deepest, c) := blockIndent fuel deepest c
        (b :: bs, deepest, c)

/-- What the end of a block scalar counts for: its last line break and the empty lines after it. -/
def chompEnd (chomping : Chomping) (last : List Char) (breaks : List Char) : List Char :=
  match chomping with
  | .strip => []
  | .clip => last
  | .keep => last ++ breaks

/-- The line break between two lines of a block scalar. -/
def joinLines (folded : Bool) (last : List Char) (breaks : List Char) (starts next : Option Char) :
    List Char :=
  let unindented (c : Option Char) : Bool := (c.map fun ch => !isSpace ch).getD true
  -- lines that begin with a blank keep the breaks around them
  if folded && last = ['\n'] && unindented starts && unindented next then
    if breaks.isEmpty then [' '] else []
  else last

def blockLines (folded : Bool) (chomping : Chomping) (indent : Nat) :
    Nat → List Char → List Char → Cursor → List Char × Cursor
  | 0, _, _, c => ([], c)
  | fuel + 1, last, breaks, c =>
    -- a line that is indented less ends the scalar
    if c.column = indent && c.peek.isSome then
      let starts := c.peek
      let (line, c) := c.takeWhile fun ch => !isBreak ch
      let (last, c) := match c.lineBreak? with
        | some (b, c) => ([b], c)
        | none => ([], c)
      let (breaks', c) := blockBreaks indent (fuel + 1) c
      if c.column = indent && c.peek.isSome then
        let joint := joinLines folded last breaks' starts c.peek
        let (rest, c) := blockLines folded chomping indent fuel last breaks' c
        (breaks ++ line ++ joint ++ rest, c)
      else (breaks ++ line ++ chompEnd chomping last breaks', c)
    else (chompEnd chomping last breaks, c)

/-- A block scalar inside a block of this indentation. -/
def readBlock (folded : Bool) (parent : Int) (c : Cursor) : Except Error (Token × Cursor) := do
  let (chomping, increment, c) ← readBlockMarks c.next
  expectSpace c
  let c ← finishLine c
  -- a block scalar is indented further than what it is in, even at the outermost level
  let least := max (parent + 1) 1
  let fuel := c.rest.length + 1
  let (indent, breaks, c) := match increment with
    | some n =>
      let indent := (least + n - 1).toNat
      let (breaks, c) := blockBreaks indent fuel c
      (indent, breaks, c)
    -- without a mark the first line that is not blank tells how far it is indented
    | none =>
      let (breaks, deepest, c) := blockIndent fuel 0 c
      (max least.toNat deepest, breaks, c)
  let (text, c) := blockLines folded chomping indent fuel [] breaks c
  .ok (.scalar (String.ofList text) false, c)

end Yaml

end Lintel
