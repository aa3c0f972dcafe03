import Lintel.Yaml.Token

/-!
# Layout

Outside of brackets, blocks begin and end by indentation: a hyphen or a key in a column further to
the right than the current block opens a block, and a line that begins further to the left closes
the blocks that reach beyond it.

A key is recognised late. Only the colon after it tells that it was one, so every scalar, alias or
collection that may turn out to be a key is kept in mind with the number of tokens before it, and
the colon puts the key token, and the opening of a block, in front of it. A key must be in one line
and not longer than `keyReach`. At the left edge of a block nothing but a key can stand, so there
a key that gets no colon is an error.

`scan` reads the tokens of a document. Each step goes past at least one character, or ends. A step
that fails spoils the document, but whoever reads the tokens may find something else to be wrong
before that. So a scan has the tokens that are certain without the step: those before the first
thing that may still turn out to be a key, or all of them.
-/

namespace Lintel

namespace Yaml

/-- The most characters between the beginning of a key and its colon. -/
def keyReach : Nat := 1024

/-- Something that may turn out to be a key. -/
structure PossibleKey where
  level : Nat
  /-- How many tokens come before it. -/
  before : Nat
  /-- It stands where only a key can stand. -/
  required : Bool
  index : Nat
  line : Nat
  column : Nat
  deriving DecidableEq, Repr

structure Layout where
  cursor : Cursor
  /-- The tokens so far, the newest first. -/
  tokens : List Token := []
  count : Nat := 0
  level : Nat := 0
  indent : Int := -1
  /-- The columns of the blocks around it. -/
  outer : List Int := []
  /-- A key or an element may begin here. -/
  allowsKey : Bool := true
  keys : List PossibleKey := []
  deriving DecidableEq, Repr

namespace Layout

def push (l : Layout) (t : Token) : Layout :=
  { l with tokens := t :: l.tokens, count := l.count + 1 }

def insert (l : Layout) (before : Nat) (ts : List Token) : Layout :=
  -- the newest tokens come first, so the place is counted from the other end
  let newer := l.count - before
  { l with
    tokens := l.tokens.take newer ++ ts.reverse ++ l.tokens.drop newer
    count := l.count + ts.length }

/-- Whether a bracket is open. -/
def inFlow (l : Layout) : Bool := l.level != 0

/-- The column of the next character. -/
def column (l : Layout) : Int := l.cursor.column

/-! ### Blocks -/

def closeBlocks (column : Int) : Nat → Layout → Layout
  | 0, l => l
  | fuel + 1, l =>
    -- one token for each block that ends here
    if column < l.indent then
      closeBlocks column fuel
        { l.push .close with indent := l.outer.headD (-1), outer := l.outer.drop 1 }
    else l

/-- Close the blocks that reach beyond a column, unless a bracket is open. -/
def unwind (l : Layout) (column : Int) : Layout :=
  if l.inFlow then l else closeBlocks column (l.outer.length + 1) l

/-- Begin a block at a column, if it is further to the right than the current one. -/
def indentTo? (l : Layout) (column : Int) : Option Layout :=
  if l.indent < column then some { l with indent := column, outer := l.indent :: l.outer } else none

def openBlock (l : Layout) (opening : Token) : Layout :=
  match l.indentTo? l.column with
  | some l' => l'.push opening
  | none => l

/-! ### Keys -/

/-- Whether something can no longer be a key. -/
def isStale (l : Layout) (k : PossibleKey) : Bool :=
  -- the colon must come on the same line, and soon
  k.line != l.cursor.line || decide (keyReach < l.cursor.index - k.index)

/-- Forget what can no longer be a key. -/
def dropStale (l : Layout) : Except Error Layout :=
  if l.keys.any fun k => l.isStale k && k.required then .error .malformed
  else .ok { l with keys := l.keys.filter fun k => !l.isStale k }

/-- Forget the possible key between the current brackets. -/
def forgetKey (l : Layout) : Except Error Layout :=
  if l.keys.any fun k => k.level == l.level && k.required then .error .malformed
  else .ok { l with keys := l.keys.filter fun k => k.level != l.level }

/-- Keep in mind that a key may begin here. -/
def rememberKey (l : Layout) : Except Error Layout :=
  if l.allowsKey then do
    let l ← l.forgetKey
    let c := l.cursor
    let k : PossibleKey :=
      -- at the left edge of a block nothing but a key can stand
      ⟨l.level, l.count, !l.inFlow && l.indent == l.column, c.index, c.line, c.column⟩
    .ok { l with keys := k :: l.keys }
  else .ok l

/-! ### Steps -/

/-- Go past blanks, comments and line breaks. -/
def skipGaps : Nat → Layout → Layout
  | 0, l => l
  | fuel + 1, l =>
    let c := l.cursor.skipWhile (· = ' ')
    let c := if c.peek = some '#' then c.skipLine else c
    match c.lineBreak? with
    -- a new line may begin with a key, unless a bracket is open
    | some (_, c) => skipGaps fuel { l with cursor := c, allowsKey := l.allowsKey || !l.inFlow }
    | none => { l with cursor := c }

/-- Add a token and go past `n` characters. -/
def take (n : Nat) (t : Token) (l : Layout) : Layout :=
  { l.push t with cursor := l.cursor.skip n }

/-- A mark between documents, or a directive: all blocks end. -/
def breakOff (l : Layout) : Except Error Layout := do
  let l ← (l.unwind (-1)).forgetKey
  .ok { l with allowsKey := false }

def openFlow (t : Token) (l : Layout) : Except Error Layout := do
  let l ← l.rememberKey
  .ok (take 1 t { l with level := l.level + 1, allowsKey := true })

/-- A closing bracket. One that was never opened is an error. -/
def closeFlow (t : Token) (l : Layout) : Except Error Layout := do
  let l ← l.forgetKey
  if l.level = 0 then .error .malformed
  else .ok (take 1 t { l with level := l.level - 1, allowsKey := false })

def comma (l : Layout) : Except Error Layout := do
  let l ← { l with allowsKey := true }.forgetKey
  .ok (take 1 .comma l)

def beginAt (opening : Token) (l : Layout) : Except Error Layout :=
  if l.inFlow then .ok l
  else if l.allowsKey then .ok (l.openBlock opening)
  else .error .malformed

/-- The hyphen of an element. -/
def dash (l : Layout) : Except Error Layout := do
  let l ← beginAt .openList l
  let l ← { l with allowsKey := true }.forgetKey
  .ok (take 1 .dash l)

def questionMark (l : Layout) : Except Error Layout := do
  let l ← beginAt .openMap l
  let l ← { l with allowsKey := !l.inFlow }.forgetKey
  .ok (take 1 .key l)

def colonAfter (k : PossibleKey) (l : Layout) : Layout :=
  let l := { l with keys := l.keys.filter fun k' => k'.level != l.level, allowsKey := false }
  match if l.inFlow then none else l.indentTo? k.column with
  -- the first key of its block: the block opens in front of it
  | some l' => l'.insert k.before [.openMap, .key]
  | none => l.insert k.before [.key]

def colon (l : Layout) : Except Error Layout :=
  match l.keys.find? (·.level == l.level) with
  | some k => .ok (take 1 .value (colonAfter k l))
  -- a colon with no key before it: the key is nothing at all
  | none => do
    let l ← beginAt .openMap l
    let l ← { l with allowsKey := !l.inFlow }.forgetKey
    .ok (take 1 .value l)

/-- Something that may be a key, read by `read`. -/
def leaf (read : Cursor → Except Error (Token × Cursor)) (l : Layout) : Except Error Layout := do
  let l ← l.rememberKey
  let (t, c) ← read l.cursor
  .ok { l.push t with cursor := c, allowsKey := false }

def named (make : String → Token) (c : Cursor) : Except Error (Token × Cursor) := do
  let (name, c) ← readName c
  .ok (make name, c)

def blockScalar (folded : Bool) (l : Layout) : Except Error Layout := do
  let l ← { l with allowsKey := true }.forgetKey
  let (t, c) ← readBlock folded l.indent l.cursor
  .ok { l.push t with cursor := c }

/-- A plain scalar. A line break at its end allows a key again. -/
def plainScalar (l : Layout) : Except Error Layout := do
  let l ← l.rememberKey
  let (t, broken, c) := readPlain l.inFlow (l.indent + 1) l.cursor
  .ok { l.push t with cursor := c, allowsKey := broken }

/-- The characters that cannot begin a plain scalar. -/
def plainBarred : List Char :=
  "-?:,[]\x7b\x7d#&*!|>'\"%@\x60".toList

/-- Whether a plain scalar can begin here. -/
def startsPlain (l : Layout) (ch : Char) : Bool :=
  !(isGap (some ch) || plainBarred.contains ch)
    -- a mark that means nothing because a character follows at once
    || (!isGap (l.cursor.peekAt 1) && (ch = '-' || (!l.inFlow && (ch = '?' || ch = ':'))))

/-- A mark that counts only before a gap, outside of brackets. -/
def isMark (l : Layout) : Bool :=
  l.inFlow || isGap (l.cursor.peekAt 1)

def read (l : Layout) (ch : Char) : Except Error Layout :=
  let leftmost := l.cursor.column == 0
  if ch = '%' && leftmost then do
    let l ← l.breakOff
    let (t, c) ← readInstruction l.cursor
    .ok { l.push t with cursor := c }
  -- marks between documents count at the left margin only
  else if leftmost && l.cursor.atMark '-' then l.breakOff.map (take 3 .documentStart)
  else if leftmost && l.cursor.atMark '.' then l.breakOff.map (take 3 .documentEnd)
  else
    match ch with
    | '[' => l.openFlow .openFlowList
    | '\x7b' => l.openFlow .openFlowMap
    | ']' => l.closeFlow .closeFlowList
    | '\x7d' => l.closeFlow .closeFlowMap
    | ',' => l.comma
    | '*' => l.leaf (named .alias)
    | '&' => l.leaf (named .anchor)
    | '!' => l.leaf readTag
    | '\'' => l.leaf (readQuoted false)
    | '"' => l.leaf (readQuoted true)
    | _ =>
      if ch = '-' && isGap (l.cursor.peekAt 1) then l.dash
      else if ch = '?' && l.isMark then l.questionMark
      else if ch = ':' && l.isMark then l.colon
      else if ch = '|' && !l.inFlow then l.blockScalar false
      else if ch = '>' && !l.inFlow then l.blockScalar true
      else if l.startsPlain ch then l.plainScalar
      else .error .malformed

/-- Go to the next token: skip blanks, and close the blocks that end before it. -/
def approach (l : Layout) : Except Error Layout := do
  let l ← (skipGaps (l.cursor.rest.length + 1) l).dropStale
  .ok (l.unwind l.column)

/-- Read the next token, and tell whether there was one. -/
def step (l : Layout) : Except Error (Bool × Layout) := do
  let l ← l.approach
  match l.cursor.peek with
  | none => l.breakOff.map (false, ·)
  | some ch => (l.read ch).map (true, ·)

/-- How many tokens are certain: those before the first possible key. -/
def certain (l : Layout) : Nat :=
  ((l.keys.filter fun k => !l.isStale k).map (·.before)).foldl min l.count

end Layout

/-- The tokens that can be read from a document, and why no more can, if the document is spoiled
after them. -/
structure Scan where
  tokens : List Token
  error : Option Error := none
  deriving DecidableEq, Repr

def Layout.run : Nat → Layout → Scan
  | 0, l => ⟨l.tokens.reverse, some .malformed⟩
  | fuel + 1, l =>
    match l.step with
    -- tokens after a possible key are not yet certain and are not handed out
    | .error e => ⟨l.tokens.reverse.take l.certain, some e⟩
    | .ok (false, l') => ⟨l'.tokens.reverse, none⟩
    | .ok (true, l') => l'.run fuel

/-- The layout before the first character; a byte order mark there is skipped. -/
def Layout.start (text : List Char) : Layout :=
  let c : Cursor := ⟨text, 0, 0, 0⟩
  { cursor := if c.peek = some byteOrderMark then c.next else c }

def scan (text : List Char) : Scan :=
  if text.all isAllowed then (Layout.start text).run (text.length + 1) else ⟨[], some .malformed⟩

end Yaml

end Lintel
