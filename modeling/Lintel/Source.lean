import Lintel.World

/-!
# Sources

A source is a text under inspection: the text as it was given, the current text, and the issues
found in it. Four things that follow from the current text are kept once they have been
computed: its octets, the starts of its lines, its tree, and why it does not parse. A mark says
whether the last two hold for the current text. Giving the source a new text drops all of them.

The text is parsed by a `Language`: a parser, which makes a tree; the judgement of a tree, which
finds out why a text does not parse; and the walk through a tree. Each of them may fail. Where the
judgement fails, the tree is kept but the mark is not set, so the next question parses the text
again. The language of a bare `Parser` judges and walks trees as `Tree.failure` and `Node.walk` do.

Operations on a source are listed in `Source.Op`, and `Source.carryOut` carries one out; it
returns the answer together with the source, in which the memo may have grown. `Source.perform`
does the same in the language of a parser.

Rules never see a source. They see a `View`: the path, the current text with its octets and line
starts, and the outcome of parsing.
-/

namespace Lintel

/-- What a rule sees of a source. -/
structure View where
  path : Option String
  text : String
  bytes : Bytes
  starts : List Nat
  parsed : Except Fault Parsed

namespace View

def locate (v : View) (offset : Int) : Location :=
  locateFrom v.bytes v.starts offset

/-- The text of a range of octets, with replacements for broken characters. -/
def slice (v : View) (start stop : Int) : String :=
  String.ofList (Utf8.decodeLossy (Lintel.slice v.bytes start stop))

def nodes (v : View) : Except Fault (List Node) :=
  v.parsed.map Parsed.nodes

end View

/-- How the texts of a language are parsed, and what is read off their trees. -/
structure Language (σ : Type) where
  parse : Parser σ
  judge : Option Tree → Except Fault (Option ParseFailure)
  /-- A node and the nodes below it, in document order. -/
  walk : Node → Except Fault (List Node)

def Language.ofParser {σ : Type} (parser : Parser σ) : Language σ where
  parse := parser
  judge := fun tree => .ok (Parsed.ofTree tree).failure
  walk := fun n => .ok n.walk

/-- A text under inspection. -/
structure Source where
  path : Option String
  initial : String
  text : String
  /-- The octets of the text, if they have been computed. -/
  bytesMemo : Option Bytes := none
  /-- The starts of the lines, if they have been computed. -/
  startsMemo : Option (List Nat) := none
  treeMemo : Option Tree := none
  failureMemo : Option ParseFailure := none
  /-- The text has been parsed: its tree and its failure are known. -/
  known : Bool := false
  issues : List Issue := []
  /-- The last run was asked to correct. -/
  autocorrect : Bool := false

namespace Source

variable {σ : Type}

def ofText (text : String) (path : Option String := none) : Source where
  path := path
  initial := text
  text := text

def setText (s : Source) (text : String) : Source :=
  { s with
    text := text, bytesMemo := none, startsMemo := none, treeMemo := none, failureMemo := none,
    known := false }

def parsedMemo (s : Source) : Option Parsed :=
  if s.known then some ⟨s.treeMemo, s.failureMemo⟩ else none

/-- The text differs from the one given at first. -/
def isCorrected (s : Source) : Bool :=
  s.text != s.initial

def bytes (s : Source) : Bytes × Source :=
  match s.bytesMemo with
  | some bs => (bs, s)
  | none =>
    let bs := Utf8.ofString s.text
    (bs, { s with bytesMemo := some bs })

def starts (s : Source) : List Nat × Source :=
  match s.startsMemo with
  | some ls => (ls, s)
  | none =>
    -- computing the starts leaves the octets in the memo as well
    let (bs, s) := s.bytes
    let ls := lineStarts bs
    (ls, { s with startsMemo := some ls })

/-- Parse the text in a language, replacing what was known of it. -/
def reparseIn (l : Language σ) (s : Source) (w : World σ) :
    Except Fault Parsed × Source × World σ :=
  -- the octets are taken first, so they are kept whatever comes of parsing
  let s := s.bytes.2
  let reply := l.parse s.text w.memory
  let w := w.after (.parse s.text) reply
  match reply.answer with
  | .error fault => (.error fault, s, w)
  | .ok tree =>
    -- the mark `known` is set below, once the tree has been judged
    let s := { s with treeMemo := tree }
    match l.judge tree with
    | .error fault => (.error fault, s, w)
    | .ok failure => (.ok ⟨tree, failure⟩, { s with failureMemo := failure, known := true }, w)

/-- What came of parsing the text, which is parsed only if that is not known. -/
def parseIn (l : Language σ) (s : Source) (w : World σ) :
    Except Fault Parsed × Source × World σ :=
  match s.parsedMemo with
  | some parsed => (.ok parsed, s, w)
  | none => s.reparseIn l w

/-- Parse the text, replacing what was known of it. -/
def reparse (parser : Parser σ) (s : Source) (w : World σ) :
    Except Fault Parsed × Source × World σ :=
  s.reparseIn (.ofParser parser) w

/-- What the parser made of the text, asking it only if that is not known. -/
def parse (parser : Parser σ) (s : Source) (w : World σ) :
    Except Fault Parsed × Source × World σ :=
  s.parseIn (.ofParser parser) w

/-- What a rule sees of the source, given the outcome of parsing. -/
def viewWith (s : Source) (parsed : Except Fault Parsed) : View × Source :=
  let (bs, s) := s.bytes
  let (ls, s) := s.starts
  (⟨s.path, s.text, bs, ls, parsed⟩, s)

/-- What a rule sees of the source. -/
def view (parser : Parser σ) (s : Source) (w : World σ) : View × Source × World σ :=
  let (parsed, s, w) := s.parse parser w
  let (v, s) := s.viewWith parsed
  (v, s, w)

def lines (s : Source) : List String :=
  linesOf s.text

def summary (s : Source) : String :=
  "Source(" ++ shownPath "<memory>" s.path ++ ", issues=" ++ toString s.issues.length ++ ")"

/-! ### Operations -/

inductive Op where
  | assign (text : String)
  | reparse
  | tree
  | root
  | failure
  | nodes
  /-- A node, of whatever tree, and the nodes below it. -/
  | nodesBelow (n : Node)
  | bytes
  | lines
  | locate (offset : Int)
  | offset (line column : Int)
  | slice (start stop : Int)
  deriving Repr

inductive Answer where
  | done
  | tree (t : Option Tree)
  | root (n : Option Node)
  | failure (f : Option ParseFailure)
  | nodes (ns : List Node)
  | bytes (bs : Bytes)
  | lines (ls : List String)
  | location (l : Location)
  | offset (n : Nat)
  | text (s : String)

/-- Parse the text, if need be, and read the answer off the outcome. -/
def askParsed (l : Language σ) (s : Source) (w : World σ) (read : Parsed → Except Fault Answer) :
    Except Fault Answer × Source × World σ :=
  let (parsed, s, w) := s.parseIn l w
  (parsed.bind read, s, w)

/-- The nodes of a tree, as a language walks it; none without a tree. -/
def nodesIn (l : Language σ) (p : Parsed) : Except Fault (List Node) :=
  match p.tree with
  | none => .ok []
  | some t => l.walk t.root

def carryOut (l : Language σ) (op : Op) (s : Source) (w : World σ) :
    Except Fault Answer × Source × World σ :=
  match op with
  | .assign text => (.ok .done, s.setText text, w)
  | .reparse =>
    let (parsed, s, w) := s.reparseIn l w
    (parsed.map fun _ => .done, s, w)
  | .tree => s.askParsed l w fun p => .ok (.tree p.tree)
  | .root => s.askParsed l w fun p => .ok (.root (p.tree.map (·.root)))
  | .failure => s.askParsed l w fun p => .ok (.failure p.failure)
  | .nodes => s.askParsed l w fun p => (nodesIn l p).map .nodes
  -- a node of any tree: the source is not asked for its own
  | .nodesBelow n => ((l.walk n).map .nodes, s, w)
  | .bytes =>
    let (bs, s) := s.bytes
    (.ok (.bytes bs), s, w)
  | .lines => (.ok (.lines s.lines), s, w)
  | .locate offset =>
    let (bs, s) := s.bytes
    let (ls, s) := s.starts
    (.ok (.location (locateFrom bs ls offset)), s, w)
  | .offset line column =>
    let (ls, s) := s.starts
    let (bs, s) := s.bytes
    (.ok (.offset (offsetFrom s.text bs ls line column)), s, w)
  | .slice start stop =>
    let (bs, s) := s.bytes
    (.ok (.text (String.ofList (Utf8.decodeLossy (Lintel.slice bs start stop)))), s, w)

/-- Carry out an operation in the language of a parser. -/
def perform (parser : Parser σ) (op : Op) (s : Source) (w : World σ) :
    Except Fault Answer × Source × World σ :=
  s.carryOut (.ofParser parser) op w

end Source

end Lintel
