import Lintel.Yaml.Layout
import Lintel.Yaml.Plain

/-!
# Nodes

A node is a scalar, a list of nodes, or a list of pairs of nodes, each with a tag that says what
kind of data it stands for. A scalar without a tag has the kind that `Plain.sense` tells if it is
plain, and is a text otherwise.

A node may have a name, and an alias stands for the node with a name. So nodes form a **graph**: a
node is known by its number in it, and a list or a mapping may hold itself. A name can be given
once.

`Document.ofScan` reads the one document of a stream. What is certain of a spoiled stream is read
first, so a document may turn out to be malformed before the spoiled place is met. The functions
that read nodes from tokens are given a number that bounds how often they call each other; every
call but a bounded number goes past a token, so `documentFuel` is always enough.
-/

namespace Lintel

namespace Yaml

/-- The kinds of data that a tag can ask for. -/
inductive Tag where
  | null
  | bool
  | int
  | float
  | binary
  | time
  | orderedMap
  | pairs
  | set
  | text
  | list
  | map
  | merge
  | default
  /-- A tag without a meaning. -/
  | other
  deriving DecidableEq, Repr

namespace Tag

/-- What the tags of the language begin with. -/
def base : String := "tag:yaml.org,2002:"

def names : List (String × Tag) :=
  [("null", .null), ("bool", .bool), ("int", .int), ("float", .float), ("binary", .binary),
    ("timestamp", .time), ("omap", .orderedMap), ("pairs", .pairs), ("set", .set), ("str", .text),
    ("seq", .list), ("map", .map), ("merge", .merge), ("value", .default)]

def ofName (s : String) : Tag :=
  match names.find? fun e => base ++ e.1 == s with
  | some (_, t) => t
  | none => .other

/-- The tag of a kind of plain scalar. -/
def ofSense : Sense → Tag
  | .null => .null
  | .bool => .bool
  | .int => .int
  | .float => .float
  | .time => .time
  | .merge => .merge
  | .default => .default
  | .mark => .other
  | .text => .text

end Tag

/-! ### Graphs -/

abbrev NodeId := Nat

inductive Content where
  | scalar (text : String)
  | list (items : List NodeId)
  | map (entries : List (NodeId × NodeId))
  deriving DecidableEq, Repr

/-- A part of a document. -/
structure Node where
  tag : Tag
  content : Content
  deriving DecidableEq, Repr

/-- The node that stands where nothing is written. -/
def Node.empty : Node := ⟨.null, .scalar ""⟩

instance : Inhabited Node := ⟨.empty⟩

/-- The nodes of a document by their numbers. -/
structure Graph where
  nodes : Array Node := #[]
  deriving DecidableEq, Repr

namespace Graph

def get (g : Graph) (id : NodeId) : Node := g.nodes.getD id .empty

def next (g : Graph) : NodeId := g.nodes.size

def push (g : Graph) (n : Node) : Graph := ⟨g.nodes.push n⟩

/-- Put a node in the place of another. -/
def set (g : Graph) (id : NodeId) (n : Node) : Graph := ⟨g.nodes.setIfInBounds id n⟩

def setContent (g : Graph) (id : NodeId) (c : Content) : Graph :=
  g.set id { g.get id with content := c }

def setTag (g : Graph) (id : NodeId) (t : Tag) : Graph :=
  g.set id { g.get id with tag := t }

end Graph

/-! ### Tokens that are left -/

/-- Tokens that are left, with the names and the handles that are known, and the nodes so far. -/
structure Feed where
  tokens : List Token
  /-- Why there are no more tokens, if the stream is spoiled after them. -/
  error : Option Error := none
  anchors : List (String × NodeId) := []
  handles : List (String × String) := []
  graph : Graph := {}

namespace Feed

def next (f : Feed) : Feed := { f with tokens := f.tokens.drop 1 }

def peek (f : Feed) : Except Error (Option Token) :=
  match f.tokens, f.error with
  -- what spoils the stream is noticed only when the tokens before it are used up
  | t :: _, _ => .ok (some t)
  | [], none => .ok none
  | [], some e => .error e

def name (f : Feed) (anchor : Option String) (id : NodeId) : Feed :=
  match anchor with
  | some a => { f with anchors := (a, id) :: f.anchors }
  | none => f

def add (f : Feed) (anchor : Option String) (n : Node) : NodeId × Feed :=
  (f.graph.next, { f with graph := f.graph.push n }.name anchor f.graph.next)

/-- Add the node that stands where nothing is written. -/
def addEmpty (f : Feed) : NodeId × Feed := f.add none .empty

end Feed

/-- What stands in front of a node: its name and its tag. -/
structure Properties where
  anchor : Option String := none
  /-- The handle of the tag and the rest of it. -/
  tag : Option (Option String × String) := none

/-- The properties in front of a node, in either order. -/
def readProperties (f : Feed) : Except Error (Properties × Feed) := do
  match ← f.peek with
  | some (.anchor a) =>
    match ← f.next.peek with
    | some (.tag h s) => .ok (⟨some a, some (h, s)⟩, f.next.next)
    | _ => .ok (⟨some a, none⟩, f.next)
  | some (.tag h s) =>
    match ← f.next.peek with
    | some (.anchor a) => .ok (⟨some a, some (h, s)⟩, f.next.next)
    | _ => .ok (⟨none, some (h, s)⟩, f.next)
  | _ => .ok ({}, f)

/-- The full name of a tag; a single exclamation mark is no tag at all. -/
def fullTag (handles : List (String × String)) :
    Option (Option String × String) → Except Error (Option String)
  | none => .ok none
  | some (none, s) => .ok (some s)
  | some (some h, s) =>
    match handles.lookup h with
    | some start => .ok (some (start ++ s))
    | none => .error .malformed

def scalarTag (tag : Option String) (plain : Bool) (text : String) : Tag :=
  match tag with
  | none => if plain then .ofSense (Plain.sense text.toList) else .text
  -- the bare mark asks for the sense of the text, even if that was quoted
  | some s => if s = "!" then .ofSense (Plain.sense text.toList) else .ofName s

def collectionTag (tag : Option String) (unset : Tag) : Tag :=
  match tag with
  | none => unset
  | some s => if s = "!" then unset else .ofName s

inductive Slot where
  /-- Inside of brackets. -/
  | flow
  | block
  /-- In a block, where a list may have the indentation of the key before it. -/
  | value
  deriving DecidableEq, Repr

/-- How a collection begins. -/
inductive Opening where
  | flowList
  | flowMap
  /-- A block of elements with an end of its own, or without. -/
  | dashes (bare : Bool)
  | entries
  deriving DecidableEq, Repr

def openingOf? : Option Token → Slot → Option Opening
  | some .openFlowList, _ => some .flowList
  | some .openFlowMap, _ => some .flowMap
  | some .dash, .value => some (.dashes true)
  | some .openList, .block | some .openList, .value => some (.dashes false)
  | some .openMap, .block | some .openMap, .value => some .entries
  | _, _ => none

mutual

def readNode : Nat → Slot → Feed → Except Error (NodeId × Feed)
  | 0, _, _ => .error .malformed
  | fuel + 1, slot, f => do
    match ← f.peek with
    -- a name stands for the very node, which may be one that is still being read
    | some (.alias a) =>
      match f.anchors.lookup a with
      | some id => .ok (id, f.next)
      | none => .error .malformed
    | _ =>
      let (p, f) ← readProperties f
      let tag ← fullTag f.handles p.tag
      readContent fuel slot p.anchor tag f

/-- What follows the properties of a node. -/
def readContent : Nat → Slot → Option String → Option String → Feed →
    Except Error (NodeId × Feed)
  | 0, _, _, _, _ => .error .malformed
  | fuel + 1, slot, anchor, tag, f => do
    let t ← f.peek
    let opening := openingOf? t slot
    let isScalar := match t with | some (.scalar ..) => true | _ => false
    -- nothing is written here, and nothing says that something should be
    if !isScalar && opening.isNone && anchor.isNone && tag.isNone then .error .malformed
    -- a name may be given once
    else if (anchor.map fun a => (f.anchors.lookup a).isSome).getD false then .error .malformed
    else
      match t, opening with
      | some (.scalar text plain), _ =>
        .ok (f.next.add anchor ⟨scalarTag tag plain text, .scalar text⟩)
      | _, some o => readCollection fuel o anchor tag f
      | _, none => .ok (f.add anchor ⟨scalarTag tag true "", .scalar ""⟩)

/-- A collection, which is there before what it holds. -/
def readCollection : Nat → Opening → Option String → Option String → Feed →
    Except Error (NodeId × Feed)
  | 0, _, _, _, _ => .error .malformed
  | fuel + 1, opening, anchor, tag, f =>
    -- the node is added empty and filled afterwards, so what is inside may refer to it
    let asList (f : Feed) (read : Feed → Except Error (List NodeId × Feed)) :
        Except Error (NodeId × Feed) := do
      let (id, f) := f.add anchor ⟨collectionTag tag .list, .list []⟩
      let (xs, f) ← read f
      .ok (id, { f with graph := f.graph.setContent id (.list xs) })
    let asMap (f : Feed) (read : Feed → Except Error (List (NodeId × NodeId) × Feed)) :
        Except Error (NodeId × Feed) := do
      let (id, f) := f.add anchor ⟨collectionTag tag .map, .map []⟩
      let (es, f) ← read f
      .ok (id, { f with graph := f.graph.setContent id (.map es) })
    match opening with
    | .flowList => asList f.next (readFlowItems fuel true)
    | .flowMap => asMap f.next (readFlowEntries fuel true)
    | .dashes true => asList f (readDashes fuel true)
    | .dashes false => asList f.next (readDashes fuel false)
    | .entries => asMap f.next (readEntries fuel)

/-- A node, or nothing if one of some tokens comes next. -/
def readOptional : Nat → Slot → List Token → Feed → Except Error (NodeId × Feed)
  | 0, _, _, _ => .error .malformed
  | fuel + 1, slot, stops, f => do
    match ← f.peek with
    | some t => if stops.contains t then .ok f.addEmpty else readNode fuel slot f
    | none => readNode fuel slot f

/-- The elements of a block. A block without an opening of its own has no end of its own. -/
def readDashes : Nat → Bool → Feed → Except Error (List NodeId × Feed)
  | 0, _, _ => .error .malformed
  | fuel + 1, bare, f => do
    match ← f.peek with
    | some .dash =>
      -- without an end of its own the list also stops where the mapping around it goes on
      let stops := if bare then [Token.dash, .key, .value, .close] else [.dash, .close]
      let (x, f) ← readOptional fuel .block stops f.next
      let (xs, f) ← readDashes fuel bare f
      .ok (x :: xs, f)
    | some .close => .ok ([], if bare then f else f.next)
    | _ => if bare then .ok ([], f) else .error .malformed

def readEntries : Nat → Feed → Except Error (List (NodeId × NodeId) × Feed)
  | 0, _ => .error .malformed
  | fuel + 1, f => do
    match ← f.peek with
    | some .key =>
      let stops := [Token.key, .value, .close]
      let (k, f) ← readOptional fuel .value stops f.next
      -- a key without a colon has nothing for its value
      let (v, f) ← if (← f.peek) = some .value then readOptional fuel .value stops f.next
        else .ok f.addEmpty
      let (es, f) ← readEntries fuel f
      .ok ((k, v) :: es, f)
    | some .close => .ok ([], f.next)
    | _ => .error .malformed

/-- An entry with a key token between brackets that end with `ending`. -/
def readFlowPair : Nat → Token → Feed → Except Error ((NodeId × NodeId) × Feed)
  | 0, _, _ => .error .malformed
  | fuel + 1, ending, f => do
    let (k, f) ← readOptional fuel .flow [.value, .comma, ending] f.next
    let (v, f) ← if (← f.peek) = some .value then
        readOptional fuel .flow [.comma, ending] f.next
      else .ok f.addEmpty
    .ok ((k, v), f)

/-- The elements between brackets. An entry among them is a mapping of its own. -/
def readFlowItems : Nat → Bool → Feed → Except Error (List NodeId × Feed)
  | 0, _, _ => .error .malformed
  | fuel + 1, first, f => do
    let t ← f.peek
    if t = some .closeFlowList then .ok ([], f.next)
    -- elements are separated by commas; one comma may also end them
    else if !first && t ≠ some .comma then .error .malformed
    else
      let f := if first then f else f.next
      match ← f.peek with
      | some .closeFlowList => .ok ([], f.next)
      | some .key =>
        let (id, f) := f.add none ⟨.map, .map []⟩
        let (e, f) ← readFlowPair fuel .closeFlowList f
        let f := { f with graph := f.graph.setContent id (.map [e]) }
        let (xs, f) ← readFlowItems fuel false f
        .ok (id :: xs, f)
      | _ =>
        let (x, f) ← readNode fuel .flow f
        let (xs, f) ← readFlowItems fuel false f
        .ok (x :: xs, f)

/-- The entries between braces. A node without a colon is a key without a value. -/
def readFlowEntries : Nat → Bool → Feed → Except Error (List (NodeId × NodeId) × Feed)
  | 0, _, _ => .error .malformed
  | fuel + 1, first, f => do
    let t ← f.peek
    if t = some .closeFlowMap then .ok ([], f.next)
    else if !first && t ≠ some .comma then .error .malformed
    else
      let f := if first then f else f.next
      match ← f.peek with
      | some .closeFlowMap => .ok ([], f.next)
      | some .key =>
        let (e, f) ← readFlowPair fuel .closeFlowMap f
        let (es, f) ← readFlowEntries fuel false f
        .ok (e :: es, f)
      | _ =>
        let (k, f) ← readNode fuel .flow f
        let (v, f) := f.addEmpty
        let (es, f) ← readFlowEntries fuel false f
        .ok ((k, v) :: es, f)

end

/-! ### Documents -/

/-- The handles that are known without a directive. -/
def defaultHandles : List (String × String) := [("!", "!"), ("!!", Tag.base)]

/-- The directives in front of a document: the version may be given once, and so may each
handle. Directives without a meaning are passed over. -/
def readInstructions : Bool → List (String × String) → List Token →
    Except Error (List (String × String) × List Token)
  | versioned, handles, .instruction (.version major _) :: ts =>
    -- of the versions of the language only the first is read
    if versioned || major ≠ 1 then .error .malformed else readInstructions true handles ts
  | versioned, handles, .instruction (.handle name start) :: ts =>
    if (handles.lookup name).isSome then .error .malformed
    else readInstructions versioned ((name, start) :: handles) ts
  | versioned, handles, .instruction .other :: ts => readInstructions versioned handles ts
  | _, handles, ts => .ok (handles, ts)

/-- The directives in front of a document and the mark of its start. -/
def readPrologue (f : Feed) : Except Error Feed := do
  let (handles, ts) ← readInstructions false [] f.tokens
  let f := { f with tokens := ts, handles := handles ++ defaultHandles }
  match ← f.peek with
  | some .documentStart => .ok f.next
  | _ => .error .malformed

/-- A bound for the calls that reading some tokens takes. -/
def documentFuel (ts : List Token) : Nat := 8 * ts.length + 16

def expectEnd (f : Feed) : Except Error Unit := do
  let f := { f with tokens := f.tokens.dropWhile (· = Token.documentEnd) }
  match ← f.peek with
  | none => .ok ()
  -- a second document; what is wrong with its start is told before that there is one
  | some _ =>
    let _ ← readPrologue f
    .error .malformed

/-- The nodes of a document and the number of the outermost one. -/
structure Document where
  root : NodeId
  graph : Graph
  deriving DecidableEq, Repr

namespace Document

def empty : Document := ⟨0, ⟨#[.empty]⟩⟩

/-- Whether nothing follows the mark of a document's start. -/
def endsAtOnce : Option Token → Bool
  | none => true
  | some (.instruction _) => true
  | some .documentStart => true
  | some .documentEnd => true
  | _ => false

/-- The content of a document, after its start if that is marked. -/
def ofFeed (marked : Bool) (f : Feed) : Except Error Document := do
  let t ← f.peek
  let (id, f) ← if marked && endsAtOnce t then .ok f.addEmpty
    else readNode (documentFuel f.tokens) .block f
  expectEnd f
  .ok ⟨id, f.graph⟩

/-- The one document of a stream; a stream without one is empty. -/
def ofScan (s : Scan) : Except Error Document := do
  let f : Feed := { tokens := s.tokens, error := s.error, handles := defaultHandles }
  match ← f.peek with
  | none => .ok empty
  -- directives need a mark after them, and a marked document may be empty
  | some (.instruction _) | some .documentStart => ofFeed true (← readPrologue f)
  | some _ => ofFeed false f

end Document

end Yaml

end Lintel
