import Lintel.Text.Blank
import Lintel.Text.Utf8

/-!
# Syntax trees

A tree is what a parser makes of a text: nodes with a kind, a range of octets, the name of the
field they fill in their parent, and children. Two marks are kept per node: whether it is *named*
(as opposed to a bare token) and whether it is *missing*, that is, put in by the parser where the
text has nothing.

`Node.walk` lists the nodes in document order with an explicit list of pending nodes;
`Node.preorder` is the same order by recursion on the tree.

A parser that meets text it cannot place marks the root and leaves a missing node or a node of
kind `ERROR` somewhere. `Tree.failure` turns the first of these into a message and a range.
-/

namespace Lintel

structure Node where
  kind : String
  start : Nat
  stop : Nat
  named : Bool
  missing : Bool
  field : Option String
  children : List Node
  deriving Repr

instance : Inhabited Node := ⟨⟨"", 0, 0, false, false, none, []⟩⟩

namespace Node

mutual

/-- The nodes of a tree, a node before its children and these from left to right. -/
def preorder : Node → List Node
  | ⟨k, s, e, n, m, f, cs⟩ => ⟨k, s, e, n, m, f, cs⟩ :: preorderAll cs

def preorderAll : List Node → List Node
  | [] => []
  | c :: cs => preorder c ++ preorderAll cs

end

mutual

/-- The number of nodes of a tree. -/
def count : Node → Nat
  | ⟨_, _, _, _, _, _, cs⟩ => countAll cs + 1

def countAll : List Node → Nat
  | [] => 0
  | c :: cs => count c + countAll cs

end

@[simp] theorem countAll_nil : countAll [] = 0 := by
  simp [countAll]

@[simp] theorem countAll_cons (c : Node) (cs : List Node) :
    countAll (c :: cs) = c.count + countAll cs := by
  simp [countAll]

@[simp] theorem countAll_append (cs ds : List Node) :
    countAll (cs ++ ds) = countAll cs + countAll ds := by
  induction cs with
  | nil => simp
  | cons c cs ih => simp [ih, Nat.add_assoc]

theorem count_eq (n : Node) : n.count = countAll n.children + 1 := by
  cases n; simp [count]

/-- The nodes of the pending trees: the first pending node is listed and its children are put in
front of the others. -/
def walkFrom : List Node → List Node
  | [] => []
  | n :: pending => n :: walkFrom (n.children ++ pending)
termination_by pending => countAll pending
decreasing_by
  -- the first pending node is gone, and its children together count one less than it
  simp only [countAll_append, countAll_cons, count_eq]
  omega

/-- The nodes of a tree in document order. -/
def walk (n : Node) : List Node :=
  walkFrom [n]

def namedChildren (n : Node) : List Node :=
  n.children.filter (·.named)

def childByField (n : Node) (name : String) : Option Node :=
  n.children.find? fun c => c.field == some name

def isComment (n : Node) : Bool :=
  n.kind == "comment"

/-- The node reached by going to the first child as long as there is one. -/
def firstLeaf : Node → Node
  | ⟨k, s, e, n, m, f, []⟩ => ⟨k, s, e, n, m, f, []⟩
  | ⟨_, _, _, _, _, _, c :: _⟩ => firstLeaf c

end Node

/-- What a parser made of a text, with the octets it was made of. -/
structure Tree where
  root : Node
  /-- The parser met text it could not place. -/
  hasError : Bool
  bytes : Bytes

/-- Why a text does not parse, and where. -/
structure ParseFailure where
  message : String
  start : Nat
  stop : Nat
  deriving DecidableEq, Repr

namespace Tree

/-- The kind of the nodes that hold text the parser could not place. -/
def errorKind : String := "ERROR"

/-- The longest piece of text that a message about an unexpected token shows. -/
def tokenLimit : Nat := 20

def nodeBytes (t : Tree) (n : Node) : Bytes :=
  (t.bytes.drop n.start).take (n.stop - n.start)

def unexpectedMessage (t : Tree) (error : Node) : String :=
  -- the octets of the first token, which need not be those of characters
  let token := trimBoth isBlank (Utf8.decodeLossy (t.nodeBytes error.firstLeaf))
  if token.isEmpty then "unexpected end of input"
  else
    let shown := if tokenLimit < token.length then token.take tokenLimit ++ "...".toList else token
    "unexpected token '" ++ String.ofList shown ++ "'"

def nodeFailure? (t : Tree) (n : Node) : Option ParseFailure :=
  if n.missing then some ⟨"expecting '" ++ n.kind ++ "'", n.start, n.stop⟩
  -- a missing node says what was expected, whatever its kind
  else if n.kind == errorKind then some ⟨t.unexpectedMessage n, n.start, n.stop⟩
  else none

/-- The first failure of a tree that has one: the first node in document order that stands for a
failure, or the whole tree. -/
def failure (t : Tree) : Option ParseFailure :=
  if t.hasError then
    -- the mark at the root may be set with no node to blame
    some ((t.root.walk.findSome? t.nodeFailure?).getD
      ⟨"invalid syntax", t.root.start, t.root.stop⟩)
  else none

end Tree

/-- What is known about a text after parsing it. -/
structure Parsed where
  tree : Option Tree
  failure : Option ParseFailure

namespace Parsed

/-- The outcome of a parser; a parser that returns no tree at all has failed at the start. -/
def ofTree : Option Tree → Parsed
  | none => ⟨none, some ⟨"source could not be parsed", 0, 0⟩⟩
  | some t => ⟨some t, t.failure⟩

def isValid (p : Parsed) : Bool := p.failure.isNone

/-- The nodes of the tree in document order; none without a tree. -/
def nodes (p : Parsed) : List Node :=
  match p.tree with
  | none => []
  | some t => t.root.walk

end Parsed

end Lintel
