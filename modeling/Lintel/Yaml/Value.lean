import Lintel.Data.Slots
import Lintel.Yaml.Node
import Lintel.Yaml.Scalar

/-!
# The data of documents

A document stands for data. The nodes of its graph become **objects** one level after the other: a
list or a mapping is an object before it is known what it holds, and waits until all that came
before it are done. So what is wrong further down in a document is found after what is wrong
further up, and a list or a mapping may hold itself.

The keys of a mapping must be data that may be keys; of several entries with one key the last
counts, at the place of the first. A mapping with a merge key takes over the entries of other
mappings, its own entries coming after them. This changes the graph: whoever comes to the mapping
later finds the entries there. In the same way a key that is written `=` becomes a text for good.

Wherever a scalar is asked for, a mapping with the key `=` stands for the value of that entry.

`Objects.data` makes a tree of the objects. What holds itself is cut where it comes up again.
-/

namespace Lintel

namespace Yaml

/-! ### Objects -/

/-- A key. Numbers that are none are the same only if they are the same node, or written in the
word that the language has for them. -/
structure Key where
  data : Data
  origin : Option NodeId := none

def Key.isSame (a b : Key) : Bool :=
  match a.data, b.data with
  -- a number that is none equals nothing, so being one and the same decides
  | .float x, .float y => if x.isNaN && y.isNaN then a.origin == b.origin else a.data.sameKey b.data
  | _, _ => a.data.sameKey b.data

/-- What a node has become. -/
inductive Object where
  | leaf (key : Key)
  | list (items : List NodeId)
  | pairs (items : List (NodeId × NodeId))
  | map (entries : List (Key × NodeId))
  | set (keys : List Key)

/-- Put a value under a key. A key that is already there keeps its place and its spelling. -/
def putEntry (key : Key) (value : NodeId) : List (Key × NodeId) → List (Key × NodeId)
  | [] => [(key, value)]
  | (k, v) :: more =>
    if k.isSame key then (k, value) :: more else (k, v) :: putEntry key value more

/-- The keys of a set as they are listed: numbers without a fractional part by their slots, anything
else as it comes. -/
def listedKeys (keys : List Key) : List Key :=
  match keys.mapM fun k => k.data.wholeKey?.map fun n => (n, k) with
  | some numbered => Slots.arrange numbered
  | none => keys

/-- A graph with the objects its nodes have become, and those that wait for what they hold. -/
structure Objects where
  graph : Graph
  objects : Array (Option Object)
  /-- The nodes whose objects wait or have waited, in order. -/
  queue : Array NodeId := #[]

/-! ### Scalars -/

def scalarText (g : Graph) : Nat → NodeId → Except Error String
  -- the values refer to each other in a ring
  | 0, _ => .error (.fault .tooDeep)
  | fuel + 1, id =>
    match (g.get id).content with
    | .scalar s => .ok s
    | .list _ => .error .malformed
    | .map es =>
      match es.find? fun e => (g.get e.1).tag = .default with
      | some (_, v) => scalarText g fuel v
      | none => .error .malformed

/-- The data of a scalar. Octets and numbers are read from the text of whatever stands for a
scalar, but a moment must be a scalar itself. -/
def scalarData (tag : Tag) (content : Content) (s : String) : Except Error Data :=
  match tag with
  | .null => .ok .null
  | .bool => (truthOf s).map .bool
  | .int => (intOf s.toList).map .int
  | .float => (floatOf s.toList).map .float
  | .binary => bytesOf s.toList
  | .time =>
    match content with
    | .scalar _ => momentOf s.toList
    | _ => .error (.fault (.wrongKind "a mapping cannot be a moment"))
  | .text => .ok (.text s)
  | .orderedMap | .pairs | .set | .list | .map | .merge | .default | .other => .error .malformed

def scalarObject (g : Graph) (id : NodeId) : Except Error Object := do
  let n := g.get id
  let s ← scalarText g (g.next + 1) id
  let d ← scalarData n.tag n.content s
  let common := n.tag = .float && isCommonNaN s.toList
  .ok (.leaf ⟨d, if common then none else some id⟩)

namespace Objects

/-! ### Collections -/

def waiting? : Tag → Option Object
  | .list => some (.list [])
  | .orderedMap | .pairs => some (.pairs [])
  | .map => some (.map [])
  | .set => some (.set [])
  | _ => none

/-- What a node has become, if anything. -/
def get? (o : Objects) (id : NodeId) : Option Object := (o.objects.getD id none)

def set (o : Objects) (id : NodeId) (x : Object) : Objects :=
  { o with objects := o.objects.setIfInBounds id (some x) }

def make (o : Objects) (id : NodeId) : Except Error Objects :=
  match o.get? id, waiting? (o.graph.get id).tag with
  -- a node that is referred to several times becomes one object
  | some _, _ => .ok o
  -- a collection waits in the queue for what it holds
  | none, some x => .ok { o.set id x with queue := o.queue.push id }
  | none, none =>
    match (o.graph.get id).tag with
    | .merge | .default | .other => .error .malformed
    | _ => (scalarObject o.graph id).map (o.set id)

def makeKey (o : Objects) (id : NodeId) : Except Error (Key × Objects) := do
  let o ← o.make id
  match o.get? id with
  | some (.leaf k) => .ok (k, o)
  -- what may still change cannot be a key
  | _ => .error .malformed

/-! ### Merging -/

/-- Make texts of the keys that are written `=`. -/
def textKeys (g : Graph) (entries : List (NodeId × NodeId)) : Graph :=
  entries.foldl (fun g e => if (g.get e.1).tag = .default then g.setTag e.1 .text else g) g

def entriesOf (g : Graph) (id : NodeId) : Option (List (NodeId × NodeId)) :=
  match (g.get id).content with
  | .map es => some es
  | _ => none

mutual

/-- Merge the entries of a mapping from a place on. What is taken over comes before what the
mapping has in the end. -/
def mergeFrom : Nat → NodeId → Nat → List (NodeId × NodeId) → Graph → Except Error Graph
  | 0, _, _, _, _ => .error .malformed
  | fuel + 1, id, place, taken, g =>
    match entriesOf g id with
    | none => .error .malformed
    | some es => do
      let passed := (es.drop place).takeWhile fun e => (g.get e.1).tag ≠ .merge
      let g := textKeys g passed
      let place := place + passed.length
      match es[place]? with
      | none => .ok (if taken.isEmpty then g else g.setContent id (.map (taken ++ es)))
      | some (_, source) =>
        -- the merge key is taken away first, so a mapping that merges itself does not go round
        let g := g.setContent id (.map (es.eraseIdx place))
        let (more, g) ← takeFrom fuel source g
        mergeFrom fuel id place (taken ++ more) g

/-- The entries that are taken over from a mapping or from several; of these the first counts
most and so comes last. -/
def takeFrom : Nat → NodeId → Graph → Except Error (List (NodeId × NodeId) × Graph)
  | 0, _, _ => .error .malformed
  | fuel + 1, source, g =>
    match (g.get source).content with
    | .scalar _ => .error .malformed
    | .map _ => do
      let g ← mergeFrom fuel source 0 [] g
      .ok ((entriesOf g source).getD [], g)
    | .list items =>
      items.foldlM (fun (taken, g) item => do
        let g ← mergeFrom fuel item 0 [] g
        -- in front of what the mappings before gave
        .ok ((entriesOf g item).getD [] ++ taken, g)) ([], g)

end

def mergeCount (g : Graph) : Nat :=
  g.nodes.foldl (fun n node =>
    match node.content with
    | .map es => n + es.countP fun e => (g.get e.1).tag = .merge
    | _ => n) 0

/-- The graph with the entries of a mapping merged. Every merge key is taken away before its value
is looked at, so their number bounds the depth. -/
def merge (g : Graph) (id : NodeId) : Except Error Graph :=
  mergeFrom (2 * mergeCount g + 4) id 0 [] g

/-! ### Filling -/

def fillList (o : Objects) (id : NodeId) (items : List NodeId) : Except Error Objects :=
  (items.foldlM make o).map fun o => o.set id (.list items)

def makePair (p : List (NodeId × NodeId) × Objects) (item : NodeId) :
    Except Error (List (NodeId × NodeId) × Objects) :=
  match (p.2.graph.get item).content with
  | .map [(k, v)] => do
    let o ← p.2.make k
    let o ← o.make v
    .ok (p.1 ++ [(k, v)], o)
  | _ => .error .malformed

def fillPairs (o : Objects) (id : NodeId) (items : List NodeId) : Except Error Objects :=
  (items.foldlM makePair ([], o)).map fun (ps, o) => o.set id (.pairs ps)

def makeEntry (p : List (Key × NodeId) × Objects) (e : NodeId × NodeId) :
    Except Error (List (Key × NodeId) × Objects) := do
  let (key, o) ← p.2.makeKey e.1
  let o ← o.make e.2
  .ok (putEntry key e.2 p.1, o)

/-- Make objects of the entries of a mapping. -/
def fillMap (o : Objects) (id : NodeId) (finish : List (Key × NodeId) → Object) :
    Except Error Objects := do
  -- merging comes first and changes the graph for good
  let g ← merge o.graph id
  let (es, o) ← ((entriesOf g id).getD []).foldlM makeEntry ([], { o with graph := g })
  .ok (o.set id (finish es))

/-- Find out what an object holds. A node that is not what its tag says is found out here. -/
def fill (o : Objects) (id : NodeId) : Except Error Objects :=
  let n := o.graph.get id
  match n.tag, n.content with
  | .list, .list items => o.fillList id items
  | .orderedMap, .list items => o.fillPairs id items
  | .pairs, .list items => o.fillPairs id items
  | .map, .map _ => o.fillMap id .map
  | .set, .map _ => o.fillMap id fun es => .set (listedKeys (es.map (·.1)))
  | _, _ => .error .malformed

/-- Fill all objects that wait, from a place in the queue on. -/
def fillAll : Nat → Nat → Objects → Except Error Objects
  | 0, _, o => .ok o
  | fuel + 1, place, o =>
    -- filling may put more objects at the end of the queue
    match o.queue[place]? with
    | none => .ok o
    | some id => do
      let o ← o.fill id
      fillAll fuel (place + 1) o

def ofDocument (d : Document) : Except Error Objects := do
  let o : Objects := ⟨d.graph, Array.replicate d.graph.next none, #[]⟩
  let o ← o.make d.root
  -- no node waits twice, so the nodes bound the queue
  o.fillAll (d.graph.next + 1) 0

/-! ### Trees -/

/-- The data of nodes that do not hold themselves, by number. -/
abbrev Memo := Array (Option Data)

/-- The data of a node, and whether something in it was cut. -/
abbrev Unrolled := Data × Bool

def remember (id : NodeId) (u : Unrolled) : StateM Memo Unrolled := do
  -- where something was cut depends on the way down, so that is not for others
  if !u.2 then modify fun m => m.setIfInBounds id (some u.1)
  pure u

/-- The data of a node, given the nodes that it lies in. -/
def unroll (o : Objects) : Nat → List NodeId → NodeId → StateM Memo Unrolled
  | 0, _, _ => pure (.again false, true)
  | fuel + 1, path, id => do
    match (← get).getD id none with
    | some d => pure (d, false)
    | none =>
      -- the nodes on the way down are those that may be met again
      let inside (x : NodeId) : StateM Memo Unrolled := o.unroll fuel (id :: path) x
      match o.get? id with
      | none => pure (.null, false)
      | some (.leaf k) => pure (k.data, false)
      | some (.set ks) => pure (.set (ks.map (·.data)), false)
      | some (.list items) =>
        if path.contains id then pure (.again false, true)
        else
          let us ← items.mapM inside
          remember id (.list (us.map (·.1)), us.any (·.2))
      | some (.pairs items) =>
        if path.contains id then pure (.again false, true)
        else
          let us ← items.mapM fun (k, v) => do pure (← inside k, ← inside v)
          remember id (.list (us.map fun (k, v) => .pair k.1 v.1), us.any fun (k, v) => k.2 || v.2)
      | some (.map entries) =>
        if path.contains id then pure (.again true, true)
        else
          let us ← entries.mapM fun (k, v) => do pure (k.data, ← inside v)
          remember id (.map (us.map fun (k, v) => (k, v.1)), us.any (·.2.2))

/-- The data of a node, down to some levels of mappings that are never cut. -/
def unrollFreely (o : Objects) : Nat → NodeId → StateM Memo Data
  | 0, id => do pure (← o.unroll (o.graph.next + 2) [] id).1
  | levels + 1, id =>
    match o.get? id with
    | some (.map entries) => do
      let es ← entries.mapM fun (k, v) => do pure (k.data, ← o.unrollFreely levels v)
      pure (.map es)
    | _ => o.unrollFreely 0 id

/-- How many levels of mappings are looked into. -/
def freeLevels : Nat := 2

/-- The data of a node. What is looked into is never cut, even if it holds itself: everything else
is only spelled, each for itself. -/
def data (o : Objects) (root : NodeId) : Data :=
  ((o.unrollFreely freeLevels root).run (Array.replicate o.graph.next none)).1

end Objects

def Document.data (d : Document) : Except Error Data :=
  (Objects.ofDocument d).map fun o => o.data d.root

end Yaml

end Lintel
