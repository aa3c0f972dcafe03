import Lintel.Yaml.Node

/-!
# Reading nodes

A node is there before what it holds. So reading tokens adds nodes at the end of the graph
(`Graph.addAll`), the first of which is filled in when the others have been read
(`Graph.setContent_addAll`), and a feed that has read a node has grown by it (`Feed.grow`). There is
a lemma for each kind of node that a block document consists of: a text (`readNode_text`), a list
(`readCollection_dashes`), a mapping (`readCollection_entries`) and the entries of a mapping
(`readEntries_entry`).
-/

namespace Lintel

namespace Yaml

/-! ### Adding nodes -/

def Node.text (s : String) : Node := ⟨.text, .scalar s⟩

namespace Graph

variable {g : Graph} {n : Node} {ns ms : List Node}

def addAll (g : Graph) (ns : List Node) : Graph := ⟨g.nodes ++ ns.toArray⟩

theorem push_eq_addAll (g : Graph) (n : Node) : g.push n = g.addAll [n] := by
  simp [push, addAll]

theorem addAll_addAll (g : Graph) (ns ms : List Node) :
    (g.addAll ns).addAll ms = g.addAll (ns ++ ms) := by
  simp [addAll]

theorem addAll_nil (g : Graph) : g.addAll [] = g := by
  simp [addAll]

theorem next_addAll (g : Graph) (ns : List Node) : (g.addAll ns).next = g.next + ns.length := by
  simp [addAll, next]

/-- What the first of some new nodes holds is filled in later. -/
theorem setContent_addAll (g : Graph) (n : Node) (ns : List Node) (c : Content) :
    (g.addAll (n :: ns)).setContent g.next c = g.addAll ({ n with content := c } :: ns) := by
  have hget : (g.addAll (n :: ns)).get g.next = n := by
    simp [get, addAll, next]
  rw [setContent, hget]
  simp only [set, addAll, next, Graph.mk.injEq]
  apply Array.ext'
  simp

end Graph

namespace Feed

variable {f : Feed}

def grow (f : Feed) (ts : List Token) (ns : List Node) : Feed :=
  { f with tokens := ts, graph := f.graph.addAll ns }

theorem grow_grow (f : Feed) (ts us : List Token) (ns ms : List Node) :
    (f.grow ts ns).grow us ms = f.grow us (ns ++ ms) := by
  rw [grow, grow, grow, Graph.addAll_addAll]

theorem next_grow (f : Feed) (ts : List Token) (ns : List Node) :
    (f.grow ts ns).graph.next = f.graph.next + ns.length :=
  Graph.next_addAll _ _

theorem peek_cons {t : Token} {ts : List Token} (h : f.tokens = t :: ts) :
    f.peek = .ok (some t) := by
  rw [peek, h]

theorem next_cons {t : Token} {ts : List Token} (h : f.tokens = t :: ts) :
    f.next = f.grow ts [] := by
  rw [next, h, grow, Graph.addAll_nil]
  rfl

/-- A new node without a name. -/
theorem add_none (f : Feed) (n : Node) :
    f.add none n = (f.graph.next, f.grow f.tokens [n]) := by
  rw [add, grow, Graph.push_eq_addAll]
  rfl

end Feed

/-! ### Reading nodes -/

variable {f : Feed} {slot : Slot} {ts : List Token} {fuel : Nat}

/-- A text that is written without quotes only if it has no other sense. -/
theorem readNode_text {s : String} {plain : Bool} (h : f.tokens = .scalar s plain :: ts)
    (hsense : plain = true → Plain.sense s.toList = .text) :
    readNode (fuel + 2) slot f = .ok (f.graph.next, f.grow ts [.text s]) := by
  -- a text in quotes is one in any case, and so is one of no other sense
  have htag : scalarTag none plain s = .text := by
    cases plain with
    | false => rfl
    | true =>
      rw [scalarTag]
      simp only [hsense rfl, if_true]
      rfl
  have hpeek := Feed.peek_cons h
  rw [readNode, hpeek]
  simp only [bind, Except.bind]
  rw [readProperties, hpeek]
  simp only [bind, Except.bind, fullTag]
  rw [readContent, hpeek]
  simp only [bind, Except.bind, htag]
  change Except.ok (f.next.add none (.text s)) = _
  rw [Feed.next_cons h, Feed.add_none, Feed.grow_grow, Feed.next_grow]
  rfl

/-- A list that has the indentation of the key before it. -/
theorem readNode_dash (h : f.tokens = .dash :: ts) :
    readNode (fuel + 2) .value f = readCollection fuel (.dashes true) none none f := by
  have hpeek := Feed.peek_cons h
  rw [readNode, hpeek]
  simp only [bind, Except.bind]
  -- A dash carries neither tag nor anchor, so the properties are read as none.
  rw [readProperties, hpeek]
  simp only [bind, Except.bind, fullTag]
  rw [readContent, hpeek]
  rfl

theorem readNode_openMap (hslot : slot ≠ .flow) (h : f.tokens = .openMap :: ts) :
    readNode (fuel + 2) slot f = readCollection fuel .entries none none f := by
  have hpeek := Feed.peek_cons h
  rw [readNode, hpeek]
  simp only [bind, Except.bind]
  rw [readProperties, hpeek]
  simp only [bind, Except.bind, fullTag]
  rw [readContent, hpeek]
  -- inside brackets a mapping without braces begins elsewhere
  cases slot with
  | flow => exact absurd rfl hslot
  | block => rfl
  | value => rfl

/-- A node where one of some tokens might come. -/
theorem readOptional_of_not {t : Token} {stops : List Token} (h : f.tokens = t :: ts)
    (hnot : stops.contains t = false) :
    readOptional (fuel + 1) slot stops f = readNode fuel slot f := by
  rw [readOptional, Feed.peek_cons h]
  simp only [bind, Except.bind, hnot, Bool.false_eq_true, if_false]

/-- A list is there before its elements. -/
theorem readCollection_dashes {xs : List NodeId} {ns : List Node} {us : List Token}
    (h : readDashes fuel true (f.grow f.tokens [⟨.list, .list []⟩])
      = .ok (xs, (f.grow f.tokens [⟨.list, .list []⟩]).grow us ns)) :
    readCollection (fuel + 1) (.dashes true) none none f
      = .ok (f.graph.next, f.grow us (⟨.list, .list xs⟩ :: ns)) := by
  have hadd := Feed.add_none f ⟨.list, .list []⟩
  rw [readCollection]
  simp only [collectionTag]
  rw [hadd]
  simp only [bind, Except.bind, h]
  -- The node of the list was made empty before its members, and gets them now.
  rw [Feed.grow_grow]
  simp only [Feed.grow, List.singleton_append, Graph.setContent_addAll]

/-- A mapping is there before its entries. -/
theorem readCollection_entries {es : List (NodeId × NodeId)} {ns : List Node} {us : List Token}
    (hopen : f.tokens = .openMap :: ts)
    (h : readEntries fuel (f.grow ts [⟨.map, .map []⟩])
      = .ok (es, (f.grow ts [⟨.map, .map []⟩]).grow us ns)) :
    readCollection (fuel + 1) .entries none none f
      = .ok (f.graph.next, f.grow us (⟨.map, .map es⟩ :: ns)) := by
  -- the node is put down empty, so that it has its number before those of its entries
  have hadd : f.next.add none ⟨.map, .map []⟩ = (f.graph.next, f.grow ts [⟨.map, .map []⟩]) := by
    rw [Feed.next_cons hopen, Feed.add_none, Feed.grow_grow, Feed.next_grow]
    rfl
  rw [readCollection]
  simp only [collectionTag]
  rw [hadd]
  simp only [bind, Except.bind, h]
  rw [Feed.grow_grow]
  simp only [Feed.grow, List.singleton_append, Graph.setContent_addAll]

def entryStops : List Token := [.key, .value, .close]

theorem readEntries_entry {s : String} {us : List Token} {v : NodeId} {g f' : Feed}
    {es : List (NodeId × NodeId)} (h : f.tokens = .key :: .scalar s true :: .value :: us)
    (hsense : Plain.sense s.toList = .text)
    (hvalue : readOptional (fuel + 3) .value entryStops (f.grow us [.text s]) = .ok (v, g))
    (hmore : readEntries (fuel + 3) g = .ok (es, f')) :
    readEntries (fuel + 4) f = .ok ((f.graph.next, v) :: es, f') := by
  have htext : f.next.tokens = .scalar s true :: .value :: us := by
    rw [Feed.next_cons h]
    rfl
  have hkey : readOptional (fuel + 3) .value entryStops f.next
      = readNode (fuel + 2) .value f.next := readOptional_of_not htext rfl
  rw [readNode_text htext fun _ => hsense] at hkey
  have hcolon : (f.next.grow (.value :: us) [.text s]).tokens = .value :: us := rfl
  -- behind the key the reader goes on as if it had been read at once
  have hpast : (f.next.grow (.value :: us) [.text s]).next = f.grow us [.text s] := by
    rw [Feed.next_cons hcolon, Feed.next_cons h, Feed.grow_grow, Feed.grow_grow]
    rfl
  unfold entryStops at hkey hvalue
  rw [readEntries, Feed.peek_cons h]
  simp only [bind, Except.bind]
  rw [hkey]
  simp only [Feed.peek_cons hcolon, if_true, hpast, hvalue, hmore]
  rw [Feed.next_cons h, Feed.next_grow]
  rfl

end Yaml

end Lintel
