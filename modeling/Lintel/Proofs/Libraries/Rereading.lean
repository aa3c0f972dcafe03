import Lintel.Proofs.Libraries.Nodes
import Lintel.Proofs.Yaml.Unrolling

/-!
# The library for documents that is built in

The library built in is lawful (`Documents.lawful_builtin`). A file of pages is read back as what the
pages say: its characters give the tokens of a mapping, these the nodes of a plain graph, and what is
seen from this graph is the data of the pages. Their keys are different texts, so no entry gets lost.
-/

namespace Lintel

namespace Yaml

namespace Graph

variable {g : Graph} {n : NodeId} {x : Node} {ns ms : List Node}

def Has (g : Graph) (n : NodeId) (ns : List Node) : Prop :=
  ∃ before after, g.nodes.toList = before ++ ns ++ after ∧ before.length = n

theorem has_toArray (ns : List Node) : (⟨ns.toArray⟩ : Graph).Has 0 ns :=
  ⟨[], [], (List.append_nil ns).symm, rfl⟩

theorem Has.left (h : g.Has n (ns ++ ms)) : g.Has n ns := by
  obtain ⟨before, after, heq, hlen⟩ := h
  exact ⟨before, ms ++ after, by rw [heq]; simp only [List.append_assoc], hlen⟩

theorem Has.right (h : g.Has n (ns ++ ms)) : g.Has (n + ns.length) ms := by
  obtain ⟨before, after, heq, hlen⟩ := h
  refine ⟨before ++ ns, after, by rw [heq]; simp only [List.append_assoc], ?_⟩
  rw [List.length_append, hlen]

theorem Has.tail (h : g.Has n (x :: ns)) : g.Has (n + 1) ns := by
  have hsplit : g.Has n ([x] ++ ns) := h
  exact hsplit.right

theorem Has.lt (h : g.Has n (x :: ns)) : n < g.next := by
  obtain ⟨before, after, heq, rfl⟩ := h
  have hsize := congrArg List.length heq
  rw [Array.length_toList] at hsize
  simp only [List.length_append, List.length_cons] at hsize
  change before.length < g.nodes.size
  omega

theorem Has.get (h : g.Has n (x :: ns)) : g.get n = x := by
  obtain ⟨before, after, heq, rfl⟩ := h
  rw [Graph.get, Array.getD_eq_getD_getElem?, ← Array.getElem?_toList, heq]
  simp

theorem Has.texts {xs : List String} (h : g.Has n (xs.map .text)) :
    (∀ id ∈ List.range' n xs.length, id < g.next ∧ ∃ s, g.get id = .text s) ∧
      (List.range' n xs.length).map g.textOf = xs := by
  induction xs generalizing n with
  | nil => exact ⟨fun id hid => absurd hid List.not_mem_nil, rfl⟩
  | cons s xs ih =>
    -- The nodes of the texts are numbered in a row, so the rest starts at the next number.
    obtain ⟨htexts, hmap⟩ := ih h.tail
    rw [List.length_cons, List.range'_succ]
    refine ⟨List.forall_mem_cons.mpr ⟨⟨h.lt, s, h.get⟩, htexts⟩, ?_⟩
    rw [List.map_cons, hmap, textOf_text h.get]

end Graph

theorem read_empty : Yaml.read "" = .ok .null := by
  have hscan : scan "".toList = ⟨[], none⟩ := by decide
  have hdocument : Document.ofScan ⟨[], none⟩ = .ok ⟨0, ⟨#[.empty]⟩⟩ := rfl
  -- one node, which is null, and its object
  let o : Objects := ⟨⟨#[.empty]⟩, #[some (.leaf ⟨.null, some 0⟩)], #[]⟩
  have hobjects : Objects.ofDocument ⟨0, ⟨#[.empty]⟩⟩ = .ok o := rfl
  have hleaf : o.data 0 = .null := Objects.data_leaf (k := ⟨.null, some 0⟩) rfl
  have hdata : Document.data ⟨0, ⟨#[.empty]⟩⟩ = .ok .null := by
    rw [Document.data, hobjects]
    exact congrArg Except.ok hleaf
  rw [Yaml.read, hscan, hdocument]
  exact hdata

end Yaml

namespace Documents

open Yaml

variable {g : Graph} {n : NodeId} {p : Page} {ps : List Page}

/-! ### The graph of a file -/

structure Reads (g : Graph) (n : NodeId) (p : Page) : Prop where
  lt : n + 1 < g.next
  key : g.get n = .text p.key
  nested : g.IsNested 1 (n + 1)
  data : g.nestedData 1 (n + 1) = .map [(.text p.inner, .list (p.texts.map .text))]
  allows : ∀ x ∈ p.nodes n, g.Allows x

theorem reads_of_has (h : g.Has n (p.nodes n)) : Reads g n p := by
  -- A page has four parts in a row: its key, its mapping, the only key of it, the list there.
  have hmap := h.tail
  have hkey := hmap.tail
  have hlist := hkey.tail
  obtain ⟨htexts, hvalues⟩ := hlist.tail.texts
  have hdata : g.nestedData 0 (n + 3) = .list (p.texts.map .text) := by
    have hmapped := congrArg (List.map Data.text) hvalues
    rw [List.map_map] at hmapped
    rw [Graph.nestedData, Graph.children_list hlist.get, Graph.listData]
    exact congrArg Data.list hmapped
  refine ⟨hmap.lt, h.get, ⟨_, hmap.get, fun e he => ?_⟩, ?_, ?_⟩
  · obtain rfl := List.mem_singleton.mp he
    exact ⟨_, hlist.get, fun x hx => (htexts x hx).2⟩
  · rw [Graph.nestedData, hmap.get]
    simp only [List.map_cons, List.map_nil, hdata, Graph.textOf_text hkey.get]
  · -- The mapping has one key, so no two of its keys are equal.
    have hkeys : g.Allows ⟨.map, .map [(n + 2, n + 3)]⟩ := by
      refine .map (fun e he => ?_) (fun e he => ?_) (List.pairwise_singleton _ _)
      · obtain rfl := List.mem_singleton.mp he
        exact ⟨hkey.lt, hlist.lt⟩
      · obtain rfl := List.mem_singleton.mp he
        exact ⟨_, hkey.get⟩
    have helements : g.Allows ⟨.list, .list (List.range' (n + 3 + 1) p.texts.length)⟩ :=
      .list fun x hx => (htexts x hx).1
    have hall : ∀ x ∈ p.texts.map Yaml.Node.text, g.Allows x := by
      intro x hx
      obtain ⟨s, -, rfl⟩ := List.mem_map.mp hx
      exact .text s
    exact List.forall_mem_cons.mpr ⟨.text _, List.forall_mem_cons.mpr ⟨hkeys,
      List.forall_mem_cons.mpr ⟨.text _, List.forall_mem_cons.mpr ⟨helements, hall⟩⟩⟩⟩

theorem entries_of_has (h : g.Has n (pageNodes n ps)) :
    (∀ e ∈ entries n ps, ∃ p ∈ ps, e.2 = e.1 + 1 ∧ Reads g e.1 p) ∧
      (entries n ps).map (fun e => (Data.text (g.textOf e.1), g.nestedData 1 e.2))
        = ps.map Page.entry ∧
      (entries n ps).map (fun e => g.textOf e.1) = ps.map Page.key ∧
      ∀ x ∈ pageNodes n ps, g.Allows x := by
  -- page by page: the nodes of the next page begin where those of this one end
  induction ps generalizing n with
  | nil =>
    exact ⟨fun e he => absurd he List.not_mem_nil, rfl, rfl, fun x hx => absurd hx List.not_mem_nil⟩
  | cons p ps ih =>
    have hp := reads_of_has h.left
    obtain ⟨hreads, hdata, hkeys, hallows⟩ := ih h.right
    refine ⟨?_, ?_, ?_, ?_⟩
    · refine List.forall_mem_cons.mpr ⟨⟨p, List.mem_cons_self, rfl, hp⟩, fun e he => ?_⟩
      obtain ⟨q, hq, hread⟩ := hreads e he
      exact ⟨q, List.mem_cons_of_mem _ hq, hread⟩
    · rw [entries, List.map_cons, List.map_cons, hdata, Graph.textOf_text hp.key, hp.data]
      rfl
    · rw [entries, List.map_cons, List.map_cons, hkeys, Graph.textOf_text hp.key]
    · exact List.forall_mem_append.mpr ⟨hp.allows, hallows⟩

/-- **The data of a file** is what its pages say, if they have different keys. -/
theorem data_nodes (hnodup : (ps.map Page.key).Nodup) :
    Document.data ⟨0, ⟨(nodes ps).toArray⟩⟩ = .ok (.map (ps.map Page.entry)) := by
  let g : Graph := ⟨(nodes ps).toArray⟩
  have hroot : g.Has 0 (nodes ps) := Graph.has_toArray _
  obtain ⟨hreads, hdata, hkeys, hallows⟩ := entries_of_has hroot.tail
  -- Nothing in the graph is special: its nodes are texts, lists of texts and mappings by texts, and
  -- the keys differ.
  have hplain : g.IsPlain := by
    have hall : ∀ x ∈ nodes ps, g.Allows x := by
      refine List.forall_mem_cons.mpr ⟨.map (fun e he => ?_) (fun e he => ?_) ?_, hallows⟩
      · obtain ⟨p, -, hnext, hread⟩ := hreads e he
        rw [hnext]
        exact ⟨Nat.lt_of_succ_lt hread.lt, hread.lt⟩
      · obtain ⟨p, -, -, hread⟩ := hreads e he
        exact ⟨_, hread.key⟩
      · rw [hkeys]
        exact hnodup
    intro id hid
    have hlt : id < (nodes ps).toArray.size := hid
    rw [Graph.get, Array.getD_eq_getD_getElem?, Array.getElem?_eq_getElem hlt]
    exact hall _ (List.mem_toArray.mp (Array.getElem_mem hlt))
  -- It goes three levels deep.
  have hnested : g.IsNested Objects.freeLevels 0 := by
    refine ⟨_, hroot.get, fun e he => ?_⟩
    obtain ⟨p, -, hnext, hread⟩ := hreads e he
    rw [hnext]
    exact hread.nested
  refine (Document.data_plain hplain hroot.lt hnested).trans ?_
  change Except.ok (g.nestedData 2 0) = _
  rw [Graph.nestedData, hroot.get]
  simp only [hdata]

/-- **The library built in is lawful.** -/
theorem lawful_builtin : builtin.Lawful where
  read_empty := Yaml.read_empty
  read_file ps hne h hnodup := by
    change Yaml.read (builtin.file ps) = _
    -- characters to tokens, tokens to nodes, and nodes to data
    rw [Yaml.read, scan_file hne h, ofScan_tokens h]
    exact data_nodes hnodup
  write_plain p h := by
    rw [toList_write h]
    intro hmem
    rcases inked_chars h _ hmem with heq | hplain
    · exact absurd heq (by decide)
    · exact absurd hplain (by decide)

end Documents

end Lintel
