import Lintel.Proofs.Libraries.Scanning
import Lintel.Proofs.Yaml.Nodes

/-!
# The nodes of a file of pages

A node is there before what it holds, so the nodes of a file come in the order in which its tokens
open them: the outermost mapping, and for each page its key, a mapping, the only key of that, a list
and its elements (`Documents.nodes`). Reading the tokens of a file adds exactly these nodes
(`Documents.ofScan_tokens`).
-/

namespace Lintel

namespace Documents

open Yaml

/-! ### The nodes of a page -/

def listNodes (n : NodeId) (xs : List String) : List Yaml.Node :=
  ⟨.list, .list (List.range' (n + 1) xs.length)⟩ :: xs.map .text

def Page.nodes (n : NodeId) (p : Page) : List Yaml.Node :=
  .text p.key :: ⟨.map, .map [(n + 2, n + 3)]⟩ :: .text p.inner :: listNodes (n + 3) p.texts

def pageNodes (n : NodeId) : List Page → List Yaml.Node
  | [] => []
  | p :: ps => p.nodes n ++ pageNodes (n + (p.nodes n).length) ps

/-- The entries of the outermost mapping. -/
def entries (n : NodeId) : List Page → List (NodeId × NodeId)
  | [] => []
  | p :: ps => (n, n + 1) :: entries (n + (p.nodes n).length) ps

def nodes (ps : List Page) : List Yaml.Node :=
  ⟨.map, .map (entries 1 ps)⟩ :: pageNodes 1 ps

variable {f : Feed} {ts : List Token} {fuel : Nat} {xs : List String} {inner : String}

theorem sense_of_fitsPlain {cs : List Char} (h : fitsPlain cs = true) : Plain.sense cs = .text :=
  (fitsPlain_iff.mp h).sense

theorem readDashes_elements (h : f.tokens = elementTokens xs ++ .close :: ts)
    (hfuel : xs.length + 4 ≤ fuel) :
    readDashes fuel true f = .ok (List.range' f.graph.next xs.length,
      f.grow (.close :: ts) (xs.map .text)) := by
  -- On the elements. An element takes its own node and four steps of the fuel.
  induction xs generalizing f fuel with
  | nil =>
    obtain ⟨fuel, rfl⟩ : ∃ n, fuel = n + 1 := ⟨fuel - 1, by omega⟩
    have hclose : f.tokens = .close :: ts := h
    rw [readDashes, Feed.peek_cons hclose, Feed.grow, List.map_nil, Graph.addAll_nil, ← hclose]
    rfl
  | cons x xs ih =>
    obtain ⟨fuel, rfl⟩ : ∃ n, fuel = n + 4 := ⟨fuel - 4, by omega⟩
    rw [List.length_cons] at hfuel
    have hdash : f.tokens = .dash :: .scalar x (fitsPlain x.toList)
        :: (elementTokens xs ++ .close :: ts) := h
    have htext : f.next.tokens = .scalar x (fitsPlain x.toList)
        :: (elementTokens xs ++ .close :: ts) := by
      rw [Feed.next_cons hdash]
      rfl
    -- Of an optional value the dash leaves the scalar, which is a node of its own.
    have hread : readOptional (fuel + 3) .block [.dash, .key, .value, .close] f.next
        = readNode (fuel + 2) .block f.next := readOptional_of_not htext rfl
    rw [readNode_text htext sense_of_fitsPlain] at hread
    have hless : xs.length + 4 ≤ fuel + 3 := by omega
    have hmore := ih (f := f.next.grow (elementTokens xs ++ .close :: ts) [.text x]) rfl hless
    rw [readDashes, Feed.peek_cons hdash]
    simp only [bind, Except.bind, if_true]
    rw [hread]
    simp only [hmore]
    rw [Feed.next_cons hdash, Feed.grow_grow, Feed.grow_grow, Feed.next_grow, Feed.next_grow]
    rfl

theorem readOptional_elements (hne : xs ≠ [])
    (h : f.tokens = elementTokens xs ++ .close :: ts) (hfuel : xs.length + 8 ≤ fuel) :
    readOptional fuel .value entryStops f
      = .ok (f.graph.next, f.grow (.close :: ts) (listNodes f.graph.next xs)) := by
  -- four calls lead from the value to the elements
  obtain ⟨fuel, rfl⟩ : ∃ n, fuel = n + 4 := ⟨fuel - 4, by omega⟩
  obtain ⟨y, ys, hcons⟩ := List.exists_cons_of_ne_nil hne
  have hdash : f.tokens = .dash :: .scalar y (fitsPlain y.toList)
      :: (elementTokens ys ++ .close :: ts) := by
    rw [h, hcons]
    rfl
  have hless : xs.length + 4 ≤ fuel := by omega
  have hread := readDashes_elements (f := f.grow f.tokens [⟨.list, .list []⟩]) h hless
  rw [Feed.next_grow] at hread
  rw [readOptional_of_not hdash rfl, readNode_dash hdash]
  exact readCollection_dashes hread

theorem readOptional_block (hinner : Yaml.IsName inner) (hne : xs ≠ [])
    (h : f.tokens = .openMap :: .key :: .scalar inner true :: .value
      :: (elementTokens xs ++ .close :: ts)) (hfuel : xs.length + 16 ≤ fuel) :
    readOptional fuel .value entryStops f = .ok (f.graph.next, f.grow ts
      (⟨.map, .map [(f.graph.next + 1, f.graph.next + 2)]⟩
        :: .text inner :: listNodes (f.graph.next + 2) xs)) := by
  obtain ⟨fuel, rfl⟩ : ∃ n, fuel = n + 8 := ⟨fuel - 8, by omega⟩
  -- Behind the opening (`f₁`), behind the key (`f₂`), and the list that is the only value.
  let f₁ := f.grow (.key :: .scalar inner true :: .value
    :: (elementTokens xs ++ .close :: ts)) [⟨.map, .map []⟩]
  let f₂ := f₁.grow (elementTokens xs ++ .close :: ts)
    [.text inner]
  -- The fuel that is left is enough for the elements of the list.
  have hless : xs.length + 8 ≤ fuel + 3 := by omega
  have hlist : readOptional (fuel + 3) .value entryStops f₂
      = .ok (f₂.graph.next, f₂.grow (.close :: ts) (listNodes f₂.graph.next xs)) :=
    readOptional_elements hne rfl hless
  have hend : readEntries (fuel + 3) (f₂.grow (.close :: ts) (listNodes f₂.graph.next xs))
      = .ok ([], f₂.grow ts (listNodes f₂.graph.next xs)) := by
    have hclose : (f₂.grow (.close :: ts) (listNodes f₂.graph.next xs)).tokens = .close :: ts :=
      rfl
    rw [readEntries, Feed.peek_cons hclose]
    simp only [bind, Except.bind]
    rw [Feed.next_cons hclose, Feed.grow_grow, List.append_nil]
  have hread := readEntries_entry (f := f₁) rfl (sense_of_fitsPlain hinner.fits) hlist hend
  -- The nodes were added in three parts and are one list in the graph.
  have hgrow : f₂.grow ts (listNodes f₂.graph.next xs)
      = f₁.grow ts (.text inner :: listNodes f₂.graph.next xs) := by
    rw [Feed.grow_grow]
    rfl
  rw [hgrow] at hread
  have hcollection := readCollection_entries h hread
  have hnext₁ : f₁.graph.next = f.graph.next + 1 := Feed.next_grow _ _ _
  have hnext₂ : f₂.graph.next = f.graph.next + 2 := by
    rw [Feed.next_grow, hnext₁]
    rfl
  rw [hnext₁, hnext₂] at hcollection
  have hslot : Slot.value ≠ Slot.flow := by decide
  rw [readOptional_of_not h rfl, readNode_openMap hslot h]
  exact hcollection

theorem length_elementTokens (xs : List String) :
    xs.length ≤ (elementTokens xs).length := by
  induction xs with
  | nil => exact Nat.le_refl 0
  | cons x xs ih =>
    rw [elementTokens, List.flatMap_cons, List.length_append, List.length_cons]
    change xs.length + 1 ≤ 2 + (elementTokens xs).length
    omega

/-- **The pages are the entries of a mapping.** -/
theorem readEntries_pages {ps : List Page} (hproper : ∀ p ∈ ps, p.IsProper)
    (h : f.tokens = ps.flatMap Page.tokens ++ .close :: ts)
    (hfuel : f.tokens.length + 20 ≤ fuel) :
    readEntries fuel f
      = .ok (entries f.graph.next ps, f.grow ts (pageNodes f.graph.next ps)) := by
  -- On the pages. The fuel is counted by the tokens left, of which a page takes at least
  -- as many as it takes steps.
  induction ps generalizing f fuel with
  | nil =>
    obtain ⟨fuel, rfl⟩ : ∃ n, fuel = n + 1 := ⟨fuel - 1, by omega⟩
    have hclose : f.tokens = .close :: ts := h
    rw [readEntries, Feed.peek_cons hclose]
    simp only [bind, Except.bind]
    rw [Feed.next_cons hclose]
    rfl
  | cons p ps ih =>
    obtain ⟨fuel, rfl⟩ : ∃ n, fuel = n + 4 := ⟨fuel - 4, by omega⟩
    have hp := hproper p List.mem_cons_self
    let more : List Token := ps.flatMap Page.tokens ++ .close :: ts
    let us : List Token := .openMap :: .key :: .scalar p.inner true
      :: .value :: (elementTokens p.texts ++ .close :: more)
    have htokens : f.tokens = .key :: .scalar p.key true :: .value :: us := by
      rw [h, List.flatMap_cons, Page.tokens]
      simp [us, more]
    -- The tokens of the page and those behind it, counted for the fuel.
    have hlen : (elementTokens p.texts).length + more.length + 8 = f.tokens.length := by
      rw [htokens]
      simp only [us, List.length_cons, List.length_append]
      omega
    have htexts := length_elementTokens p.texts
    have hless : p.texts.length + 16 ≤ fuel + 3 := by omega
    have hvalue := readOptional_block (f := f.grow us [.text p.key]) hp.isName_inner hp.texts rfl hless
    -- Behind the mapping of this page the nodes added are those of the page.
    let g := (f.grow us [.text p.key]).grow more
      (⟨.map, .map [((f.grow us [.text p.key]).graph.next + 1,
          (f.grow us [.text p.key]).graph.next + 2)]⟩
        :: .text p.inner
        :: listNodes ((f.grow us [.text p.key]).graph.next + 2) p.texts)
    have hg : g = f.grow more (p.nodes f.graph.next) := by
      change (f.grow us [.text p.key]).grow more _ = _
      rw [Feed.grow_grow, Feed.next_grow]
      rfl
    have hless' : g.tokens.length + 20 ≤ fuel + 3 := by
      change more.length + 20 ≤ fuel + 3
      omega
    -- The pages behind this one are read from where it ends.
    have hmore := ih (fun q hq => hproper q (List.mem_cons_of_mem _ hq)) rfl hless'
    have hread := readEntries_entry htokens (sense_of_fitsPlain hp.isName_key.fits) hvalue hmore
    rw [hread, hg, Feed.next_grow, Feed.next_grow, Feed.grow_grow]
    rfl

/-- **A file is one document** with these nodes. -/
theorem ofScan_tokens {ps : List Page} (hproper : ∀ p ∈ ps, p.IsProper) :
    Document.ofScan ⟨tokens ps, none⟩ = .ok ⟨0, ⟨(nodes ps).toArray⟩⟩ := by
  let f : Feed := { tokens := tokens ps, handles := defaultHandles }
  let inner : List Token := ps.flatMap Page.tokens ++ [.close]
  have hopen : f.tokens = .openMap :: inner := rfl
  have hless : (f.grow inner [⟨.map, .map []⟩]).tokens.length + 20 ≤ 8 * inner.length + 21 := by
    change inner.length + 20 ≤ 8 * inner.length + 21
    omega
  have hentries := readEntries_pages hproper rfl hless
  have hone : (f.grow inner [⟨.map, .map []⟩]).graph.next = 1 := rfl
  rw [hone] at hentries
  -- The document is one mapping, with nothing behind it.
  have hread : readNode (documentFuel f.tokens) .block f = .ok (0, f.grow [] (nodes ps)) := by
    have hfuel : documentFuel f.tokens = 8 * inner.length + 21 + 1 + 2 := by
      change 8 * (inner.length + 1) + 16 = _
      omega
    have hslot : Slot.block ≠ Slot.flow := by decide
    rw [hfuel, readNode_openMap hslot hopen]
    exact readCollection_entries hopen hentries
  have hgraph : (f.grow [] (nodes ps)).graph = ⟨(nodes ps).toArray⟩ := by
    rw [Feed.grow, Graph.addAll]
    simp [f]
  rw [← hgraph]
  change (f.peek >>= _) = _
  rw [Feed.peek_cons hopen]
  change Document.ofFeed false f = _
  rw [Document.ofFeed, Feed.peek_cons hopen]
  simp only [bind, Except.bind, Bool.false_and, Bool.false_eq_true, if_false, hread]
  rfl

end Documents

end Lintel
