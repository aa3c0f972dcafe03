import Lintel.Proofs.Yaml.Objects

/-!
# The data of nested mappings

The data of a node is a tree, and what it takes to make one is remembered for each list. In a plain
graph, a number of mappings inside of each other that hold lists of texts in the end
(`Graph.IsNested`) have the data that is seen from the graph (`Graph.nestedData`): what is
remembered is always right (`Objects.Remembers`), so it makes no difference (`Objects.data_nested`).
-/

namespace Lintel

namespace Yaml

namespace Graph

/-- Lists of texts, in as many mappings inside of each other as the number says. -/
def IsNested (g : Graph) : Nat → NodeId → Prop
  | 0, id => ∃ xs, g.get id = ⟨.list, .list xs⟩ ∧ ∀ x ∈ xs, ∃ s, g.get x = .text s
  | n + 1, id => ∃ es, g.get id = ⟨.map, .map es⟩ ∧ ∀ e ∈ es, g.IsNested n e.2

def listData (g : Graph) (xs : List NodeId) : Data :=
  .list (xs.map fun x => .text (g.textOf x))

/-- The data of lists of texts in mappings inside of each other. -/
def nestedData (g : Graph) : Nat → NodeId → Data
  | 0, id => g.listData (g.children id)
  | n + 1, id =>
    match (g.get id).content with
    | .map es => .map (es.map fun e => (.text (g.textOf e.1), g.nestedData n e.2))
    | .scalar _ | .list _ => .null

end Graph

namespace Objects

variable {g : Graph} {o : Objects} {id : NodeId} {m : Memo}

def Remembers (g : Graph) (m : Memo) : Prop :=
  ∀ id d, m.getD id none = some d → ∃ xs, g.get id = ⟨.list, .list xs⟩ ∧ d = g.listData xs

theorem remembers_replicate (g : Graph) (n : Nat) : Remembers g (Array.replicate n none) := by
  intro id d h
  rw [Array.getD_eq_getD_getElem?, Array.getElem?_replicate] at h
  split at h <;> cases h

theorem Remembers.set (hm : Remembers g m) {xs : List NodeId}
    (h : g.get id = ⟨.list, .list xs⟩) :
    Remembers g (m.setIfInBounds id (some (g.listData xs))) := by
  intro x d hx
  rw [Array.getD_eq_getD_getElem?, Array.getElem?_setIfInBounds] at hx
  -- The new entry is right by the hypothesis, all others by what was remembered before.
  by_cases heq : id = x
  · subst heq
    rw [if_pos rfl] at hx
    split at hx
    · exact ⟨xs, h, (Option.some.inj hx).symm⟩
    · cases hx
  · rw [if_neg heq, ← Array.getD_eq_getD_getElem?] at hx
    exact hm x d hx

theorem unroll_text (hc : Complete g o) (hm : Remembers g m) (hid : o.Made id) {s : String}
    (h : g.get id = .text s) (fuel : Nat) (path : List NodeId) :
    (o.unroll (fuel + 1) path id).run m = pure ((.text s, false), m) := by
  -- only lists are remembered, and this is a text
  have hnone : m.getD id none = none := by
    cases hget : m.getD id none with
    | none => rfl
    | some d =>
      obtain ⟨xs, hxs, -⟩ := hm id d hget
      rw [h] at hxs
      cases hxs
  rw [unroll]
  simp only [StateT.run_bind, StateT.run_get, pure_bind, hnone, hc.object id hid,
    Graph.object_text h]
  rfl

theorem mapM_unroll_text (hc : Complete g o) (hm : Remembers g m) {xs : List NodeId}
    (h : ∀ x ∈ xs, o.Made x ∧ ∃ s, g.get x = .text s) (fuel : Nat) (path : List NodeId) :
    (xs.mapM fun x => o.unroll (fuel + 1) path x).run m
      = pure (xs.map fun x => (.text (g.textOf x), false), m) := by
  induction xs with
  | nil => rfl
  | cons x xs ih =>
    obtain ⟨hx, s, hs⟩ := h x List.mem_cons_self
    have hmore := ih fun y hy => h y (List.mem_cons_of_mem _ hy)
    -- Texts are not remembered, so the memory is the same after each of them.
    rw [List.mapM_cons, StateT.run_bind, unroll_text hc hm hx hs]
    simp only [pure_bind, StateT.run_bind, hmore, StateT.run_pure]
    rw [List.map_cons, Graph.textOf_text hs]

/-- **The data of a list of texts.** -/
theorem unroll_list (hc : Complete g o) (hm : Remembers g m) (hid : o.Made id) {xs : List NodeId}
    (h : g.get id = ⟨.list, .list xs⟩) (htexts : ∀ x ∈ xs, ∃ s, g.get x = .text s) (fuel : Nat) :
    ∃ m', (o.unroll (fuel + 2) [] id).run m = pure ((g.listData xs, false), m') ∧
      Remembers g m' := by
  cases hget : m.getD id none with
  | some d =>
    -- it is the same list that is remembered
    obtain ⟨ys, hys, rfl⟩ := hm id d hget
    rw [h] at hys
    injection hys with _ hys
    injection hys with hys
    refine ⟨m, ?_, hm⟩
    rw [unroll]
    simp only [StateT.run_bind, StateT.run_get, pure_bind, hget, hys]
    rfl
  | none =>
    have hmade : ∀ x ∈ xs, o.Made x ∧ ∃ s, g.get x = .text s := fun x hx =>
      ⟨hc.children id hid x (by rwa [Graph.children_list h]), htexts x hx⟩
    have hdata : (xs.map fun x => (Data.text (g.textOf x), false)).map (·.1)
        = xs.map fun x => .text (g.textOf x) := by
      rw [List.map_map]
      rfl
    have hcut : (xs.map fun x => (Data.text (g.textOf x), false)).any (·.2) = false := by
      rw [List.any_map, List.any_eq_false]
      exact fun _ _ => Bool.false_ne_true
    refine ⟨m.setIfInBounds id (some (g.listData xs)), ?_, hm.set h⟩
    rw [unroll]
    simp only [StateT.run_bind, StateT.run_get, pure_bind, hget, hc.object id hid,
      Graph.object_list h]
    have houtside : ([] : List NodeId).contains id = false := rfl
    simp only [houtside, Bool.false_eq_true, if_false, StateT.run_bind,
      mapM_unroll_text hc hm hmade, pure_bind, hdata, hcut]
    rfl

theorem mapM_unrollFreely {n : Nat} {es : List (NodeId × NodeId)}
    (h : ∀ e ∈ es, ∀ m, Remembers g m →
      ∃ m', (o.unrollFreely n e.2).run m = pure (g.nestedData n e.2, m') ∧ Remembers g m')
    (hm : Remembers g m) :
    ∃ m', (List.mapM (fun ((k, v) : Key × NodeId) => do pure (k.data, ← o.unrollFreely n v))
        (es.map fun e : NodeId × NodeId => (g.keyOf e.1, e.2))).run m
      = pure (es.map fun e => (Data.text (g.textOf e.1), g.nestedData n e.2), m') ∧
        Remembers g m' := by
  induction es generalizing m with
  | nil => exact ⟨m, rfl, hm⟩
  -- what is remembered grows, so the rest is read with more of it
  | cons e es ih =>
    obtain ⟨m₁, hfirst, hm₁⟩ := h e List.mem_cons_self m hm
    obtain ⟨m₂, hmore, hm₂⟩ := ih (fun d hd => h d (List.mem_cons_of_mem _ hd)) hm₁
    refine ⟨m₂, ?_, hm₂⟩
    rw [List.map_cons, List.mapM_cons]
    simp only [StateT.run_bind, hfirst, pure_bind, StateT.run_pure, hmore]
    rfl

/-- **The data of mappings inside of each other**, whatever is remembered. -/
theorem unrollFreely_nested (hc : Complete g o) (hm : Remembers g m) (hid : o.Made id) {n : Nat}
    (h : g.IsNested n id) :
    ∃ m', (o.unrollFreely n id).run m = pure (g.nestedData n id, m') ∧ Remembers g m' := by
  induction n generalizing id m with
  -- no mapping is left to go into: a list of texts
  | zero =>
    obtain ⟨xs, hxs, htexts⟩ := h
    obtain ⟨m', hrun, hm'⟩ := unroll_list hc hm hid hxs htexts o.graph.next
    refine ⟨m', ?_, hm'⟩
    rw [unrollFreely]
    simp only [StateT.run_bind, hrun, pure_bind, StateT.run_pure, Graph.nestedData,
      Graph.children_list hxs]
  | succ n ih =>
    obtain ⟨es, hes, hnested⟩ := h
    have hmade : ∀ e ∈ es, o.Made e.2 := fun e he =>
      hc.children id hid e.2 ((Graph.mem_children_map hes).mpr ⟨e, he, .inr rfl⟩)
    obtain ⟨m', hrun, hm'⟩ := mapM_unrollFreely
      (fun e he m hm => ih hm (hmade e he) (hnested e he)) hm
    refine ⟨m', ?_, hm'⟩
    rw [unrollFreely, hc.object id hid, Graph.object_map hes]
    simp only [StateT.run_bind, hrun, pure_bind, StateT.run_pure, Graph.nestedData, hes]

theorem data_leaf {k : Key} (h : o.get? id = some (.leaf k)) : o.data id = k.data := by
  -- nothing is remembered at the start
  have hnone : (Array.replicate o.graph.next (none : Option Data)).getD id none = none := by
    rw [Array.getD_eq_getD_getElem?, Array.getElem?_replicate]
    split <;> rfl
  have hunroll : (o.unroll (o.graph.next + 2) [] id).run (Array.replicate o.graph.next none)
      = pure ((k.data, false), Array.replicate o.graph.next none) := by
    rw [unroll]
    simp only [StateT.run_bind, StateT.run_get, pure_bind, hnone, h]
    rfl
  rw [data, freeLevels, unrollFreely, h]
  simp only
  rw [unrollFreely, StateT.run_bind, hunroll]
  rfl

/-- **The data of a document** that consists of mappings inside of each other. -/
theorem data_nested (hc : Complete g o) (hid : o.Made id) (h : g.IsNested freeLevels id) :
    o.data id = g.nestedData freeLevels id := by
  obtain ⟨m', hrun, -⟩ := unrollFreely_nested hc (remembers_replicate g o.graph.next) hid h
  rw [data, hrun]
  rfl

end Objects

/-- **The data of a plain document**: it is read, and it is what is seen from the graph. -/
theorem Document.data_plain {d : Document} (hg : d.graph.IsPlain) (hroot : d.root < d.graph.next)
    (h : d.graph.IsNested Objects.freeLevels d.root) :
    d.data = .ok (d.graph.nestedData Objects.freeLevels d.root) := by
  obtain ⟨o, ho, hc, hmade⟩ := Objects.ofDocument_plain hg hroot
  rw [Document.data, ho, ← Objects.data_nested hc hmade h]
  rfl

end Yaml

end Lintel
