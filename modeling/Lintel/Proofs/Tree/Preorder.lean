import Lintel.Tree

/-!
# The nodes of a tree

A node holds its children in a list, so what is proved of all nodes is proved with
`Node.induction_children`: it holds of a node if it holds of its children. The nodes of a tree are
those of `Node.preorder`, which the walk with its list of pending nodes lists as well
(`Node.walkFrom_eq`): the pending trees are listed one after the other.
-/

namespace Lintel

namespace Node

theorem countAll_le_of_mem {c : Node} {cs : List Node} (h : c ∈ cs) : c.count ≤ countAll cs := by
  obtain ⟨before, after, rfl⟩ := List.append_of_mem h
  rw [countAll_append, countAll_cons]
  omega

theorem count_lt_of_mem {c n : Node} (h : c ∈ n.children) : c.count < n.count := by
  have hle := countAll_le_of_mem h
  rw [count_eq n]
  omega

/-- **Induction on trees**: what a node has because its children have it, every node has. -/
@[elab_as_elim]
theorem induction_children {motive : Node → Prop}
    (step : ∀ n : Node, (∀ c ∈ n.children, motive c) → motive n) (n : Node) : motive n :=
  step n fun c _ => induction_children step c
termination_by n.count
decreasing_by exact count_lt_of_mem ‹_›

theorem preorderAll_eq (cs : List Node) : preorderAll cs = cs.flatMap preorder := by
  induction cs with
  | nil => rw [preorderAll, List.flatMap_nil]
  | cons c cs ih => rw [preorderAll, ih, List.flatMap_cons]

theorem preorder_eq (n : Node) : n.preorder = n :: n.children.flatMap preorder := by
  cases n
  rw [preorder, preorderAll_eq]

/-- **The children of a node of a tree are nodes of the tree.** -/
theorem mem_preorder_of_child {t n c : Node} (h : n ∈ t.preorder) (hc : c ∈ n.children) :
    c ∈ t.preorder := by
  induction t using induction_children with
  | step t ih =>
    rw [preorder_eq] at h ⊢
    refine List.mem_cons_of_mem _ (List.mem_flatMap.mpr ?_)
    rcases List.mem_cons.mp h with rfl | h
    · refine ⟨c, hc, ?_⟩
      rw [preorder_eq]
      exact List.mem_cons_self
    · -- below a child of the root, where the induction hypothesis applies
      obtain ⟨d, hd, h⟩ := List.mem_flatMap.mp h
      exact ⟨d, hd, ih d hd h⟩

/-- **The walk lists the pending trees one after the other.** -/
theorem walkFrom_eq (pending : List Node) : walkFrom pending = pending.flatMap preorder := by
  induction pending using walkFrom.induct with
  | case1 => rw [walkFrom, List.flatMap_nil]
  | case2 n pending ih =>
    rw [walkFrom, ih, List.flatMap_append, List.flatMap_cons, preorder_eq n, List.cons_append]

/-- **The walk lists the nodes as the recursion does.** -/
theorem walk_eq_preorder (n : Node) : n.walk = n.preorder := by
  rw [walk, walkFrom_eq, List.flatMap_singleton]

end Node

theorem Parsed.mem_nodes_iff {p : Parsed} {n : Node} :
    n ∈ p.nodes ↔ ∃ t, p.tree = some t ∧ n ∈ t.root.preorder := by
  unfold Parsed.nodes
  split
  · next ht => simp [ht]
  · next t ht => simp [ht, Node.walk_eq_preorder]

theorem Parsed.mem_nodes_of_child {p : Parsed} {n c : Node} (h : n ∈ p.nodes)
    (hc : c ∈ n.children) : c ∈ p.nodes := by
  obtain ⟨t, ht, hn⟩ := mem_nodes_iff.mp h
  exact mem_nodes_iff.mpr ⟨t, ht, Node.mem_preorder_of_child hn hc⟩

end Lintel
