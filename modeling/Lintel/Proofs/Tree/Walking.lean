import Lintel.Proofs.Tree.Failure
import Lintel.Proofs.Tree.Places

/-!
# Walking through a tree

A walk keeps a stack of pending trees, which come from all depths of the tree it started at. In one
turn (`Node.turn?`) it takes the last tree off the stack, lists its root, and puts its children on
the stack from the last to the first, so that the first child is next.

What a stack still stands for are the nodes **ahead**: those of its trees, from the last tree to the
first (`Node.ahead`). A turn lists the first node ahead and leaves the others
(`Node.ahead_of_turn`). So at every moment the nodes listed and the nodes ahead together are those
that were ahead at the start (`Node.Walks.ahead_eq`), and as each turn leaves fewer of them ahead, a
walk comes to an end (`Node.walks_ahead`). From a single tree it lists the recursion, which is
document order.

A tree with an error therefore fails at its first culprit in document order
(`Tree.walk_in_document_order`).
-/

namespace Lintel

namespace Node

/-- One turn with a stack of pending trees, the next of them last: the node that is listed, and the
stack afterwards. -/
def turn? (stack : List Node) : Option (Node × List Node) :=
  stack.getLast?.map fun n => (n, stack.dropLast ++ n.children.reverse)

/-- `Walks stack ns rest`: some turns from a stack list these nodes and leave the stack `rest`. -/
inductive Walks : List Node → List Node → List Node → Prop
  /-- A walk may be left at any moment. -/
  | stay (stack : List Node) : Walks stack [] stack
  /-- A turn comes before the turns that follow. -/
  | turn {stack next ns rest : List Node} {n : Node} (hturn : turn? stack = some (n, next))
      (hwalks : Walks next ns rest) : Walks stack (n :: ns) rest

/-- The nodes that a stack still stands for: its trees are listed from the last to the first. -/
def ahead (stack : List Node) : List Node :=
  stack.reverse.flatMap preorder

variable {stack next ns rest : List Node} {n : Node}

/-! ### One turn -/

/-- A turn takes the last tree off the stack and puts its children there. -/
theorem turn?_eq_some_iff : turn? stack = some (n, next) ↔
    ∃ below, stack = below ++ [n] ∧ next = below ++ n.children.reverse := by
  rcases List.eq_nil_or_concat stack with rfl | ⟨below, m, rfl⟩
  · -- an empty stack has no turn
    simp [turn?]
  · rw [turn?, List.concat_eq_append, List.getLast?_concat, List.dropLast_concat, Option.map_some,
      Option.some.injEq, Prod.mk.injEq]
    constructor
    · rintro ⟨rfl, rfl⟩
      exact ⟨below, rfl, rfl⟩
    · rintro ⟨below', hstack, rfl⟩
      obtain ⟨rfl, rfl⟩ := List.append_singleton_inj.mp hstack
      exact ⟨rfl, rfl⟩

@[simp] theorem ahead_nil : ahead [] = [] := rfl

/-- **A turn lists the first node ahead** and leaves the others. -/
theorem ahead_of_turn (h : turn? stack = some (n, next)) : ahead stack = n :: ahead next := by
  obtain ⟨below, rfl, rfl⟩ := turn?_eq_some_iff.mp h
  -- the top of the stack is its end, and the children go onto it in reverse
  calc ahead (below ++ [n])
      = n.preorder ++ ahead below := by
        rw [ahead, List.reverse_append, List.reverse_singleton, List.flatMap_append,
          List.flatMap_singleton, ahead]
    _ = n :: (n.children.flatMap preorder ++ ahead below) := by
        rw [preorder_eq, List.cons_append]
    _ = n :: ahead (below ++ n.children.reverse) := by
        rw [ahead, ahead, List.reverse_append, List.reverse_reverse, List.flatMap_append]

/-! ### Many turns -/

/-- **What is listed and what is ahead is what was ahead at the start.** -/
theorem Walks.ahead_eq (h : Walks stack ns rest) : ahead stack = ns ++ ahead rest := by
  induction h with
  | stay => rfl
  | turn hturn _ ih => rw [ahead_of_turn hturn, ih, List.cons_append]

/-- **A walk comes to an end**, and then all that was ahead is listed. -/
theorem walks_ahead (stack : List Node) : Walks stack (ahead stack) [] := by
  rcases List.eq_nil_or_concat stack with hempty | ⟨below, n, hstack⟩
  · rw [hempty]
    exact .stay []
  · rw [List.concat_eq_append] at hstack
    have hturn : turn? stack = some (n, below ++ n.children.reverse) :=
      turn?_eq_some_iff.mpr ⟨below, hstack, rfl⟩
    rw [ahead_of_turn hturn]
    exact .turn hturn (walks_ahead (below ++ n.children.reverse))
termination_by (ahead stack).length
decreasing_by
  -- one node less is ahead
  rw [ahead_of_turn hturn, List.length_cons]
  exact Nat.lt_succ_self _

/-- A walk that has come to an end has listed all that was ahead. -/
theorem walks_nil_iff : Walks stack ns [] ↔ ns = ahead stack := by
  constructor
  · intro h
    rw [h.ahead_eq, ahead_nil, List.append_nil]
  · rintro rfl
    exact walks_ahead stack

/-- `Node.walkFrom` lists what is ahead of a walk with a stack; its list of pending trees is the
stack read from the end. -/
theorem walkFrom_reverse (stack : List Node) : walkFrom stack.reverse = ahead stack :=
  walkFrom_eq stack.reverse

end Node

namespace Tree

/-- The node to blame for an error: the first node of the recursion that stands for a failure, or
the root. -/
def blamed (t : Tree) : Node := (t.root.preorder.find? isCulprit).getD t.root

variable {t : Tree}

/-- **A tree with an error fails with the range of the node to blame.** -/
theorem exists_failure (h : t.hasError = true) :
    ∃ message, t.failure = some ⟨message, t.blamed.start, t.blamed.stop⟩ := by
  -- the message is that of the culprit, or the fixed one for a tree without a culprit
  rw [failure_eq h, culprit?, Node.walk_eq_preorder, blamed]
  cases hculprit : t.root.preorder.find? isCulprit with
  | none => exact ⟨_, rfl⟩
  | some n =>
    obtain ⟨message, hfail⟩ := exists_nodeFailure (t := t) (List.find?_some hculprit)
    refine ⟨message, ?_⟩
    rw [Option.bind_some, hfail]
    rfl

/-- The node to blame is the culprit with the least place, or the root of a tree without a culprit
at any place. -/
theorem blamed_cases (t : Tree) : (∃ p, t.root.FirstAt isCulprit p t.blamed) ∨
    t.blamed = t.root ∧ ∀ p m, t.root.at? p = some m → isCulprit m = false := by
  unfold blamed
  cases hculprit : t.root.preorder.find? isCulprit with
  | none =>
    refine .inr ⟨rfl, fun p m hm => ?_⟩
    exact Bool.eq_false_iff.mpr (List.find?_eq_none.mp hculprit m (Node.mem_preorder_of_at? hm))
  | some n => exact .inl (Node.exists_firstAt hculprit)

/-- **A walk goes in document order, and a tree fails at its first culprit.** A walk with a stack
that starts at a node comes to an end with the nodes of `Node.walk` listed, and at every moment
before has listed the first of them. These are the nodes of the recursion, and they are those at the
places of the tree, each place once and in strict order. A tree with an error fails with the range
of the first node of the recursion that is missing or holds text the parser could not place, which
is the one with the least place, or with the range of its root if there is no such node at any
place. -/
theorem walk_in_document_order (t : Tree) :
    (∀ n : Node,
      (∀ ns, Node.Walks [n] ns [] ↔ ns = n.walk) ∧
      (∀ ns rest, Node.Walks [n] ns rest → ns <+: n.walk) ∧
      n.walk = n.preorder ∧
      n.walk.map some = n.places.map n.at? ∧
      n.places.Pairwise (· < ·) ∧ ∀ p, p ∈ n.places ↔ ∃ m, n.at? p = some m) ∧
    (t.hasError = true →
      (∃ message, t.failure = some ⟨message, t.blamed.start, t.blamed.stop⟩) ∧
      ((∃ p, t.root.FirstAt isCulprit p t.blamed) ∨
        t.blamed = t.root ∧ ∀ p m, t.root.at? p = some m → isCulprit m = false)) := by
  refine ⟨fun n => ?_, fun herror => ⟨exists_failure herror, t.blamed_cases⟩⟩
  have hahead : Node.ahead [n] = n.walk := (Node.walkFrom_reverse [n]).symm
  refine ⟨fun ns => ?_, fun ns rest h => ?_, n.walk_eq_preorder, ?_, n.pairwise_places,
    fun p => Node.mem_places_iff⟩
  · rw [Node.walks_nil_iff, hahead]
  · -- what is still ahead follows what is listed
    rw [← hahead, h.ahead_eq]
    exact List.prefix_append ns (Node.ahead rest)
  · rw [n.walk_eq_preorder, n.map_at?_places]

/-- The tree of a text with two calls that are not closed, the inner one broken off by a semicolon:
both end in a missing parenthesis, and these two nodes are alike. -/
def unclosedTree : Tree where
  root := ⟨"program", 0, 5, true, false, none,
    [⟨"call", 0, 5, true, false, none,
      [⟨"identifier", 0, 1, true, false, some "method", []⟩,
        ⟨"argument_list", 1, 5, true, false, some "arguments",
          [⟨"(", 1, 2, false, false, none, []⟩,
            ⟨"call", 2, 5, true, false, none,
              [⟨"identifier", 2, 3, true, false, some "method", []⟩,
                ⟨"argument_list", 3, 5, true, false, some "arguments",
                  [⟨"(", 3, 4, false, false, none, []⟩,
                    ⟨"ERROR", 4, 5, true, false, none, [⟨";", 4, 5, false, false, none, []⟩]⟩,
                    ⟨")", 5, 5, false, true, none, []⟩]⟩]⟩,
            ⟨")", 5, 5, false, true, none, []⟩]⟩]⟩]⟩
  hasError := true
  bytes := Utf8.ofString "f(g(;"

/-- The walk lists the two missing parentheses apart, and the failure is in the inner call, although
a culprit stands nearer to the root. -/
theorem unclosedTree_fails_inside :
    unclosedTree.hasError = true ∧
      unclosedTree.root.walk.map (·.kind) = ["program", "call", "identifier", "argument_list", "(",
        "call", "identifier", "argument_list", "(", "ERROR", ";", ")", ")"] ∧
      [0, 1, 1, 1, 2] ∈ unclosedTree.root.places ∧ [0, 1, 2] ∈ unclosedTree.root.places ∧
      unclosedTree.root.at? [0, 1, 1, 1, 2] = unclosedTree.root.at? [0, 1, 2] ∧
      ∃ message, unclosedTree.failure = some ⟨message, 4, 5⟩ := by
  obtain ⟨hnodes, hfails⟩ := walk_in_document_order unclosedTree
  obtain ⟨-, -, hwalk, -, -, hplaces⟩ := hnodes unclosedTree.root
  obtain ⟨⟨message, hfailure⟩, -⟩ := hfails rfl
  -- the culprit that comes first in document order, not the one nearest to the root
  have hrange : unclosedTree.blamed.start = 4 ∧ unclosedTree.blamed.stop = 5 := by
    decide +kernel
  rw [hrange.1, hrange.2] at hfailure
  rw [hwalk, hplaces, hplaces]
  exact ⟨rfl, by decide +kernel, ⟨_, rfl⟩, ⟨_, rfl⟩, rfl, message, hfailure⟩

end Tree

end Lintel
