import Lintel.Proofs.Tree.Preorder
import Mathlib.Data.List.Basic

/-!
# The places of a tree

Two nodes of a tree may be alike in everything, so a node is told by its **place**: the numbers of
the children through which it is reached from the root (`Node.at?`). Places are compared as lists
are: a node comes before what is below it, and what is below one child before what is below the
next. This is document order, said without any traversal.

`Node.places` lists the places of a tree: just those with a node (`Node.mem_places_iff`), in strict
order (`Node.pairwise_places`). The nodes that stand there are those of `Node.preorder`, one by one
(`Node.map_at?_places`), so the recursion gives each node once, and the first node with a property
in it is the one with the least place (`Node.exists_firstAt`).
-/

namespace Lintel

namespace Node

def at? (n : Node) : List Nat → Option Node
  | [] => some n
  | i :: p => n.children[i]?.bind (·.at? p)

mutual

/-- The places of a tree, the root before its children and these from left to right. -/
def places : Node → List (List Nat)
  | ⟨_, _, _, _, _, _, cs⟩ => [] :: placesFrom 0 cs

/-- The places of a list of trees, which are the children from a number on. -/
def placesFrom (i : Nat) : List Node → List (List Nat)
  | [] => []
  | c :: cs => (places c).map (i :: ·) ++ placesFrom (i + 1) cs

end

structure FirstAt (n : Node) (property : Node → Bool) (p : List Nat) (m : Node) : Prop where
  stands : n.at? p = some m
  holds : property m = true
  first : ∀ q k, n.at? q = some k → q < p → property k = false

@[simp] theorem at?_nil (n : Node) : n.at? [] = some n := rfl

@[simp] theorem at?_cons (n : Node) (i : Nat) (p : List Nat) :
    n.at? (i :: p) = n.children[i]?.bind (·.at? p) := rfl

theorem placesFrom_eq (i : Nat) (cs : List Node) :
    placesFrom i cs = (cs.zipIdx i).flatMap fun c => c.1.places.map (c.2 :: ·) := by
  induction cs generalizing i with
  | nil => rw [placesFrom, List.zipIdx_nil, List.flatMap_nil]
  | cons c cs ih => rw [placesFrom, ih, List.zipIdx_cons, List.flatMap_cons]

/-- The root has the empty place, and the places below a child begin with its number. -/
theorem places_eq (n : Node) :
    n.places = [] :: n.children.zipIdx.flatMap fun c => c.1.places.map (c.2 :: ·) := by
  cases n
  rw [places, placesFrom_eq]

theorem nil_mem_places (n : Node) : [] ∈ n.places := by
  rw [places_eq]
  exact List.mem_cons_self

theorem cons_mem_places_iff {n : Node} {i : Nat} {p : List Nat} :
    i :: p ∈ n.places ↔ ∃ c, n.children[i]? = some c ∧ p ∈ c.places := by
  rw [places_eq, List.mem_cons, List.mem_flatMap]
  constructor
  · -- the node itself stands at the empty place only
    rintro (h | ⟨⟨c, j⟩, hc, h⟩)
    · cases h
    · obtain ⟨q, hq, hplace⟩ := List.mem_map.mp h
      cases hplace
      exact ⟨c, List.mk_mem_zipIdx_iff_getElem?.mp hc, hq⟩
  · rintro ⟨c, hc, hp⟩
    exact .inr ⟨(c, i), List.mk_mem_zipIdx_iff_getElem?.mpr hc, List.mem_map_of_mem hp⟩

/-- **The places of a tree are those with a node.** -/
theorem mem_places_iff {n : Node} {p : List Nat} : p ∈ n.places ↔ ∃ m, n.at? p = some m := by
  -- each number of a place leads to a child, so the induction is on the place and not on the tree
  induction p generalizing n with
  | nil => exact iff_of_true n.nil_mem_places ⟨n, n.at?_nil⟩
  | cons i p ih =>
    simp only [cons_mem_places_iff, at?_cons, Option.bind_eq_some_iff, ih]
    exact ⟨fun ⟨c, hc, m, hm⟩ => ⟨m, c, hc, hm⟩, fun ⟨m, c, hc, hm⟩ => ⟨c, hc, m, hm⟩⟩

/-- **The places of a tree are listed in strict order**, so none is listed twice. -/
theorem pairwise_places (n : Node) : n.places.Pairwise (· < ·) := by
  induction n using induction_children with
  | step n ih =>
    have hnumbers : n.children.zipIdx.Pairwise fun c d => c.2 < d.2 := by
      rw [← List.pairwise_map (f := Prod.snd), List.zipIdx_map_snd]
      exact List.pairwise_lt_range' 1
    rw [places_eq, List.pairwise_cons, List.pairwise_flatMap]
    refine ⟨fun p hp => ?_, fun ⟨c, i⟩ hc => ?_, hnumbers.imp fun hlt p hp q hq => ?_⟩
    · -- the root comes before what is below a child
      obtain ⟨⟨c, i⟩, -, hp⟩ := List.mem_flatMap.mp hp
      obtain ⟨q, -, rfl⟩ := List.mem_map.mp hp
      exact List.nil_lt_cons i q
    · -- two places below one child
      have hchild : c ∈ n.children := List.fst_mem_of_mem_zipIdx hc
      rw [List.pairwise_map]
      exact (ih c hchild).imp fun hlt => List.cons_lt_cons_iff.mpr (.inr ⟨rfl, hlt⟩)
    · -- a place below one child and one below a later child
      obtain ⟨p, -, rfl⟩ := List.mem_map.mp hp
      obtain ⟨q, -, rfl⟩ := List.mem_map.mp hq
      exact List.cons_lt_cons_iff.mpr (.inl hlt)

/-- **At the places of a tree stand its nodes**, in the order of the recursion. -/
theorem map_at?_places (n : Node) : n.places.map n.at? = n.preorder.map some := by
  induction n using induction_children with
  | step n ih =>
    -- a place below a child leads through that child
    have hbelow : ∀ c ∈ n.children.zipIdx,
        (c.1.places.map (c.2 :: ·)).map n.at? = c.1.preorder.map some := by
      rintro ⟨c, i⟩ hc
      have hchild : n.children[i]? = some c := List.mk_mem_zipIdx_iff_getElem?.mp hc
      rw [← ih c (List.mem_of_getElem? hchild), List.map_map]
      refine List.map_congr_left fun p _ => ?_
      rw [Function.comp_apply, at?_cons, hchild, Option.bind_some]
    calc n.places.map n.at?
        = some n :: n.children.zipIdx.flatMap fun c => (c.1.places.map (c.2 :: ·)).map n.at? := by
          rw [places_eq, List.map_cons, List.map_flatMap, at?_nil]
      _ = some n :: n.children.zipIdx.flatMap fun c => c.1.preorder.map some := by
          rw [List.flatMap_congr hbelow]
      _ = some n :: (n.children.zipIdx.map Prod.fst).flatMap fun c => c.preorder.map some := by
          rw [List.flatMap_map]
      _ = n.preorder.map some := by
          rw [List.zipIdx_map_fst, preorder_eq, List.map_cons, List.map_flatMap]

theorem mem_preorder_of_at? {n m : Node} {p : List Nat} (h : n.at? p = some m) :
    m ∈ n.preorder := by
  have hmem : n.at? p ∈ n.places.map n.at? :=
    List.mem_map_of_mem (mem_places_iff.mpr ⟨m, h⟩)
  rw [map_at?_places, h, List.mem_map] at hmem
  obtain ⟨k, hk, hsame⟩ := hmem
  rwa [← Option.some.inj hsame]

/-- **The first node with a property in the recursion has the least place.** -/
theorem exists_firstAt {n m : Node} {property : Node → Bool}
    (h : n.preorder.find? property = some m) : ∃ p, n.FirstAt property p m := by
  obtain ⟨hm, before, after, hsplit, hbefore⟩ := List.find?_eq_some_iff_append.mp h
  -- the places are split where the nodes are
  have hplaces := map_at?_places n
  rw [hsplit, List.map_append, List.map_cons, List.map_eq_append_iff] at hplaces
  obtain ⟨earlier, rest, hrest, hearlier, hlater⟩ := hplaces
  obtain ⟨p, later, rfl, hp, -⟩ := List.map_eq_cons_iff.mp hlater
  refine ⟨p, hp, hm, fun q k hk hlt => ?_⟩
  have hsorted := n.pairwise_places
  rw [hrest, List.pairwise_append, List.pairwise_cons] at hsorted
  have hq : q ∈ n.places := mem_places_iff.mpr ⟨k, hk⟩
  rw [hrest, List.mem_append, List.mem_cons] at hq
  rcases hq with hq | rfl | hq
  · -- an earlier place: its node comes before the first one
    have hmem : n.at? q ∈ earlier.map n.at? := List.mem_map_of_mem hq
    rw [hearlier, hk, List.mem_map] at hmem
    obtain ⟨k', hk', hsame⟩ := hmem
    obtain rfl := Option.some.inj hsame
    simpa using hbefore k' hk'
  · exact absurd hlt (List.lt_irrefl q)
  · exact absurd hlt (List.lt_asymm (hsorted.2.1.1 q hq))

end Node

end Lintel
