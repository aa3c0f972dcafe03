import Mathlib.Data.List.Nodup
import Lintel.Proofs.Text.Ascii
import Lintel.Proofs.Tree.Preorder
import Lintel.Rules.AsciiIdentifiers

/-!
# The names that are reported

The rule on identifiers looks for names where they are declared. What declares what is said here by
a relation, `Declares`, that does not depend on the order in which nodes are looked at: the name of
a class, module or method; a parameter, which may stand at any depth of parameters taken apart; a
target of an assignment, at any depth of lists of targets. The recursive search of the rule finds
the names that are so declared and no others (`mem_declaredNames_iff`).

Several nodes may declare one name, and several names may share a range. The rule reports a range
once, and it reports exactly the ranges of declared names that hold an octet of 0x80 or above
(`detect_declared`), although it looks at the characters a lossy reader makes of them.
-/

namespace Lintel

/-- Where a node begins and ends. -/
def Node.range (n : Node) : Nat × Nat := (n.start, n.stop)

/-- Some octet between two offsets is 0x80 or above. -/
def HasHighOctet (bs : Bytes) (start stop : Nat) : Prop :=
  ∃ k b, start ≤ k ∧ k < stop ∧ bs[k]? = some b ∧ 0x80 ≤ b.toNat

namespace Rules

namespace AsciiIdentifiers

/-! ### Declarations -/

/-- A node is another one, or is reached from it through named children, where every node that is
left behind is of one of some kinds. -/
inductive Reaches (kinds : List String) : Node → Node → Prop where
  | here (n : Node) : Reaches kinds n n
  | through {p c n : Node} (hkind : p.kind ∈ kinds) (hchild : c ∈ p.namedChildren)
      (hrest : Reaches kinds c n) : Reaches kinds p n

/-- A parameter is a name, or has one in its field. -/
inductive NamesParameter : Node → Node → Prop where
  | plain {p : Node} (hkind : p.kind = "identifier") : NamesParameter p p
  | field {p m : Node} (hkind : p.kind ∈ namedParameterKinds)
      (hname : p.childByField "name" = some m) : NamesParameter p m

/-- **A node declares a name.** -/
inductive Declares : Node → Node → Prop where
  /-- The name of a class, a module or a method. -/
  | name {n m : Node} (hkind : n.kind ∈ declarationKinds)
      (hname : n.childByField "name" = some m) : Declares n m
  /-- A parameter, at any depth of parameters that are taken apart. -/
  | parameter {n c p m : Node} (hkind : n.kind ∈ parameterListKinds)
      (hchild : c ∈ n.namedChildren) (hreach : Reaches ["destructured_parameter"] c p)
      (hname : NamesParameter p m) : Declares n m
  /-- A target of an assignment, at any depth of lists of targets. -/
  | target {n left m : Node} (hkind : n.kind ∈ assignmentKinds)
      (hleft : n.childByField "left" = some left) (hreach : Reaches targetListKinds left m)
      (hvariable : m.kind ∈ variableKinds) : Declares n m

/-! ### Searching through named children -/

/-- **A search that goes on below the nodes of some kinds finds what is reached through them.** Of
the other nodes it finds what they give, and the nodes of these kinds give nothing themselves. -/
theorem mem_search_iff {kinds : List String} {search : Node → List Node}
    {P : Node → Node → Prop} (hgives : ∀ p m, P p m → p.kind ∉ kinds)
    (hgo : ∀ p m, p.kind ∈ kinds → (m ∈ search p ↔ ∃ c ∈ p.namedChildren, m ∈ search c))
    (hstop : ∀ p m, p.kind ∉ kinds → (m ∈ search p ↔ P p m)) (p m : Node) :
    m ∈ search p ↔ ∃ q, Reaches kinds p q ∧ P q m := by
  -- The search goes on at named children only, for which the hypothesis of any child is enough.
  induction p using Node.induction_children with
  | step p ih =>
  by_cases hkind : p.kind ∈ kinds
  · rw [hgo p m hkind]
    constructor
    · rintro ⟨c, hc, hm⟩
      obtain ⟨q, hreach, hgive⟩ := (ih c (List.mem_filter.mp hc).1).mp hm
      exact ⟨q, .through hkind hc hreach, hgive⟩
    · rintro ⟨q, hreach, hgive⟩
      cases hreach with
      | here => exact absurd hkind (hgives p m hgive)
      | through _ hc hrest =>
        exact ⟨_, hc, (ih _ (List.mem_filter.mp hc).1).mpr ⟨q, hrest, hgive⟩⟩
  · rw [hstop p m hkind]
    refine ⟨fun hgive => ⟨p, .here p, hgive⟩, ?_⟩
    rintro ⟨q, hreach, hgive⟩
    cases hreach with
    | here => exact hgive
    | through hmem => exact absurd hmem hkind

/-! ### Parameters -/

theorem namesOfParameters_eq (cs : List Node) :
    namesOfParameters cs = (cs.filter (·.named)).flatMap parameterNames := by
  induction cs with
  | nil => rw [namesOfParameters, List.filter_nil, List.flatMap_nil]
  | cons c cs ih =>
    rw [namesOfParameters, ih, List.filter_cons]
    -- Only named children count; punctuation contributes nothing.
    split
    · rw [List.flatMap_cons]
    · rfl

theorem parameterNames_eq (p : Node) :
    parameterNames p =
      if p.kind == "identifier" then [p]
      else if namedParameterKinds.contains p.kind then (p.childByField "name").toList
      else if p.kind == "destructured_parameter" then p.namedChildren.flatMap parameterNames
      else [] := by
  cases p
  rw [parameterNames, namesOfParameters_eq]
  rfl

theorem NamesParameter.kind_not_mem {p m : Node} (h : NamesParameter p m) :
    p.kind ∉ ["destructured_parameter"] := by
  intro hmem
  rw [List.mem_singleton] at hmem
  cases h with
  | plain hkind => exact absurd (hkind.symm.trans hmem) (by decide)
  | field hkind =>
    rw [hmem] at hkind
    exact absurd hkind (by decide)

/-- A node that is not taken apart names what the search finds at it. -/
theorem mem_parameterNames_of_not_mem {p m : Node} (h : p.kind ∉ ["destructured_parameter"]) :
    m ∈ parameterNames p ↔ NamesParameter p m := by
  have hapart : ¬(p.kind == "destructured_parameter") = true :=
    fun hkind => h (List.mem_singleton.mpr (beq_iff_eq.mp hkind))
  rw [parameterNames_eq, if_neg hapart]
  split_ifs with hplain hfield
  · -- an identifier has no name in a field
    have hkind := beq_iff_eq.mp hplain
    rw [List.mem_singleton]
    constructor
    · rintro rfl
      exact .plain hkind
    · intro hnames
      cases hnames with
      | plain => rfl
      | field hmem =>
        rw [hkind] at hmem
        exact absurd hmem (by decide)
  · -- A parameter with a field for its name declares what stands there.
    rw [Option.mem_toList]
    refine ⟨fun hm => .field (List.contains_iff_mem.mp hfield) hm, fun hnames => ?_⟩
    cases hnames with
    | plain hkind => exact absurd (beq_iff_eq.mpr hkind) hplain
    | field _ hname => exact hname
  · -- Any other node declares nothing.
    refine iff_of_false List.not_mem_nil fun hnames => ?_
    cases hnames with
    | plain hkind => exact hplain (beq_iff_eq.mpr hkind)
    | field hmem => exact hfield (List.contains_iff_mem.mpr hmem)

/-- **The names found at a parameter are those of the parameters it is taken apart into.** -/
theorem mem_parameterNames_iff (p m : Node) :
    m ∈ parameterNames p ↔ ∃ q, Reaches ["destructured_parameter"] p q ∧ NamesParameter q m := by
  refine mem_search_iff (fun _ _ h => h.kind_not_mem) ?_
    (fun _ _ h => mem_parameterNames_of_not_mem h) p m
  intro p m hmem
  have hkind := List.mem_singleton.mp hmem
  rw [parameterNames_eq, hkind, if_neg (by decide), if_neg (by decide), if_pos (by decide),
    List.mem_flatMap]

/-! ### Targets -/

theorem targetsOf_eq (cs : List Node) :
    targetsOf cs = (cs.filter (·.named)).flatMap targets := by
  induction cs with
  | nil => rw [targetsOf, List.filter_nil, List.flatMap_nil]
  | cons c cs ih =>
    rw [targetsOf, ih, List.filter_cons]
    split
    · rw [List.flatMap_cons]
    · rfl

theorem targets_eq (p : Node) :
    targets p =
      if variableKinds.contains p.kind then [p]
      else if targetListKinds.contains p.kind then p.namedChildren.flatMap targets
      else [] := by
  cases p
  rw [targets, targetsOf_eq]
  rfl

theorem not_mem_targetListKinds {kind : String} (h : kind ∈ variableKinds) :
    kind ∉ targetListKinds := by
  have hall : ∀ k ∈ variableKinds, k ∉ targetListKinds := by decide
  exact hall kind h

/-- **The targets found are the variables reached through lists of targets.** -/
theorem mem_targets_iff (p m : Node) :
    m ∈ targets p ↔ Reaches targetListKinds p m ∧ m.kind ∈ variableKinds := by
  -- A variable gives itself, so that reaching a node which gives `m` is reaching `m`.
  have hiff : m ∈ targets p ↔
      ∃ q, Reaches targetListKinds p q ∧ q.kind ∈ variableKinds ∧ m = q := by
    refine mem_search_iff (P := fun q m => q.kind ∈ variableKinds ∧ m = q) ?_ ?_ ?_ p m
    · exact fun q m h => not_mem_targetListKinds h.1
    · intro p m hmem
      have hnot : ¬variableKinds.contains p.kind = true :=
        fun h => not_mem_targetListKinds (List.contains_iff_mem.mp h) hmem
      rw [targets_eq, if_neg hnot, if_pos (List.contains_iff_mem.mpr hmem), List.mem_flatMap]
    · intro p m hnot
      have hlist : ¬targetListKinds.contains p.kind = true :=
        fun h => hnot (List.contains_iff_mem.mp h)
      rw [targets_eq, if_neg hlist]
      split_ifs with hvariable
      · rw [List.mem_singleton]
        exact (and_iff_right (List.contains_iff_mem.mp hvariable)).symm
      · exact iff_of_false List.not_mem_nil fun h => hvariable (List.contains_iff_mem.mpr h.1)
  rw [hiff]
  constructor
  · rintro ⟨q, hreach, hvariable, rfl⟩
    exact ⟨hreach, hvariable⟩
  · exact fun ⟨hreach, hvariable⟩ => ⟨m, hreach, hvariable, rfl⟩

/-! ### Declared names -/

theorem declaring_kinds_disjoint :
    (∀ k ∈ declarationKinds, k ∉ parameterListKinds ∧ k ∉ assignmentKinds) ∧
      ∀ k ∈ parameterListKinds, k ∉ assignmentKinds := by
  decide

/-- **The names found at a node are the names it declares.** -/
theorem mem_declaredNames_iff {n m : Node} : m ∈ declaredNames n ↔ Declares n m := by
  obtain ⟨hdeclaration, hparameters⟩ := declaring_kinds_disjoint
  unfold declaredNames
  simp only [List.contains_iff_mem]
  -- The three lists of kinds have nothing in common: of the three ways to declare a name, each
  -- branch leaves one and refutes the others.
  split_ifs with hname hlist hassign
  · rw [Option.mem_toList]
    refine ⟨fun h => .name hname h, fun h => ?_⟩
    cases h with
    | name _ hfield => exact hfield
    | parameter hkind => exact absurd hkind (hdeclaration _ hname).1
    | target hkind => exact absurd hkind (hdeclaration _ hname).2
  · rw [namesOfParameters_eq, List.mem_flatMap]
    constructor
    · rintro ⟨c, hc, hm⟩
      obtain ⟨p, hreach, hnames⟩ := (mem_parameterNames_iff c m).mp hm
      exact .parameter hlist hc hreach hnames
    · intro h
      cases h with
      | name hkind => exact absurd hkind hname
      | parameter _ hc hreach hnames =>
        exact ⟨_, hc, (mem_parameterNames_iff _ m).mpr ⟨_, hreach, hnames⟩⟩
      | target hkind => exact absurd hkind (hparameters _ hlist)
  · constructor
    · intro h
      split at h
      · next left hleft =>
        obtain ⟨hreach, hvariable⟩ := (mem_targets_iff left m).mp h
        exact .target hassign hleft hreach hvariable
      · exact absurd h List.not_mem_nil
    · intro h
      cases h with
      | name hkind => exact absurd hkind hname
      | parameter hkind => exact absurd hkind hlist
      | target _ hleft hreach hvariable =>
        rw [hleft]
        exact (mem_targets_iff _ m).mpr ⟨hreach, hvariable⟩
  · refine iff_of_false List.not_mem_nil fun h => ?_
    cases h with
    | name hkind => exact hname hkind
    | parameter hkind => exact hlist hkind
    | target hkind => exact hassign hkind

/-! ### One report for each range -/

theorem firstOfRange_cons (seen : List (Nat × Nat)) (n : Node) (ns : List Node) :
    firstOfRange seen (n :: ns) =
      if n.range ∈ seen then firstOfRange seen ns else n :: firstOfRange (n.range :: seen) ns := by
  rw [firstOfRange]
  simp only [List.contains_iff_mem]
  rfl

/-- The ranges that are kept did not occur before, and are those that occur. -/
theorem mem_range_firstOfRange {seen : List (Nat × Nat)} {ns : List Node} {range : Nat × Nat} :
    range ∈ (firstOfRange seen ns).map Node.range ↔
      range ∉ seen ∧ range ∈ ns.map Node.range := by
  induction ns generalizing seen with
  | nil => simp [firstOfRange]
  | cons n ns ih =>
    rw [firstOfRange_cons, List.map_cons, List.mem_cons]
    by_cases hseen : n.range ∈ seen
    · rw [if_pos hseen, ih]
      refine and_congr_right fun hnot => (or_iff_right ?_).symm
      rintro rfl
      exact hnot hseen
    · -- kept, and from now on its range counts as seen
      rw [if_neg hseen, List.map_cons, List.mem_cons, ih, List.mem_cons, not_or]
      by_cases hrange : range = n.range
      · subst hrange
        exact iff_of_true (.inl rfl) ⟨hseen, .inl rfl⟩
      · rw [or_iff_right hrange, or_iff_right hrange, and_iff_right hrange]

theorem nodup_firstOfRange (seen : List (Nat × Nat)) (ns : List Node) :
    ((firstOfRange seen ns).map Node.range).Nodup := by
  induction ns generalizing seen with
  | nil => exact List.nodup_nil
  | cons n ns ih =>
    rw [firstOfRange_cons]
    split
    · exact ih seen
    · rw [List.map_cons, List.nodup_cons]
      -- what comes later is not over a range that was seen
      refine ⟨fun h => ?_, ih _⟩
      exact (mem_range_firstOfRange.mp h).1 List.mem_cons_self

/-! ### Names outside ASCII -/

theorem mem_take_drop_iff {bs : Bytes} {start stop : Nat} {b : UInt8} :
    b ∈ (bs.drop start).take (stop - start) ↔
      ∃ k, start ≤ k ∧ k < stop ∧ bs[k]? = some b := by
  rw [List.mem_iff_getElem?]
  constructor
  · -- the place in the slice, counted from its start
    rintro ⟨i, hi⟩
    rw [List.getElem?_take] at hi
    split at hi
    · rw [List.getElem?_drop] at hi
      exact ⟨start + i, by omega, by omega, hi⟩
    · cases hi
  · rintro ⟨k, hstart, hstop, hk⟩
    refine ⟨k - start, ?_⟩
    rw [List.getElem?_take, if_pos (by omega), List.getElem?_drop,
      Nat.add_sub_of_le hstart]
    exact hk

/-- **Looking for characters outside ASCII is looking for octets of 0x80 or above.** -/
theorem isForeign_iff {v : View} {n : Node} :
    isForeign v n = true ↔ HasHighOctet v.bytes n.range.1 n.range.2 := by
  -- Lossy decoding keeps octets below 0x80 and turns each other one into part of a foreign
  -- character.
  rw [isForeign, nodeBytes, Utf8.any_decodeLossy_iff]
  simp only [mem_take_drop_iff, HasHighOctet, Node.range]
  constructor
  · rintro ⟨b, ⟨k, hstart, hstop, hk⟩, hb⟩
    exact ⟨k, b, hstart, hstop, hk, hb⟩
  · rintro ⟨k, b, hstart, hstop, hk, hb⟩
    exact ⟨b, ⟨k, hstart, hstop, hk⟩, hb⟩

/-- Names are reported by their ranges, once each. -/
theorem mem_range_reported {v : View} {nodes : List Node} {range : Nat × Nat} :
    range ∈ (reported v nodes).map Node.range ↔
      HasHighOctet v.bytes range.1 range.2 ∧
        ∃ n ∈ nodes, n.named = true ∧ ∃ m, Declares n m ∧ m.range = range := by
  -- Which node of a range is kept does not matter: only the range says whether it is foreign.
  have hdeclared : range ∈ ((nodes.filter (·.named)).flatMap declaredNames).map Node.range ↔
      ∃ n ∈ nodes, n.named = true ∧ ∃ m, Declares n m ∧ m.range = range := by
    simp only [List.mem_map, List.mem_flatMap, List.mem_filter, mem_declaredNames_iff]
    constructor
    · rintro ⟨m, ⟨n, ⟨hn, hnamed⟩, hm⟩, hrange⟩
      exact ⟨n, hn, hnamed, m, hm, hrange⟩
    · rintro ⟨n, hn, hnamed, m, hm, hrange⟩
      exact ⟨m, ⟨n, ⟨hn, hnamed⟩, hm⟩, hrange⟩
  rw [← hdeclared]
  constructor
  · intro h
    obtain ⟨m, hm, rfl⟩ := List.mem_map.mp h
    obtain ⟨hfirst, hforeign⟩ := List.mem_filter.mp hm
    exact ⟨isForeign_iff.mp hforeign,
      (mem_range_firstOfRange.mp (List.mem_map_of_mem hfirst)).2⟩
  · rintro ⟨hhigh, h⟩
    obtain ⟨m, hm, rfl⟩ := List.mem_map.mp (mem_range_firstOfRange.mpr ⟨List.not_mem_nil, h⟩)
    exact List.mem_map_of_mem (List.mem_filter.mpr ⟨hm, isForeign_iff.mpr hhigh⟩)

theorem nodup_reported (v : View) (nodes : List Node) :
    ((reported v nodes).map Node.range).Nodup :=
  (nodup_firstOfRange [] _).sublist (List.filter_sublist.map Node.range)

end AsciiIdentifiers

open AsciiIdentifiers

/-- **The rule on identifiers reports each declared name outside ASCII once.** Whatever tree the
parser made, the rule answers; the ranges of its issues are distinct, and they are the ranges of
the names that the named nodes of the tree declare, as far as they hold an octet of 0x80 or
above. -/
theorem detect_declared {σ : Type} (c : RuleConfig) (v : View) {p : Parsed} (hp : v.parsed = .ok p)
    (memory : σ) :
    ∃ found, ((⟨asciiIdentifiers, c⟩ : Rule σ).detect v memory).answer = .ok (some found) ∧
      (found.map fun i => (i.start, i.stop)).Nodup ∧
      ∀ range : Int × Int, range ∈ (found.map fun i => (i.start, i.stop)) ↔
        ∃ t, p.tree = some t ∧ ∃ n ∈ t.root.preorder, n.named = true ∧
          ∃ m, Declares n m ∧ range = ((m.start : Int), (m.stop : Int)) ∧
            HasHighOctet v.bytes m.start m.stop := by
  have hfind : ((⟨asciiIdentifiers, c⟩ : Rule σ).detect v memory).answer
      = .ok (some (find c v p.nodes)) := by
    change (v.nodes.map fun ns => some (find c v ns)) = _
    rw [View.nodes, hp]
    rfl
  -- the ranges of issues are those of the nodes, as integers
  have hranges : ((find c v p.nodes).map fun i => (i.start, i.stop))
      = ((reported v p.nodes).map Node.range).map fun r => ((r.1 : Int), (r.2 : Int)) := by
    rw [find, List.map_map, List.map_map]
    rfl
  -- Each node is listed once, and its range stays distinct as a pair of integers.
  have hinjective : Function.Injective fun r : Nat × Nat => ((r.1 : Int), (r.2 : Int)) := by
    intro r r' h
    simp only [Prod.mk.injEq, Int.natCast_inj] at h
    exact Prod.ext h.1 h.2
  refine ⟨_, hfind, ?_, ?_⟩
  · rw [hranges]
    exact (nodup_reported v p.nodes).map hinjective
  · intro range
    rw [hranges, List.mem_map]
    constructor
    · rintro ⟨r, hr, rfl⟩
      obtain ⟨hhigh, n, hn, hnamed, m, hdeclares, rfl⟩ := mem_range_reported.mp hr
      obtain ⟨t, ht, hn⟩ := Parsed.mem_nodes_iff.mp hn
      exact ⟨t, ht, n, hn, hnamed, m, hdeclares, rfl, hhigh⟩
    · rintro ⟨t, ht, n, hn, hnamed, m, hdeclares, rfl, hhigh⟩
      refine ⟨m.range, mem_range_reported.mpr ⟨hhigh, n, ?_, hnamed, m, hdeclares, rfl⟩, rfl⟩
      exact Parsed.mem_nodes_iff.mpr ⟨t, ht, hn⟩

/-- A variable of two octets at the start of a text. -/
def accentNode (field : Option String) : Node := ⟨"identifier", 0, 2, true, false, field, []⟩

/-- An assignment of a name of two octets to the one at the start of a text. -/
def accentAssignment : Node := ⟨"assignment", 0, 5, true, false, some "right",
  [accentNode (some "left"), ⟨"=", 2, 3, false, false, none, []⟩,
    ⟨"identifier", 3, 5, true, false, some "right", []⟩]⟩

/-- A tree of `é=é` in which two assignments, one of them with lists of targets, lead to the name
at the start. -/
def accentTree : Tree where
  root := ⟨"program", 0, 5, true, false, none,
    [⟨"assignment", 0, 5, true, false, none,
      [⟨"left_assignment_list", 0, 2, true, false, some "left",
          [accentNode none, ⟨"rest_assignment", 0, 2, true, false, none, [accentNode none]⟩]⟩,
        accentAssignment]⟩]⟩
  hasError := false
  bytes := Utf8.ofString "é=é"

/-- What a rule sees of that text. -/
def accentView : View where
  path := none
  text := "é=é"
  bytes := Utf8.ofString "é=é"
  starts := [0]
  parsed := .ok (Parsed.ofTree (some accentTree))

/-- The name that is declared three times is reported once, and its use is not reported. -/
theorem accent_reported_once :
    ∃ found, ((⟨asciiIdentifiers, {}⟩ : Rule Unit).detect accentView ()).answer = .ok (some found) ∧
      (found.map fun i => (i.start, i.stop)).count (0, 2) = 1 ∧
      ((3, 5) : Int × Int) ∉ (found.map fun i => (i.start, i.stop)) := by
  obtain ⟨found, hfound, hnodup, hmem⟩ := detect_declared (σ := Unit) {} accentView rfl ()
  refine ⟨found, hfound, List.count_eq_one_of_mem hnodup ((hmem _).mpr ?_), fun h => ?_⟩
  · refine ⟨accentTree, rfl, accentAssignment, ?_, rfl, accentNode (some "left"), ?_, rfl,
      0, 0xC3, by decide, by decide, rfl, by decide⟩
    · exact .tail _ (.tail _ (.tail _ (.tail _ (.tail _ (.tail _ (.head _))))))
    · exact .target (by decide) rfl (.here _) (by decide)
  · obtain ⟨t, ht, n, hn, -, m, hdeclares, hrange, -⟩ := (hmem _).mp h
    obtain rfl := Option.some.inj ht
    -- nothing that begins at another octet is declared in this tree
    have hstarts : ∀ n ∈ accentTree.root.preorder, ∀ m ∈ declaredNames n, m.start = 0 := by
      decide +kernel
    have hzero := hstarts n hn m (mem_declaredNames_iff.mpr hdeclares)
    rw [hzero] at hrange
    cases hrange

end Rules

end Lintel
