import Lintel.Proofs.Engine.Grounds
import Lintel.Proofs.Rules.Answering

/-!
# Engines with the rules of the library

An engine is `Shipped` if all its rules are of kinds that come with the library, in whatever
configuration. An engine made from such rules is, also if the parse rule had to be added
(`shipped_of_ofRules`). Its edits with grounds are those of `Rules.Mends` (`Shipped.mends`), and
begin and end between characters (`Shipped.covers`). If the parser answers for every text, then no
turn gives up a source (`Shipped.fault_eq_none`). So every loop ends, and in a state that is known
(`Shipped.ends`).
-/

namespace Lintel

variable {σ : Type}

/-- In the trees of the parser, the nodes of parentheses have ranges that are not empty and lie in
the text. -/
def Parser.Fits (parser : Parser σ) : Prop :=
  ∀ text memory tree, (parser text memory).answer = .ok (some tree) →
    ∀ n ∈ tree.root.walk, n.kind = parenthesesKind →
      n.start < n.stop ∧ n.stop ≤ (Utf8.ofString text).length

namespace Engine

def Shipped (e : Engine σ) : Prop :=
  ∀ r ∈ e.correctors, r.kind ∈ Rules.shipped

variable {e : Engine σ} {ac : Bool}

/-- The parse rule that an engine takes from rules of the library is the library's, or it is added
as it is when nothing is set. -/
theorem takeParseRule_kind {rules : List (Rule σ)} (hr : ∀ r ∈ rules, r.kind ∈ Rules.shipped) :
    (takeParseRule rules).1.kind = Rules.unparsable := by
  unfold takeParseRule
  split
  · next r hfind =>
    -- it is taken by its name, and among the kinds of the library the name tells the kind
    have hname := List.find?_some hfind
    rw [beq_iff_eq] at hname
    refine Rules.eq_of_fullName (hr r (List.mem_of_find?_eq_some hfind)) List.mem_cons_self ?_
    change r.fullName = Rules.Unparsable.profile.fullName
    rw [hname]
    decide
  · rfl

theorem mem_of_mem_takeParseRule {rules : List (Rule σ)} {r : Rule σ}
    (h : r ∈ (takeParseRule rules).2) : r ∈ rules := by
  unfold takeParseRule at h
  split at h
  · exact List.mem_of_mem_eraseP h
  · exact h

/-- **An engine of the library's rules.** -/
theorem shipped_of_ofRules {rules : List (Rule σ)} (hne : rules ≠ [])
    (hr : ∀ r ∈ rules, r.kind ∈ Rules.shipped) (parser : Parser σ) (cwd : String) (budget : Int) :
    ∃ e, ofRules rules parser cwd budget = .ok e ∧ e.Shipped ∧
      (∃ config, e.parseRule = ⟨Rules.unparsable, config⟩) ∧ e.parser = parser ∧
      e.maxIterations = budget := by
  have hempty : rules.isEmpty = false := List.isEmpty_eq_false_iff.mpr hne
  have hkind := takeParseRule_kind hr
  refine ⟨⟨(takeParseRule rules).2, (takeParseRule rules).1, parser, budget, cwd⟩, ?_, ?_,
    ⟨(takeParseRule rules).1.config, ?_⟩, rfl, rfl⟩
  · rw [ofRules, hempty]
    rfl
  · -- a rule that was given, or the parse rule, which is of the library either way
    intro r hmem
    rcases mem_correctors.mp hmem with hmem | rfl
    · exact hr r (mem_of_mem_takeParseRule hmem)
    · change (takeParseRule rules).1.kind ∈ _
      rw [hkind]
      exact List.mem_cons_self
  · change (takeParseRule rules).1 = _
    rw [← hkind]

theorem Shipped.status_of_found (he : e.Shipped) {v : View} {i : Issue} (h : e.Found v i) :
    i.status = .reported := by
  obtain ⟨r, hr, hfinds⟩ := h
  exact (Rules.findsNew (he r hr) v i hfinds).status

theorem exists_tree_of_mem_nodes {path : Option String} {text : String} {memory : σ} {p : Parsed}
    (hp : (e.shown path text memory).parsed = .ok p) {n : Node} (hn : n ∈ p.nodes) :
    ∃ tree, (e.parser text memory).answer = .ok (some tree) ∧ n ∈ tree.root.walk := by
  change (e.parser text memory).answer.map Parsed.ofTree = .ok p at hp
  cases hans : (e.parser text memory).answer with
  | error f =>
    rw [hans] at hp
    cases hp
  | ok tree =>
    rw [hans] at hp
    cases hp
    cases tree with
    -- a text that the parser does not know has no nodes
    | none => exact absurd hn List.not_mem_nil
    | some tree => exact ⟨tree, rfl, hn⟩

theorem fits_shown (hf : e.parser.Fits) (path : Option String) (text : String) (memory : σ) :
    (e.shown path text memory).Fits := by
  intro p hp n hn hkind
  obtain ⟨tree, htree, hn⟩ := exists_tree_of_mem_nodes hp hn
  exact hf text memory tree htree n hn hkind

/-- **Edits with grounds mend the text**, and if the parser's trees fit they take something away. -/
theorem Shipped.mends (he : e.Shipped) {path : Option String} {text : String} {i : Issue}
    {edit : Edit} (h : e.Grounds path text i edit) :
    ∃ old, edit.Replaces (Utf8.ofString text) old ∧ Rules.Mends i.rule old edit.octets ∧
      (e.parser.Fits → old ≠ []) := by
  obtain ⟨⟨memory, hfound⟩, memory', hproposes⟩ := h
  have hbytes : (e.shown path text memory').bytes = (e.shown path text memory).bytes := rfl
  obtain ⟨old, hreplaces, hmends, hne⟩ := Rules.mends_of_proposes he hbytes
    (Utf8.isText_ofString text) hfound hproposes
  exact ⟨old, hreplaces, hmends, fun hf => hne (fits_shown hf path text memory)⟩

/-- **Edits with grounds cover their issues**, whatever the parser's trees look like. -/
theorem Shipped.covers (he : e.Shipped) {path : Option String} {text : String} {i : Issue}
    {edit : Edit} (h : e.Grounds path text i edit) : edit.Covers (Utf8.ofString text) i := by
  obtain ⟨⟨memory, hfound⟩, memory', hproposes⟩ := h
  have hbytes : (e.shown path text memory').bytes = (e.shown path text memory).bytes := rfl
  exact Rules.covers_of_proposes he hbytes (Utf8.isText_ofString text) hfound hproposes

/-! ### No source is given up -/

/-- **The edits of a turn leave a text.** -/
theorem Shipped.isText_applyEdits (he : e.Shipped) {m : Machine} (hm : Grounded e m)
    (hs : m.stage = .correcting) (w : World σ) :
    Utf8.IsText (applyEdits (Utf8.ofString m.source.text) (e.editsFrom m w)) := by
  refine Lintel.isText_applyEdits (Utf8.isText_ofString _) ?_ fun edit hedit => ?_
  · exact Correction.chosen_separated _ _ _ _
  · obtain ⟨i, hgrounds⟩ := hm.grounds_of_mem hs hedit
    have hcovers := he.covers hgrounds
    exact ⟨hcovers.start, hcovers.stop⟩

/-- **The library's rules spoil nothing.** -/
theorem Shipped.not_spoils (he : e.Shipped) {config : RuleConfig}
    (hparse : e.parseRule = ⟨Rules.unparsable, config⟩) {m : Machine} {w : World σ}
    (hm : Grounded e m) : ¬ Spoils e m w := by
  intro hspoils
  cases hspoils with
  | parseRule hs p hp hv hfail =>
    exact not_spoils_analyzing hparse hs (.parseRule hs p hp hv hfail)
  | edits hs ht => exact ht (he.isText_applyEdits hm hs w)

theorem Shipped.fault_eq_none (he : e.Shipped) (hans : e.parser.Answers) {config : RuleConfig}
    (hparse : e.parseRule = ⟨Rules.unparsable, config⟩) {m : Machine} (hm : Grounded e m)
    (hd : m.stage ≠ .done) (w : World σ) : (e.step ac m w).fault = none := by
  cases hfault : (e.step ac m w).fault with
  | none => rfl
  | some f =>
    have hiff : (∃ f, (e.step ac m w).fault = some f) ↔ w.cancelled = false ∧ Spoils e m w :=
      step_fault_iff hans hm.coherent hd w
    exact absurd (hiff.mp ⟨f, hfault⟩).2 (he.not_spoils hparse hm)

/-- What a pass over the present text found, as the machine keeps it. -/
theorem Shipped.status_of_untouched (he : e.Shipped) {m : Machine} (h : Untouched e m)
    (hc : m.current = true) {i : Issue} (hi : i ∈ m.issues) :
    i.status = .reported ∨ i.status = .disabled ∨
      i.status = .unresolved ∧ m.converged = false := by
  obtain ⟨v, j, hfound, (rfl | rfl) | ⟨rfl, hconverged⟩⟩ := h hc i hi
  · exact .inl (he.status_of_found hfound)
  · exact .inr (.inl rfl)
  · exact .inr (.inr ⟨rfl, hconverged⟩)

/-- **How a loop of the library's rules ends**, whatever disturbs it: it is not given up, and what
the machine keeps agrees with what happened. -/
theorem Shipped.ends (he : e.Shipped) (hans : e.parser.Answers) {config : RuleConfig}
    (hparse : e.parseRule = ⟨Rules.unparsable, config⟩) {s : Source} (hs : s.Coherent)
    (hp : s.ParsedBy e.parser) {w : World σ} {states : List (Machine × World σ)}
    {t : Turn σ} (h : e.Loops ac (start ac s) w states t) :
    t.fault = none ∧ Tracked e s states t.machine ∧ Standing e states t.machine ∧
      Untouched e t.machine := by
  have hnone : t.fault = none := by
    rcases h.cases (fun past m w hm hd hfault => Grounded.step hm (moves_step hd hfault))
      (Grounded.initial hs hp) with ⟨-, -, hnone⟩ | ⟨past, m, w', f, hm, hd, hfault, rfl, -⟩
    · exact hnone
    · -- no turn gives up the source
      rw [he.fault_eq_none hans hparse hm hd w'] at hfault
      cases hfault
  obtain ⟨htracked, hstanding⟩ := h.history hs hnone
  exact ⟨hnone, htracked, hstanding, h.untouched hnone⟩

/-! ### A specimen

A parser that knows one text with parentheses, for which the hypotheses can be seen to hold. -/

theorem kind_mem_of_mem_map_ofKind {kinds : List (RuleKind σ)} :
    ∀ r ∈ kinds.map Rule.ofKind, r.kind ∈ kinds := by
  intro r hr
  obtain ⟨k, hk, rfl⟩ := List.mem_map.mp hr
  exact hk

/-- A parser that knows the tree of one text and finds no structure in any other. -/
def knowing (known : String) (root : Node) : Parser Tally :=
  Scripted.Table.parser ⟨[(known, some (root, false))], .flat, none⟩

theorem knowing_answer (known : String) (root : Node) (text : String) (memory : Tally) :
    (knowing known root text memory).answer
      = .ok (some (if text = known then ⟨root, false, Utf8.ofString text⟩
          else Scripted.flatTree text)) := by
  change Scripted.Table.lookup _ text = _
  unfold Scripted.Table.lookup
  -- the table lists one text and takes all others for flat
  by_cases h : text = known
  · have heq : (known == text) = true := beq_iff_eq.mpr h.symm
    rw [if_pos h, List.reverse_singleton, List.find?_cons, heq]
  · have hne : (known == text) = false := beq_eq_false_iff_ne.mpr (Ne.symm h)
    rw [if_neg h, List.reverse_singleton, List.find?_cons, hne]
    rfl

theorem knowing_answers (known : String) (root : Node) : (knowing known root).Answers :=
  fun text memory => ⟨_, knowing_answer known root text memory⟩

/-- The tree of the condition `(a)` of an `if`. -/
def conditionTree : Node :=
  ⟨"program", 0, 8, true, false, none, [
    ⟨"if", 0, 6, true, false, none, [
      ⟨"parenthesized_statements", 3, 6, true, false, some "condition", [
        ⟨"identifier", 4, 5, true, false, none, []⟩]⟩]⟩]⟩

/-- The parser that knows the tree of one text and finds no structure in any other. -/
def conditionParser : Parser Tally :=
  Scripted.Table.parser ⟨[("if (a)  ", some (conditionTree, false))], .flat, none⟩

theorem conditionParser_answers : conditionParser.Answers :=
  knowing_answers "if (a)  " conditionTree

theorem conditionParser_fits : conditionParser.Fits := by
  intro text memory tree hans n hn hkind
  rw [conditionParser, ← knowing, knowing_answer] at hans
  split at hans
  · -- the text with parentheses: they lie from its fourth to its sixth octet
    next htext =>
    cases hans
    subst htext
    have hall : ∀ n ∈ conditionTree.walk, n.kind = parenthesesKind → n.start = 3 ∧ n.stop = 6 := by
      simp [conditionTree, Node.walk, Node.walkFrom, parenthesesKind]
    obtain ⟨hs, he⟩ := hall n hn hkind
    rw [hs, he]
    decide
  · cases hans
    have hroot : n = (Scripted.flatTree text).root := by
      simpa [Scripted.flatTree, Node.walk, Node.walkFrom] using hn
    rw [hroot] at hkind
    change "program" = parenthesesKind at hkind
    exact absurd hkind (by decide)

end Engine

end Lintel
