import Lintel.Proofs.Engine.Accounting
import Lintel.Proofs.Engine.Library

/-!
# The gate of the parse rule

A text that does not parse is shown to the parse rule and to no other rule. One look at a pass
does not settle this: a correction may break a text that parsed, at any round, and what was found
before must not lead to further calls about the broken text. This module follows the gate through
whole runs:

* a call to a rule other than the parse rule is made only in a turn in which the text is known to
  parse (`Gate.parses_of_call`);
* what is corrected or loses against a correction was found by the other rules, in a text that
  parsed, and so was everything the last pass found in a text that parses; in a text that does not
  parse the last pass finds the failure alone (`Gate.finished`).

**The invariant.** `Gate` says what the machine knows of its text: while it corrects, and when it
has ended without being aborted, the outcome of parsing is at hand and the issues are those that go
with it. Suppression comments, exclusions and switches do not occur in it, because the pass over a
broken text reads none of them.

Rules may put any name on the issues they hand over. What a report lists under the name of the
parse rule is therefore counted for rules that hand over nothing under it (`Rule.Avoids`), such as
those that sign their findings (`Rule.Signs`); for all others the theorem says where the issues
besides the failure come from.
-/

namespace Lintel

variable {σ : Type}

def Rule.Signs (r : Rule σ) : Prop :=
  ∀ v i, r.Finds v i → i.rule = r.fullName

/-- The rule hands over nothing under a name. -/
def Rule.Avoids (r : Rule σ) (name : String) : Prop :=
  ∀ v i, r.Finds v i → i.rule ≠ name

theorem Rule.Signs.avoids {r : Rule σ} (h : r.Signs) {name : String} (hne : r.fullName ≠ name) :
    r.Avoids name := by
  intro v i hfinds
  rw [h v i hfinds]
  exact hne

/-- A call that is not to be made about a text that does not parse: one for the findings of a rule
other than the parse rule, or for a correction. -/
def Call.isGated : Call → Bool
  | .parse _ => false
  | .detect rule _ _ => rule != Rules.parseRuleName
  | .correct .. => true

def Parser.Gives (parser : Parser σ) (text : String) (p : Parsed) : Prop :=
  ∃ memory tree, (parser text memory).answer = .ok tree ∧ p = Parsed.ofTree tree

def Rules.Unparsable.issueFor (c : RuleConfig) (v : View) (f : ParseFailure) : Issue :=
  Rule.issueAt profile c v f.start f.stop f.message (some false)

/-- The issue reports a failure of the parser: it bears the name of the parse rule, is reported, is
not to be corrected, and covers the range of the failure. -/
structure Issue.Tells (i : Issue) (f : ParseFailure) : Prop where
  rule : i.rule = Rules.parseRuleName
  status : i.status = .reported
  uncorrectable : i.correctable = false
  start : i.start = f.start
  stop : i.stop = f.stop

theorem Rules.Unparsable.tells_issueFor (c : RuleConfig) (v : View) (f : ParseFailure) :
    (issueFor c v f).Tells f where
  rule := by
    change profile.fullName = Rules.parseRuleName
    decide
  status := rfl
  uncorrectable := rfl
  start := rfl
  stop := rfl

namespace Engine

variable {e : Engine σ} {c : RuleConfig} {ac : Bool}

/-- What is known of the text when a turn is taken: the outcome of parsing, now or before. -/
def outcome (e : Engine σ) (t : Machine × World σ) : Except Fault Parsed :=
  (t.1.source.parse e.parser t.2).1

/-- **The calls of a turn keep to the gate**: those that are not to be made about a broken text are
made about a text that the parser has accepted. -/
def KeepsGate (e : Engine σ) (ac : Bool) (t : Machine × World σ) : Prop :=
  ∀ call ∈ t.2.since (e.step ac t.1 t.2).world, call.isGated = true →
    call.text = t.1.source.text ∧
      ∃ p, e.outcome t = .ok p ∧ e.parser.Gives call.text p ∧ p.failure = none

def FromOthers (e : Engine σ) (i : Issue) : Prop :=
  ∃ r ∈ e.rules, ∃ v p j, v.parsed = .ok p ∧ p.failure = none ∧ r.Finds v j ∧
    i = j.withStatus i.status

theorem FromOthers.withStatus {i : Issue} (h : e.FromOthers i) (status : Status) :
    e.FromOthers (i.withStatus status) := by
  obtain ⟨r, hr, v, p, j, hv, hp, hfinds, hi⟩ := h
  refine ⟨r, hr, v, p, j, hv, hp, hfinds, ?_⟩
  rw [hi]
  rfl

theorem FromOthers.silenced {i j : Issue} (h : e.FromOthers j) (hij : Issue.Silenced i j) :
    e.FromOthers i := by
  rcases hij with rfl | rfl
  · exact h
  · exact h.withStatus .disabled

theorem FromOthers.rule_ne {i : Issue} (h : e.FromOthers i)
    (havoids : ∀ r ∈ e.rules, r.Avoids Rules.parseRuleName) : i.rule ≠ Rules.parseRuleName := by
  obtain ⟨r, hr, v, p, j, -, -, hfinds, hi⟩ := h
  rw [hi]
  exact havoids r hr v j hfinds

/-! ### One pass -/

/-- What a pass finds in a text: the failure alone, or what the other rules find. -/
inductive Lists (e : Engine σ) (c : RuleConfig) (s : Source) (p : Parsed) : List Issue → Prop where
  | parses {issues : List Issue} (hp : p.failure = none) (hi : ∀ i ∈ issues, e.FromOthers i) :
      Lists e c s p issues
  | fails (f : ParseFailure) (hp : p.failure = some f) :
      Lists e c s p [Rules.Unparsable.issueFor c (View.ofText s.path s.text (.ok p)) f]

theorem Lists.congr {s s' : Source} {p : Parsed} {issues : List Issue} (h : Lists e c s p issues)
    (htext : s'.text = s.text) (hpath : s'.path = s.path) : Lists e c s' p issues := by
  cases h with
  | parses hp hi => exact .parses hp hi
  | fails f hp =>
    rw [← htext, ← hpath]
    exact .fails f hp

/-- Where a correction is possible, the text parses. -/
theorem Lists.parses_of_pending {s : Source} {p : Parsed} {issues : List Issue}
    (h : Lists e c s p issues) (hpend : issues.any (·.isPending) = true) :
    p.failure = none ∧ ∀ i ∈ issues, e.FromOthers i := by
  cases h with
  | parses hp hi => exact ⟨hp, hi⟩
  | fails f hp =>
    -- the failure of a parse is never to be corrected
    have hnot : (Rules.Unparsable.issueFor c (View.ofText s.path s.text (.ok p)) f).isPending
        = false := rfl
    rw [List.any_cons, hnot] at hpend
    cases hpend

theorem fromOthers_of_analyzeValid {v : View} {p : Parsed} (hv : v.parsed = .ok p)
    (hp : p.failure = none) {w : World σ} {i : Issue} (hi : i ∈ (e.analyzeValid v w).1.issues) :
    e.FromOthers i := by
  obtain ⟨made, -, hrec⟩ := exists_detectAll_calls v (e.applicable v.path) w
  obtain ⟨j, hij, r, hr, memory, found, hans, hj, -⟩ := hrec.silence.sound i hi
  have hmem : r ∈ e.rules := (List.mem_filter.mp hr).1
  have hothers : e.FromOthers j := ⟨r, hmem, v, p, j, hv, hp, ⟨memory, found, hans, hj⟩, rfl⟩
  exact hothers.silenced hij

/-- **A completed pass** knows the outcome of parsing, and finds what goes with it. -/
theorem lists_of_analyze (hr : e.parseRule = ⟨Rules.unparsable, c⟩) {s : Source} (hs : s.Coherent)
    {w : World σ} {a : Analysis} (ha : (e.analyze s w).1 = .ok a) :
    ∃ p, (e.analyze s w).2.1.parsedMemo = some p ∧ Lists e c s p a.issues := by
  have hview := Source.view_fst hs e.parser w
  rw [analyze_source, Source.view_parsedMemo]
  unfold analyze at ha
  simp only at ha
  rw [hview, View.ofText_parsed] at ha
  cases hparse : (s.parse e.parser w).1 with
  -- without an outcome the pass would have failed
  | error f =>
    rw [hparse] at ha
    cases ha
  | ok p =>
    refine ⟨p, Source.parsedMemo_of_parse hparse, ?_⟩
    rw [hparse] at ha
    simp only at ha
    cases hf : p.failure with
    | none =>
      have hvalid : p.isValid = true := by rw [Parsed.isValid, hf]; rfl
      rw [if_pos hvalid] at ha
      cases ha
      exact .parses hf fun i hi => fromOthers_of_analyzeValid (View.ofText_parsed _ _ _) hf hi
    | some f =>
      have hvalid : ¬ p.isValid = true := by
        rw [Parsed.isValid, hf]
        exact Bool.false_ne_true
      rw [if_neg hvalid] at ha
      -- the parse rule answers from the outcome of parsing alone
      have hanswer : (e.parseRule.detect (View.ofText s.path s.text (.ok p))
          (s.view e.parser w).2.2.memory).answer
          = .ok (some [Rules.Unparsable.issueFor c (View.ofText s.path s.text (.ok p)) f]) := by
        rw [hr]
        change Except.ok (some (Rules.Unparsable.find c _ p)) = _
        rw [Rules.Unparsable.find, hf]
        rfl
      unfold analyzeBroken at ha
      simp only [hanswer] at ha
      cases ha
      exact .fails f hf

theorem parses_of_analyze_call (hr : e.parseRule = ⟨Rules.unparsable, c⟩) {s : Source}
    (hs : s.Coherent) {w : World σ} {call : Call} (hcall : call ∈ w.since (e.analyze s w).2.2)
    (hgated : call.isGated = true) :
    ∃ p, (s.parse e.parser w).1 = .ok p ∧ p.failure = none := by
  obtain ⟨parses, hparses, hall⟩ := exists_parse_calls e.parser s w
  have hview := Source.view_fst hs e.parser w
  have hname : e.parseRule.fullName = Rules.parseRuleName := by
    rw [hr]
    change Rules.Unparsable.profile.fullName = Rules.parseRuleName
    decide
  have hparsed : ∀ call ∈ parses, call.isGated = false := by
    intro call hmem
    rw [hall call hmem]
    rfl
  -- in all cases but one, every call that is made passes the gate
  have hnone : ∀ made : List Call, (e.analyze s w).2.2.calls = made.reverse ++ w.calls →
      ¬ ∀ call ∈ made, call.isGated = false := by
    intro made hmade hpass
    rw [World.since_eq hmade] at hcall
    rw [hpass call hcall] at hgated
    cases hgated
  unfold analyze at hnone
  simp only at hnone
  rw [hview, View.ofText_parsed, Source.view_world] at hnone
  cases hparse : (s.parse e.parser w).1 with
  | error f =>
    rw [hparse] at hnone
    exact absurd hparsed (hnone parses hparses)
  | ok p =>
    rw [hparse] at hnone
    simp only at hnone
    cases hf : p.failure with
    -- this is the one case
    | none => exact ⟨p, rfl, hf⟩
    | some f =>
      have hvalid : ¬ p.isValid = true := by
        rw [Parsed.isValid, hf]
        exact Bool.false_ne_true
      rw [if_neg hvalid] at hnone
      -- the parse rule is called after the parser
      obtain ⟨found, hbroken⟩ : ∃ found,
          (e.analyzeBroken (View.ofText s.path s.text (.ok p)) (s.parse e.parser w).2.2).2.calls
            = .detect e.parseRule.fullName s.text found :: (s.parse e.parser w).2.2.calls := by
        unfold analyzeBroken
        simp only
        split <;> exact ⟨_, rfl⟩
      refine absurd (fun call hmem => ?_) (hnone (parses ++ [.detect e.parseRule.fullName s.text
        found]) ?_)
      · rcases List.mem_append.mp hmem with hmem | hmem
        · exact hparsed call hmem
        · rw [List.mem_singleton.mp hmem, Call.isGated, hname]
          decide
      · rw [List.reverse_append, List.append_assoc, ← hparses]
        exact hbroken

/-! ### Whole runs -/

/-- **What the machine knows of its text**, where it has looked at it. -/
structure Gate (e : Engine σ) (c : RuleConfig) (m : Machine) : Prop where
  grounded : Grounded e m
  /-- Corrections start from what the other rules found. -/
  others : ∀ i ∈ m.corrected ++ m.conflicts, e.FromOthers i
  correcting : m.stage = .correcting →
    ∃ p, m.source.parsedMemo = some p ∧ p.failure = none ∧ ∀ i ∈ m.issues, e.FromOthers i
  /-- A loop that was not aborted has looked at its last text. -/
  finished : m.stage = .done → m.aborted = false →
    ∃ p, m.source.parsedMemo = some p ∧ Lists e c m.source p m.issues

theorem Gate.initial {s : Source} (hs : s.Coherent) (hp : s.ParsedBy e.parser) :
    Gate e c (start ac s) where
  grounded := Grounded.initial hs hp
  others _ hi := absurd hi List.not_mem_nil
  correcting h := by cases h
  finished h := by cases h

/-- **A turn keeps the gate.** -/
theorem Gate.step (hr : e.parseRule = ⟨Rules.unparsable, c⟩) {m m' : Machine} {w w' : World σ}
    (h : Gate e c m) (hm : Moves e ac m w m' w') : Gate e c m' := by
  have hgrounded : Grounded e m' := h.grounded.step hm
  -- a pass leaves the text, and what it finds goes with the text
  have hlook : ∀ a, (e.analyze m.source w).1 = .ok a →
      ∃ p, (e.analyze m.source w).2.1.parsedMemo = some p ∧
        Lists e c (e.analyze m.source w).2.1 p a.issues := by
    intro a ha
    obtain ⟨p, hmemo, hlists⟩ := lists_of_analyze hr h.grounded.coherent ha
    rw [analyze_source] at hmemo ⊢
    exact ⟨p, hmemo, hlists.congr (Source.view_text _ _ _) (Source.view_path _ _ _)⟩
  cases hm with
  | abort hc => exact ⟨hgrounded, h.others, fun hs => (by cases hs), fun _ ha => (by cases ha)⟩
  | settle hc hs a ha hp =>
    exact ⟨hgrounded, h.others, fun hs => (by cases hs), fun _ _ => hlook a ha⟩
  -- something was pending, so the text parses and the findings are of the other rules
  | exhaust hc hs a ha hac hp hb =>
    obtain ⟨p, hmemo, hlists⟩ := hlook a ha
    obtain ⟨hparses, hothers⟩ := hlists.parses_of_pending hp
    refine ⟨hgrounded, h.others, fun hs => (by cases hs), fun _ _ => ⟨p, hmemo, .parses hparses ?_⟩⟩
    intro i hi
    obtain ⟨k, hk, rfl | rfl⟩ := exists_of_mem_markUnresolved hi
    · exact hothers i hk
    · exact (hothers k hk).withStatus .unresolved
  | proceed hc hs a ha hac hp hb =>
    obtain ⟨p, hmemo, hlists⟩ := hlook a ha
    obtain ⟨hparses, hothers⟩ := hlists.parses_of_pending hp
    exact ⟨hgrounded, h.others, fun _ => ⟨p, hmemo, hparses, hothers⟩, fun hs => (by cases hs)⟩
  | rest hc hs hn =>
    -- the outcome of parsing was known, so the text has not been parsed again
    obtain ⟨p, hmemo, hparses, hothers⟩ := h.correcting hs
    refine ⟨hgrounded, h.others, fun hs => (by cases hs), fun _ _ => ⟨p, ?_, ?_⟩⟩
    · change (m.source.view e.parser w).2.1.parsedMemo = some p
      rw [Source.view_parsedMemo, Source.parse_of_parsedMemo hmemo]
      exact hmemo
    · exact .parses hparses hothers
  -- what was corrected or lost was found by them, too
  | revise hc hs hch hv =>
    obtain ⟨-, -, -, hothers⟩ := h.correcting hs
    refine ⟨hgrounded, fun i hi => ?_, fun hs => (by cases hs), fun hs => (by cases hs)⟩
    rcases List.mem_append.mp hi with hi | hi
    · rcases List.mem_append.mp hi with hi | hi
      · exact h.others i (List.mem_append_left _ hi)
      · obtain ⟨j, hj, -, rfl⟩ := hv.corrected_origin i hi
        exact (hothers j hj).withStatus .corrected
    · obtain ⟨j, hj, -, rfl⟩ := hv.conflict_origin i hi
      exact (hothers j hj).withStatus .conflict
  | reparse hc hs p hp =>
    exact ⟨hgrounded, h.others, fun hs => (by cases hs), fun hs => (by cases hs)⟩

/-- What is known of the text in a turn is what the parser said of it. -/
theorem Gate.gives {m : Machine} (h : Gate e c m) {w : World σ} {p : Parsed}
    (hp : e.outcome (m, w) = .ok p) : e.parser.Gives m.source.text p := by
  -- known or asked for now, the outcome is what the parser gave in some memory
  obtain ⟨memory, hanswer⟩ := h.grounded.parsed.parse_fst w
  unfold outcome at hp
  rw [hanswer] at hp
  cases htree : (e.parser m.source.text memory).answer with
  | error f =>
    rw [htree] at hp
    cases hp
  | ok tree =>
    rw [htree] at hp
    cases hp
    exact ⟨memory, tree, htree, rfl⟩

/-- **A turn in which another rule is called** finds that the text parses. -/
theorem Gate.parses_of_call (hr : e.parseRule = ⟨Rules.unparsable, c⟩) {m : Machine}
    (h : Gate e c m) (hd : m.stage ≠ .done) {w : World σ} {call : Call}
    (hcall : call ∈ w.since (e.step ac m w).world) (hgated : call.isGated = true) :
    ∃ p, e.outcome (m, w) = .ok p ∧ p.failure = none := by
  rcases step_cases e ac hd w with ⟨-, hstep⟩ | ⟨-, -, hstep⟩ | ⟨-, hs, -⟩ | ⟨-, -, hstep⟩
  · -- a cancelled run makes no call
    have hnone : World.since w w = [] := World.since_eq rfl
    rw [hstep, hnone] at hcall
    cases hcall
  · rw [hstep, analyzeStep_world] at hcall
    exact parses_of_analyze_call hr h.grounded.coherent hcall hgated
  · obtain ⟨p, hmemo, hparses, -⟩ := h.correcting hs
    refine ⟨p, ?_, hparses⟩
    rw [outcome, Source.parse_of_parsedMemo hmemo]
  · -- the parser is called, and nobody else
    have hmade : (e.step ac m w).world.calls = [Call.parse m.source.text].reverse ++ w.calls := by
      rw [hstep, reparseStep_world, Source.reparse_world, World.after_calls]
      rfl
    rw [World.since_eq hmade] at hcall
    rw [List.mem_singleton.mp hcall] at hgated
    cases hgated

theorem Gate.keepsGate (hr : e.parseRule = ⟨Rules.unparsable, c⟩) {m : Machine}
    (h : Gate e c m) (hd : m.stage ≠ .done) (w : World σ) : KeepsGate e ac (m, w) := by
  intro call hcall hgated
  obtain ⟨made, hmade, hturn, -⟩ := exists_turn_calls e ac h.grounded.coherent hd w
  -- a turn asks about the text it begins with
  have htext : call.text = m.source.text := by
    rw [World.since_eq hmade] at hcall
    exact hturn.about call hcall
  obtain ⟨p, hp, hparses⟩ := h.parses_of_call hr hd hcall hgated
  refine ⟨htext, p, hp, ?_, hparses⟩
  rw [htext]
  exact h.gives hp

/-! ### The parse rule of a list of rules -/

/-- The library's rule, in any configuration, is the only one in the list that bears the name of
the parse rule, if any does. -/
structure SoleParseRule (rules : List (Rule σ)) : Prop where
  kind : ∀ r ∈ rules, r.fullName = Rules.parseRuleName → r.kind = Rules.unparsable
  single : rules.countP (·.fullName == Rules.parseRuleName) ≤ 1

/-- Without its first entry with some property, a list that had one at most has none. -/
theorem eraseP_not_of_countP_le_one {α : Type} {p : α → Bool} {xs : List α}
    (h : xs.countP p ≤ 1) : ∀ x ∈ xs.eraseP p, p x = false := by
  induction xs with
  | nil => exact fun x hx => absurd hx List.not_mem_nil
  | cons y ys ih =>
    intro x hx
    by_cases hy : p y = true
    · -- the entry that goes is the only one
      rw [List.countP_cons_of_pos hy] at h
      rw [List.eraseP_cons_of_pos hy] at hx
      have hnone : ys.countP p = 0 := by omega
      exact Bool.eq_false_iff.mpr (List.countP_eq_zero.mp hnone x hx)
    · rw [List.countP_cons_of_neg hy] at h
      rw [List.eraseP_cons_of_neg hy] at hx
      rcases List.mem_cons.mp hx with rfl | hx
      · exact Bool.eq_false_iff.mpr hy
      · exact ih h x hx

/-- **The parse rule is taken out**, or added if there is none. -/
theorem SoleParseRule.taken {rules : List (Rule σ)} (h : SoleParseRule rules) :
    (∃ c, (takeParseRule rules).1 = ⟨Rules.unparsable, c⟩) ∧
      ∀ r ∈ (takeParseRule rules).2, r.fullName ≠ Rules.parseRuleName := by
  unfold takeParseRule
  split
  · next r hfind =>
    have hname := List.find?_some hfind
    rw [beq_iff_eq] at hname
    have hkind := h.kind r (List.mem_of_find?_eq_some hfind) hname
    refine ⟨⟨r.config, ?_⟩, fun q hq => ?_⟩
    · rw [← hkind]
    · -- the only rule of that name is gone
      exact beq_eq_false_iff_ne.mp (eraseP_not_of_countP_le_one h.single q hq)
  · next hfind =>
    refine ⟨⟨_, rfl⟩, fun q hq hname => ?_⟩
    exact List.find?_eq_none.mp hfind q hq (beq_iff_eq.mpr hname)

theorem SoleParseRule.of_ofRules {rules : List (Rule σ)} (h : SoleParseRule rules)
    {parser : Parser σ} {cwd : String} {budget : Int}
    (he : ofRules rules parser cwd budget = .ok e) :
    (∃ c, e.parseRule = ⟨Rules.unparsable, c⟩) ∧
      ∀ r ∈ e.rules, r.fullName ≠ Rules.parseRuleName := by
  unfold ofRules at he
  split at he
  · cases he
  · cases he
    exact h.taken

theorem parser_of_ofRules {rules : List (Rule σ)} {parser : Parser σ} {cwd : String} {budget : Int}
    (he : ofRules rules parser cwd budget = .ok e) : e.parser = parser := by
  unfold ofRules at he
  split at he
  · cases he
  · cases he
    rfl

/-! ### Reports -/

theorem issues_of_listed {converged : Bool} {q : Pass} {i : Issue}
    (h : [i] = listed converged q) (hi : i.status = .reported) : q.issues = [i] := by
  unfold listed at h
  split at h
  · exact h.symm
  · -- an issue that is left over is not reported
    obtain ⟨k, hk, hmark⟩ := List.map_eq_singleton_iff.mp h.symm
    split at hmark
    · rw [← hmark] at hi
      cases hi
    · rw [hk, hmark]

/-- **How a loop through the gate ends**, if it is neither aborted nor given up: the last pass was
made on the final text, and the report goes with the outcome of parsing it. -/
theorem Gate.report {s : Source} {past : List (Machine × World σ)} {m : Machine} (h : Gate e c m)
    (ht : Tracked e s past m) (hst : Standing e past m) (hd : m.stage = .done) (ha : m.aborted = false) :
    ∃ p last, m.source.parsedMemo = some p ∧ (e.passesOf past).getLast? = some last ∧
      last.text = m.source.text ∧
      match p.failure with
      | none => ∀ i ∈ finalIssues m, e.FromOthers i
      | some f => ∃ i others, (finalIssues m).Perm (i :: others) ∧ i.Tells f ∧
          last.issues = [i] ∧ ∀ j ∈ others, e.FromOthers j := by
  obtain ⟨p, hmemo, hlists⟩ := h.finished hd ha
  cases hst with
  | ahead _ haborted =>
    rw [haborted hd] at ha
    cases ha
  | looked last hl _ _ htext hcur hissues _ =>
    refine ⟨p, last, hmemo, hl, htext, ?_⟩
    -- the list is made up of corrected issues, of conflicts and of what the last pass found
    have hperm := perm_of_looked ht hcur
    rw [← ht.corrected, ← ht.conflicts] at hperm
    have hrest : ∀ j ∈ m.corrected ++ m.conflicts.filter
        (fun k => !redetected (latestEdits (e.roundsOf past)) m.issues k), e.FromOthers j := by
      intro j hj
      refine h.others j ?_
      rcases List.mem_append.mp hj with hj | hj
      · exact List.mem_append_left _ hj
      · exact List.mem_append_right _ (List.mem_filter.mp hj).1
    generalize hk : m.issues = issues at hlists hissues hperm
    cases hlists with
    -- no failure: all three parts of the list are of the other rules
    | parses hp hi =>
      rw [hp]
      intro j hj
      rcases List.mem_append.mp (hperm.mem_iff.mp hj) with hj | hj
      · rw [hk] at hrest
        exact hrest j hj
      · exact hi j hj
    -- a failure: the last pass found its issue and nothing else
    | fails f hp =>
      rw [hp]
      have htells := Rules.Unparsable.tells_issueFor c
        (View.ofText m.source.path m.source.text (.ok p)) f
      rw [hk] at hrest
      exact ⟨_, _, hperm.trans List.perm_append_comm, htells,
        issues_of_listed hissues htells.status, hrest⟩

/-- **A loop through the gate**, whatever disturbs it: all turns keep to the gate, and unless the
source is given up, what is known at the end agrees with what happened. -/
theorem Loops.gate (hr : e.parseRule = ⟨Rules.unparsable, c⟩) {s : Source} (hs : s.Coherent)
    (hp : s.ParsedBy e.parser) {w : World σ} {states : List (Machine × World σ)} {t : Turn σ}
    (h : e.Loops ac (start ac s) w states t) :
    (∀ u ∈ states, KeepsGate e ac u) ∧
      (t.fault = none → t.machine.stage = .done ∧ Gate e c t.machine) := by
  have hstep : ∀ past m w, Gate e c m ∧ (∀ u ∈ past, KeepsGate e ac u) → m.stage ≠ .done →
      (e.step ac m w).fault = none →
      Gate e c (e.step ac m w).machine ∧ ∀ u ∈ past ++ [(m, w)], KeepsGate e ac u := by
    rintro past m w ⟨hgate, hpast⟩ hd hf
    refine ⟨hgate.step hr (moves_step hd hf), fun u hu => ?_⟩
    rcases List.mem_append.mp hu with hu | hu
    · exact hpast u hu
    · rw [List.mem_singleton.mp hu]
      exact hgate.keepsGate hr hd w
  rcases h.cases hstep ⟨Gate.initial hs hp, fun u hu => absurd hu List.not_mem_nil⟩ with
    ⟨⟨hgate, hkeeps⟩, hdone, -⟩ | ⟨past, m, w', f, ⟨hgate, hkeeps⟩, hd, hfault, rfl, rfl⟩
  · exact ⟨hkeeps, fun _ => ⟨hdone, hgate⟩⟩
  · -- the turn that gives up the source keeps to the gate, too
    refine ⟨fun u hu => ?_, fun hf => ?_⟩
    · rcases List.mem_append.mp hu with hu | hu
      · exact hkeeps u hu
      · rw [List.mem_singleton.mp hu]
        exact hgate.keepsGate hr hd w'
    · rw [hf] at hfault
      cases hfault

/-- **The parse rule and the others.** Let the library's rule, in any configuration, be the only one
in the list with the name of the parse rule, if any has it. Then for any parser, whatever the other
rules do and whatever disturbs the run of a source:

* a rule of another name is asked for findings, and any rule for a correction, only about a text
  that the parser has accepted;
* if the source is not given up and its run is not aborted, the last pass was made on the final
  text. If the parser accepts this text, then all issues of the report were found by the other rules
  in texts that it accepted. If not, there is besides such issues exactly one, it tells the failure,
  and it is all that the last pass found. So, if the other rules hand over nothing under the name
  of the parse rule, the report lists one issue with this name, or none (otherwise see
  `handed_parse_name`).

The run that `Engine.process` makes is one of those spoken of. -/
theorem parse_gate {rules : List (Rule σ)} (hrules : SoleParseRule rules) {parser : Parser σ}
    {cwd : String} {budget : Int} (he : ofRules rules parser cwd budget = .ok e) (ac : Bool)
    {s : Source} (hs : s.Coherent) (hp : s.ParsedBy parser) (w : World σ) :
    (∀ r ∈ e.rules, r.fullName ≠ Rules.parseRuleName) ∧
    e.Loops ac (start ac s) w (e.turns ac (start ac s) w) (e.finish ac (start ac s) w) ∧
    (e.process ac s w).1 = e.reportAfter (e.finish ac (start ac s) w) ∧
    ∀ states t, e.Loops ac (start ac s) w states t →
      (∀ u ∈ states, KeepsGate e ac u) ∧
      (t.fault = none → (e.reportAfter t).aborted = false →
        ∃ p last, parser.Gives (e.reportAfter t).source.text p ∧
          (e.passesOf states).getLast? = some last ∧
          last.text = (e.reportAfter t).source.text ∧
          ((∀ r ∈ e.rules, r.Avoids Rules.parseRuleName) →
            (e.reportAfter t).issues.countP (·.rule == Rules.parseRuleName)
              = if p.failure.isSome then 1 else 0) ∧
          match p.failure with
          | none => ∀ i ∈ (e.reportAfter t).issues, e.FromOthers i
          | some f => ∃ i others, (e.reportAfter t).issues.Perm (i :: others) ∧ i.Tells f ∧
              last.issues = [i] ∧ ∀ j ∈ others, e.FromOthers j) := by
  obtain ⟨⟨c, hr⟩, hnames⟩ := hrules.of_ofRules he
  obtain rfl : e.parser = parser := parser_of_ofRules he
  refine ⟨hnames, loops_finish e ac _ w, process_fst e ac s w, fun states t hloops => ?_⟩
  obtain ⟨hkeeps, hends⟩ := hloops.gate hr hs hp
  refine ⟨hkeeps, fun hf haborted => ?_⟩
  obtain ⟨hdone, hgate⟩ := hends hf
  obtain ⟨htracked, hstanding⟩ := hloops.history hs hf
  have hreport : e.reportAfter t = reportOf t.machine := by rw [reportAfter, hf]
  rw [hreport] at haborted ⊢
  obtain ⟨p, last, hmemo, hl, htext, hissues⟩ :=
    hgate.report htracked hstanding hdone haborted
  -- what the other rules find does not bear the name, if they avoid it
  have hnone : ∀ issues : List Issue, (∀ r ∈ e.rules, r.Avoids Rules.parseRuleName) →
      (∀ i ∈ issues, e.FromOthers i) → issues.countP (·.rule == Rules.parseRuleName) = 0 := by
    intro issues havoids hall
    refine List.countP_eq_zero.mpr fun i hi heq => ?_
    exact (hall i hi).rule_ne havoids (beq_iff_eq.mp heq)
  refine ⟨p, last, hgate.grounded.parsed p hmemo, hl, htext, fun havoids => ?_, hissues⟩
  cases hfail : p.failure with
  | none =>
    rw [hfail] at hissues
    exact hnone _ havoids hissues
  | some f =>
    rw [hfail] at hissues
    obtain ⟨i, others, hperm, htells, -, hothers⟩ := hissues
    have hi : (i.rule == Rules.parseRuleName) = true := beq_iff_eq.mpr htells.rule
    calc (reportOf t.machine).issues.countP (·.rule == Rules.parseRuleName)
        = (i :: others).countP (·.rule == Rules.parseRuleName) := hperm.countP_eq _
      _ = others.countP (·.rule == Rules.parseRuleName) + 1 := List.countP_cons_of_pos hi
      _ = 1 := by rw [hnone others havoids hothers]

/-! ### A specimen

A correction that breaks the text, next to a parse rule that somebody tried to switch off. -/

/-- The letter a is replaced by b, the letter b is reported, and the parse rule is disabled. -/
def breakingRules : List (Rule Tally) :=
  [wordRule 0 "ReplaceA" "a" (some "b"), ⟨Rules.unparsable, { enabled := false }⟩,
    wordRule 1 "ReportB" "b" none]

/-- The parser that does not accept the text b. -/
def breakingParser : Parser Tally :=
  Scripted.Table.parser
    ⟨[("b", some (⟨"program", 0, 1, true, false, none,
      [⟨"ERROR", 0, 1, true, false, none, []⟩]⟩, true))], .flat, none⟩

def breaking : Engine Tally where
  rules := [wordRule 0 "ReplaceA" "a" (some "b"), wordRule 1 "ReportB" "b" none]
  parseRule := ⟨Rules.unparsable, { enabled := false }⟩
  parser := breakingParser
  cwd := "/work"

theorem breakingRules_sole : SoleParseRule breakingRules where
  kind := by
    intro r hr hname
    simp only [breakingRules, List.mem_cons, List.not_mem_nil, or_false] at hr
    -- Of the three rules only the second has the name.
    rcases hr with rfl | rfl | rfl
    · exact absurd hname (by decide)
    · rfl
    · exact absurd hname (by decide)
  single := by decide

theorem wordRule_signs (id : Nat) (name word : String) (replacement : Option String) :
    (wordRule id name word replacement).Signs := by
  rintro v i ⟨memory, found, hans, hi⟩
  cases hans
  obtain ⟨range, -, rfl⟩ := List.mem_map.mp hi
  rfl

/-- The text that a correction broke is reported once, though it still has the letter that another
rule looks for. -/
theorem breaking_gate :
    ofRules breakingRules breakingParser "/work" = .ok breaking ∧
      (breaking.process true (Source.ofText "a") ⟨{}, false, []⟩).1.source.text = "b" ∧
      (breaking.process true (Source.ofText "a") ⟨{}, false, []⟩).1.issues.countP
        (·.rule == Rules.parseRuleName) = 1 := by
  have htext : (breaking.process true (Source.ofText "a") ⟨{}, false, []⟩).1.source.text = "b" := by
    decide +kernel
  have hfault : (breaking.finish true (start true (Source.ofText "a")) ⟨{}, false, []⟩).fault
      = none := by decide +kernel
  have haborted :
      (breaking.process true (Source.ofText "a") ⟨{}, false, []⟩).1.aborted = false := by
    decide +kernel
  -- both rules sign what they find with their own names
  have havoids : ∀ r ∈ breaking.rules, r.Avoids Rules.parseRuleName := by
    intro r hr
    simp only [breaking, List.mem_cons, List.not_mem_nil, or_false] at hr
    rcases hr with rfl | rfl
    · exact (wordRule_signs _ _ _ _).avoids (by decide)
    · exact (wordRule_signs _ _ _ _).avoids (by decide)
  obtain ⟨-, hloops, hprocess, hall⟩ := parse_gate (e := breaking) breakingRules_sole rfl true
    (Source.coherent_ofText "a" none) (Source.parsedBy_ofText breakingParser "a" none)
    ⟨{}, false, []⟩
  obtain ⟨-, hends⟩ := hall _ _ hloops
  rw [← hprocess] at hends
  obtain ⟨p, last, ⟨memory, tree, htree, hp⟩, -, -, hcount, -⟩ := hends hfault haborted
  refine ⟨rfl, htext, ?_⟩
  -- the parser accepts neither this text nor says anything else about it later
  have hfail : p.failure.isSome = true := by
    rw [htext] at htree
    cases htree
    rw [hp]
    decide
  rw [hcount havoids, if_pos hfail]

/-- **A rule may put the name of the parse rule on what it finds.** Then a text that parses has an
issue with this name. -/
theorem handed_parse_name :
    SoleParseRule [handingRule fun i => [{ i with rule := Rules.parseRuleName }]] ∧
      ofRules [handingRule fun i => [{ i with rule := Rules.parseRuleName }]]
          Scripted.flatParser "/work"
        = .ok (handing fun i => [{ i with rule := Rules.parseRuleName }]) ∧
      (Parsed.ofTree (some (Scripted.flatTree "a"))).failure = none ∧
      ((handing fun i => [{ i with rule := Rules.parseRuleName }]).finish false
        (start false (Source.ofText "a")) ⟨{}, false, []⟩).fault = none ∧
      ((handing fun i => [{ i with rule := Rules.parseRuleName }]).process false
        (Source.ofText "a") ⟨{}, false, []⟩).1.aborted = false ∧
      ((handing fun i => [{ i with rule := Rules.parseRuleName }]).process false
        (Source.ofText "a") ⟨{}, false, []⟩).1.issues.countP (·.rule == Rules.parseRuleName)
          = 1 := by
  refine ⟨⟨fun r hr hname => ?_, by decide⟩, rfl, by decide +kernel, by decide +kernel,
    by decide +kernel, by decide +kernel⟩
  -- the rule itself has another name
  rw [List.mem_singleton.mp hr] at hname
  exact absurd hname (by decide)

end Engine

end Lintel
