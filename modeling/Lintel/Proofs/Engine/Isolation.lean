import Lintel.Proofs.Edit.Splice
import Lintel.Proofs.Engine.Freshness

/-!
# Isolation of rules that fail

A rule may fail when it is asked for findings, and it may fail or propose nonsense when it is asked
for a correction. Both are put on record, and the run goes on without that answer. A source is
meant to be given up, with a report that holds a diagnostic of the phase `parse` and nothing else,
only when the parser fails.

That is not quite so. If the parser answers for every text, a source is still given up in two cases
(`Spoils`), and in no other (`parse_diagnostic_iff`):

* the edits that were accepted in a turn make octets that are not text; by `Spoils.exists_cut`, one
  of them begins or ends inside a character, which the bounds check does not notice;
* the text does not parse, and the rule that is to say so fails or gives no list. The rule that
  comes with the library never does (`not_spoils_analyzing`).

In all other cases nothing is lost: whatever a rule found in the final text is listed in the report
(`Retained`), though the status may have changed.
-/

namespace Lintel

def Parser.Answers {σ : Type} (parser : Parser σ) : Prop :=
  ∀ text memory, ∃ tree, (parser text memory).answer = .ok tree

theorem Parser.Answers.reparse {σ : Type} {parser : Parser σ} (h : parser.Answers) (s : Source)
    (w : World σ) : ∃ p, (s.reparse parser w).1 = .ok p := by
  obtain ⟨tree, htree⟩ := h s.text w.memory
  exact ⟨Parsed.ofTree tree, by rw [Source.reparse_fst, htree]; rfl⟩

theorem Parser.Answers.parse {σ : Type} {parser : Parser σ} (h : parser.Answers) (s : Source)
    (w : World σ) : ∃ p, (s.parse parser w).1 = .ok p := by
  rw [Source.parse_eq]
  split
  · next p hp => exact ⟨p, rfl⟩
  · exact h.reparse s w

namespace Engine

variable {σ : Type} {e : Engine σ} {ac : Bool}

/-! ### The turns that give up a source -/

/-- The edits that the turn from a state goes on to apply. -/
def editsFrom (e : Engine σ) (m : Machine) (w : World σ) : List Edit :=
  Correction.chosen e.correctors (m.source.view e.parser w).1 m.issues
    (m.source.view e.parser w).2.2

/-- **How a turn gives up a source** though the parser answers. -/
inductive Spoils (e : Engine σ) (m : Machine) (w : World σ) : Prop where
  /-- The accepted edits make octets that are not text. -/
  | edits (hs : m.stage = .correcting)
      (ht : ¬ Utf8.IsText (applyEdits (Utf8.ofString m.source.text) (e.editsFrom m w)))
  /-- The text does not parse, and the parse rule fails or gives no list. -/
  | parseRule (hs : m.stage = .analyzing) (p : Parsed)
      (hp : (m.source.view e.parser w).1.parsed = .ok p) (hv : p.isValid = false)
      (hf : ∀ found, (e.parseRule.detect (m.source.view e.parser w).1
        (m.source.view e.parser w).2.2.memory).answer ≠ .ok (some found))

theorem analyzeStep_fault (m : Machine) (w : World σ) :
    (∃ f, (e.analyzeStep ac m w).fault = some f) ↔ ∃ f, (e.analyze m.source w).1 = .error f := by
  unfold analyzeStep
  split
  · next heq => simp [heq]
  · next heq => simp [heq]

theorem correctStep_fault (m : Machine) (w : World σ) :
    (e.correctStep m w).fault = (e.correction m w).fault := by
  unfold correctStep
  simp only
  split
  · next h => exact h.symm
  · next h => exact h.symm

theorem reparseStep_fault (h : e.parser.Answers) (m : Machine) (w : World σ) :
    (e.reparseStep m w).fault = none := by
  obtain ⟨p, hp⟩ := h.reparse m.source w
  unfold reparseStep
  split
  · next heq =>
    rw [heq] at hp
    cases hp
  · rfl

theorem analyzeBroken_fault (v : View) (w : World σ) :
    (∃ f, (e.analyzeBroken v w).1 = .error f) ↔
      ∀ found, (e.parseRule.detect v w.memory).answer ≠ .ok (some found) := by
  unfold analyzeBroken
  simp only
  split
  · next h => simp [h]
  · next h => simp [h]
  · next h => simp [h]

/-- A pass fails exactly if the text does not parse and the parse rule does not say so. -/
theorem analyze_fault (h : e.parser.Answers) {s : Source} (hs : s.Coherent) (w : World σ) :
    (∃ f, (e.analyze s w).1 = .error f) ↔
      ∃ p, (s.view e.parser w).1.parsed = .ok p ∧ p.isValid = false ∧
        ∀ found, (e.parseRule.detect (s.view e.parser w).1
          (s.view e.parser w).2.2.memory).answer ≠ .ok (some found) := by
  -- the parser answers, so only the parse rule can fail
  obtain ⟨p, hp⟩ := h.parse s w
  have hparsed : (s.view e.parser w).1.parsed = .ok p := by
    rw [Source.view_fst hs, View.ofText_parsed, hp]
  rw [← analyzeBroken_fault]
  unfold analyze
  simp only
  rw [hparsed]
  simp only [Except.ok.injEq, exists_eq_left']
  split
  · next hv => simp [hv]
  · next hv => simp [hv]

/-- **A turn gives up the source** in one of the two ways, and in no other. -/
theorem step_fault_iff (h : e.parser.Answers) {m : Machine} (hm : m.source.Coherent)
    (hd : m.stage ≠ .done) (w : World σ) :
    (∃ f, (e.step ac m w).fault = some f) ↔ w.cancelled = false ∧ Spoils e m w := by
  rcases step_cases e ac hd w with ⟨hc, hstep⟩ | ⟨hc, hs, hstep⟩ | ⟨hc, hs, hstep⟩ | ⟨hc, hs, hstep⟩
  · rw [hstep, hc]
    simp
  · rw [hstep, analyzeStep_fault, analyze_fault h hm, and_iff_right hc]
    constructor
    · rintro ⟨p, hp, hv, hf⟩
      exact .parseRule hs p hp hv hf
    · rintro (⟨hs', -⟩ | ⟨-, p, hp, hv, hf⟩)
      · rw [hs] at hs'
        cases hs'
      · exact ⟨p, hp, hv, hf⟩
  · -- the octets of a text are text, so the edits are to blame
    have hbytes : (m.source.view e.parser w).1.bytes = Utf8.ofString m.source.text := by
      rw [Source.view_fst hm, View.ofText_bytes]
    have htext : Utf8.IsText (m.source.view e.parser w).1.bytes := by
      rw [hbytes]
      exact Utf8.isText_ofString _
    rw [hstep, correctStep_fault, correction, Correction.apply_fault_iff _ _ _ _ _ htext, hbytes,
      and_iff_right hc]
    constructor
    · exact fun ht => .edits hs ht
    · rintro (⟨-, ht⟩ | ⟨hs', -⟩)
      · exact ht
      · rw [hs] at hs'
        cases hs'
  · -- the parser always answers, so parsing does not fail
    rw [hstep, reparseStep_fault h, and_iff_right hc]
    constructor
    · rintro ⟨f, hf⟩
      cases hf
    · rintro (⟨hs', -⟩ | ⟨hs', -⟩)
      · rw [hs] at hs'
        cases hs'
      · rw [hs] at hs'
        cases hs'

/-- **Edits that are not text when applied cut a character.** -/
theorem Spoils.exists_cut {m : Machine} {w : World σ} (h : Spoils e m w)
    (hs : m.stage = .correcting) :
    ∃ edit ∈ e.editsFrom m w, edit.Cuts (Utf8.ofString m.source.text) := by
  rcases h with ⟨-, ht⟩ | ⟨hs', -⟩
  · refine Classical.byContradiction fun hnone => ?_
    -- Edits between characters keep a text a text, so one of them has to cut.
    refine ht (isText_applyEdits (Utf8.isText_ofString _) ?_ fun edit hedit => ?_)
    · exact Correction.chosen_separated _ _ _ _
    · exact Classical.byContradiction fun hcut => hnone ⟨edit, hedit, hcut⟩
  · rw [hs] at hs'
    cases hs'

/-- The parse rule that comes with the library says what is wrong whenever the parser answers. -/
theorem not_spoils_analyzing {config : RuleConfig} (hr : e.parseRule = ⟨Rules.unparsable, config⟩)
    {m : Machine} {w : World σ} (hs : m.stage = .analyzing) : ¬ Spoils e m w := by
  rintro (⟨hs', -⟩ | ⟨-, p, hp, -, hf⟩)
  · rw [hs] at hs'
    cases hs'
  · -- it answers from the outcome of parsing, which is there
    refine hf (Rules.Unparsable.find config (m.source.view e.parser w).1 p) ?_
    rw [hr]
    change ((m.source.view e.parser w).1.parsed.map _) = _
    rw [hp]
    rfl

/-! ### What is put on record -/

/-- While the loop goes on, only rules are on record, never the parser. -/
def OnlyRules (m : Machine) : Prop :=
  ∀ d ∈ m.diagnostics, d.phase ≠ .parse

theorem OnlyRules.append {ds : List Diagnostic} {m m' : Machine} (h : OnlyRules m)
    (heq : m'.diagnostics = m.diagnostics ++ ds) (hds : ∀ d ∈ ds, d.phase ≠ .parse) :
    OnlyRules m' := by
  intro d hd
  rw [heq] at hd
  rcases List.mem_append.mp hd with hd | hd
  · exact h d hd
  · exact hds d hd

theorem OnlyRules.step {m m' : Machine} {w w' : World σ} (h : OnlyRules m)
    (hm : Moves e ac m w m' w') : OnlyRules m' := by
  -- Diagnostics are added by an analysis, in the phase of detection, and by a correction.
  have hanalysis : ∀ {a : Analysis}, (e.analyze m.source w).1 = .ok a →
      ∀ d ∈ a.diagnostics, d.phase ≠ .parse := by
    intro a ha d hd
    rw [analyze_phase ha hd]
    decide
  have hcorrection : ∀ d ∈ (e.correction m w).diagnostics, d.phase ≠ .parse := by
    intro d hd
    rw [correction, Correction.apply_diagnostics] at hd
    rw [Correction.gatherFrom_phase hd]
    decide
  cases hm with
  | abort hc => exact h
  | settle hc hs a ha hp => exact h.append rfl (hanalysis ha)
  | exhaust hc hs a ha hac hp hb => exact h.append rfl (hanalysis ha)
  | proceed hc hs a ha hac hp hb => exact h.append rfl (hanalysis ha)
  | rest hc hs hn => exact h.append rfl hcorrection
  | revise hc hs hch hr => exact h.append rfl hcorrection
  | reparse hc hs p hp => exact h

/-! ### What rules found stays -/

/-- **What a rule found in the current version of the text is among the issues**, up to its
status. It can have found something only if the machine has looked at the text. -/
def Retained (e : Engine σ) (ac : Bool) (past : List (Machine × World σ)) (m : Machine) : Prop :=
  ∀ name text found, (m.iterations, Call.detect name text found) ∈ e.logOf ac past →
    m.stage ≠ .analyzing ∧ m.stage ≠ .reparsing ∧ m.current = true ∧
      ∀ j ∈ found, ∃ i ∈ m.issues, i = j.withStatus i.status

theorem exists_mem_markUnresolved {issues : List Issue} {i : Issue} (h : i ∈ issues) :
    ∃ k ∈ markUnresolved issues, k = i ∨ k = i.withStatus .unresolved := by
  refine ⟨_, List.mem_map_of_mem h, ?_⟩
  split
  · exact .inr rfl
  · exact .inl rfl

/-- A completed pass retains what was handed over in its calls. -/
theorem Recorded.retains {v : View} {issues listed : List Issue} {made : List Call}
    (h : Recorded e.correctors v issues made)
    (hl : listed = issues ∨ listed = markUnresolved issues) {name text : String}
    {found : List Issue} (hcall : Call.detect name text found ∈ made) :
    ∀ j ∈ found, ∃ i ∈ listed, i = j.withStatus i.status := by
  intro j hj
  obtain ⟨k, hk, hkj⟩ := h.complete name text found hcall j hj
  rcases hl with rfl | rfl
  · exact ⟨k, hk, hkj.eq_withStatus⟩
  · obtain ⟨i, hi, hik⟩ := exists_mem_markUnresolved hk
    exact ⟨i, hi, eq_withStatus_of_left hik hkj⟩

/-- The calls of a turn that adds nothing to the histories ask for no findings: only a turn that
analyzes does, and from there the run has been cancelled. -/
theorem not_detect_of_passing {m m' : Machine} {w : World σ} {made : List Call}
    (hcalls : (e.step ac m w).world.calls = made.reverse ++ w.calls) (hturn : TurnCalls m made)
    (hd : m.stage ≠ .done) (hs : Passing m w m') (name text : String) (found : List Issue) :
    Call.detect name text found ∉ made := by
  intro hc
  have hanalyzing := hturn.detected name text found hc
  cases hs with
  -- cancelled before the turn: no call was made at all
  | abort hcancelled hs ha =>
    rw [step_of_cancelled hd hcancelled] at hcalls
    have hnone := List.append_left_eq_self.mp hcalls.symm
    rw [List.reverse_eq_nil_iff.mp hnone] at hc
    cases hc
  | rest hs hs' =>
    rw [hanalyzing] at hs
    cases hs
  | reparse hs hs' =>
    rw [hanalyzing] at hs
    cases hs

/-- **A turn retains what was found.** -/
theorem Retained.step {s : Source} {past : List (Machine × World σ)} {m m' : Machine}
    {w : World σ} (h : Retained e ac past m) (ht : Tracked e s past m)
    (hlog : Logged e ac s past) (hd : m.stage ≠ .done) (hf : Effect e m w m') :
    Retained e ac (past ++ [(m, w)]) m' := by
  obtain ⟨made, hcalls, hturn, hpass⟩ := exists_turn_calls e ac ht.coherent hd w
  intro name text found hmem
  -- the call is one of those behind, or one of this turn
  rw [logOf_snoc, logFrom, World.since_eq hcalls, List.mem_append, List.mem_map] at hmem
  cases hf with
  | idle hp hr hk hs =>
    rw [hk.iterations] at hmem
    rcases hmem with hmem | ⟨c, hc, heq⟩
    · -- a call of an earlier turn: its issues are kept, and the loop is over or has looked
      obtain ⟨hne, hne', hcur, hfound⟩ := h name text found hmem
      have hdone : m'.stage = .done := by
        cases hs with
        | abort hc hs ha => exact hs
        | rest hs hs' => exact hs'
        | reparse hs hs' => exact absurd hs hne'
      rw [hdone, hk.issues]
      exact ⟨by decide, by decide, hk.current.trans hcur, hfound⟩
    · injection heq with _ heq
      subst heq
      exact absurd hc (not_detect_of_passing hcalls hturn hd hs name text found)
  | look a ha hs hp hr hm =>
    obtain ⟨stage, issues, converged, rfl, hcases⟩ := hm
    rcases hmem with hmem | ⟨c, hc, heq⟩
    · -- nothing was found in this version of the text before this turn
      exact absurd hs (h name text found hmem).1
    · injection heq with _ heq
      subst heq
      obtain ⟨-, -, parsed, hrec⟩ := hpass _ hp
      have hstage : stage = .done ∨ stage = .correcting := by
        rcases hcases with ⟨hstage, -⟩ | ⟨hstage, -⟩
        · exact hstage
        · exact .inl hstage
      -- pending or left over, every finding of the pass is listed
      have hlisted : issues = a.issues ∨ issues = markUnresolved a.issues := by
        rcases hcases with ⟨-, hi, -⟩ | ⟨-, hi, -⟩
        · exact .inl hi
        · exact .inr hi
      refine ⟨?_, ?_, rfl, hrec.retains hlisted hc⟩
      · rcases hstage with rfl | rfl <;> exact fun h => by cases h
      · rcases hstage with rfl | rfl <;> exact fun h => by cases h
  | revise hs hp hr hv hm =>
    -- no call is stamped with the version that this turn makes
    subst hm
    exfalso
    change (m.iterations + 1, _) ∈ _ ∨ _ at hmem
    rcases hmem with hmem | ⟨c, -, heq⟩
    · have hle := (hlog.about _ _ hmem).1
      rw [← ht.iterations] at hle
      omega
    · injection heq with hn _
      change m.iterations = m.iterations + 1 at hn
      omega

/-! ### Reports -/

/-- What holds along a run: no turn behind has spoiled the source, only rules are on record, and
what rules found stays. -/
structure Unspoiled (e : Engine σ) (ac : Bool) (s : Source) (past : List (Machine × World σ))
    (m : Machine) : Prop where
  tracked : Tracked e s past m
  standing : Standing e past m
  logged : Logged e ac s past
  behind : ∀ t ∈ past, ¬ (t.2.cancelled = false ∧ Spoils e t.1 t.2)
  onlyRules : OnlyRules m
  retained : Retained e ac past m

theorem Unspoiled.initial {s : Source} (hs : s.Coherent) : Unspoiled e ac s [] (start ac s) where
  tracked := Tracked.initial hs
  standing := Standing.initial s
  logged := Logged.initial s
  behind _ ht := absurd ht List.not_mem_nil
  onlyRules _ hd := absurd hd List.not_mem_nil
  retained _ _ _ h := absurd h List.not_mem_nil

theorem Unspoiled.step (he : e.parser.Answers) {s : Source} {past : List (Machine × World σ)}
    {m : Machine} {w : World σ} (h : Unspoiled e ac s past m) (hd : m.stage ≠ .done)
    (hf : (e.step ac m w).fault = none) :
    Unspoiled e ac s (past ++ [(m, w)]) (e.step ac m w).machine := by
  have hmoves := moves_step hd hf
  refine ⟨h.tracked.step hmoves.effect, h.standing.step hd hmoves.effect,
    h.logged.step h.tracked h.standing hd, fun t ht => ?_, h.onlyRules.step hmoves,
    h.retained.step h.tracked h.logged hd hmoves.effect⟩
  -- an earlier turn, or this one, which raised no fault
  rcases List.mem_append.mp ht with ht | ht
  · exact h.behind t ht
  · have hiff : (∃ f, (e.step ac m w).fault = some f) ↔ w.cancelled = false ∧ Spoils e m w :=
      step_fault_iff he h.tracked.coherent hd w
    rw [List.mem_singleton.mp ht, ← hiff, hf]
    rintro ⟨f, hf'⟩
    cases hf'

/-- How a run ends if the parser answers: in a state that is not spoiled, or with a turn that spoils
the source. -/
theorem finish_unspoiled (he : e.parser.Answers) (ac : Bool) {s : Source} (hs : s.Coherent)
    (w : World σ) :
    (∃ m w', Unspoiled e ac s (e.turns ac (start ac s) w) m ∧
      e.finish ac (start ac s) w = ⟨m, none, w'⟩) ∨
    (∃ t ∈ e.turns ac (start ac s) w, (t.2.cancelled = false ∧ Spoils e t.1 t.2) ∧
      ∃ f, (e.finish ac (start ac s) w).fault = some f) := by
  rcases finish_cases (fun past m _ => Unspoiled e ac s past m)
    (fun past m w h hd hf => h.step he hd hf) (Unspoiled.initial hs) (w := w) with
    ⟨m, w', h, -, hfin⟩ | ⟨past, m, w', f, h, hd, hf, hfin, hturns⟩
  · exact .inl ⟨m, w', h, hfin⟩
  · refine .inr ⟨(m, w'), ?_, ?_, f, ?_⟩
    · rw [hturns]
      exact List.mem_append_right _ (List.mem_singleton.mpr rfl)
    · -- the turn that raised the fault is the one that spoils the source
      exact (step_fault_iff he h.tracked.coherent hd w').mp ⟨f, hf⟩
    · rw [hfin, hf]

theorem Unspoiled.listed {s : Source} {past : List (Machine × World σ)} {m : Machine}
    (h : Unspoiled e ac s past m) {name text : String} {found : List Issue}
    (hcall : (m.iterations, Call.detect name text found) ∈ e.logOf ac past) :
    ∀ j ∈ found, ∃ i ∈ finalIssues m, i = j.withStatus i.status := by
  intro j hj
  obtain ⟨-, -, hcur, hfound⟩ := h.retained name text found hcall
  obtain ⟨i, hi, hij⟩ := hfound j hj
  refine ⟨i, ?_, hij⟩
  rw [finalIssues, if_pos hcur, byLocation, List.mem_mergeSort]
  exact List.mem_append_right _ hi

/-- **When a source is given up.** If the parser answers for every text, then for all rules and
whenever the run is cancelled: the report has a diagnostic of the phase `parse` exactly if some turn
of the run spoils the source, by edits that make octets that are not text or by a parse rule that
fails; then the report lists no issue and has not converged. Otherwise, every issue that a rule
handed over for the final version of the text is listed, up to its status. -/
theorem parse_diagnostic_iff (e : Engine σ) (ac : Bool) (s : Source) (w : World σ)
    (hs : s.Coherent) (he : e.parser.Answers) :
    ((∃ d ∈ (e.process ac s w).1.diagnostics, d.phase = .parse) ↔
      ∃ t ∈ e.turns ac (start ac s) w, t.2.cancelled = false ∧ Spoils e t.1 t.2) ∧
    ((∃ t ∈ e.turns ac (start ac s) w, t.2.cancelled = false ∧ Spoils e t.1 t.2) →
      (e.process ac s w).1.issues = [] ∧ (e.process ac s w).1.converged = false) ∧
    ((∀ t ∈ e.turns ac (start ac s) w, ¬ (t.2.cancelled = false ∧ Spoils e t.1 t.2)) →
      ∀ name text found,
        ((e.process ac s w).1.iterations, Call.detect name text found) ∈ e.log ac s w →
        ∀ j ∈ found, ∃ i ∈ (e.process ac s w).1.issues, i = j.withStatus i.status) := by
  -- either nothing spoils the source, or the last turn does
  rcases finish_unspoiled he ac hs w with ⟨m, w', h, hfin⟩ | ⟨t, ht, hspoils, f, hf⟩
  · have hnone : ¬ ∃ t ∈ e.turns ac (start ac s) w, t.2.cancelled = false ∧ Spoils e t.1 t.2 :=
      fun ⟨t, ht, hspoils⟩ => h.behind t ht hspoils
    rw [process_of_ok hfin]
    refine ⟨⟨fun ⟨d, hd, hphase⟩ => ?_, fun hsome => absurd hsome hnone⟩,
      fun hsome => absurd hsome hnone, fun _ name text found hcall => h.listed hcall⟩
    exact absurd hphase (h.onlyRules d hd)
  · have hsome : ∃ t ∈ e.turns ac (start ac s) w, t.2.cancelled = false ∧ Spoils e t.1 t.2 :=
      ⟨t, ht, hspoils⟩
    rw [process_of_fault hf]
    refine ⟨⟨fun _ => hsome, fun _ => ?_⟩, fun _ => ⟨rfl, rfl⟩,
      fun hall => absurd hspoils (hall t ht)⟩
    exact ⟨_, List.mem_singleton.mpr rfl, rfl⟩

/-- With the parse rule that comes with the library, a source is given up only if an edit that was
accepted **cuts a character**. -/
theorem exists_cut_of_parse_diagnostic (he : e.parser.Answers) {config : RuleConfig}
    (hr : e.parseRule = ⟨Rules.unparsable, config⟩) {s : Source} (hs : s.Coherent) {w : World σ}
    {d : Diagnostic} (hd : d ∈ (e.process ac s w).1.diagnostics) (hp : d.phase = .parse) :
    ∃ t ∈ e.turns ac (start ac s) w, t.1.stage = .correcting ∧
      ∃ edit ∈ e.editsFrom t.1 t.2, edit.Cuts (Utf8.ofString t.1.source.text) := by
  rcases finish_unspoiled he ac hs w with ⟨m, w', h, hfin⟩ | ⟨t, ht, ⟨-, hspoils⟩, -⟩
  · rw [process_of_ok hfin] at hd
    exact absurd hp (h.onlyRules d hd)
  · -- the parse rule of the library does not fail, so it was an edit
    have hstage : t.1.stage = .correcting := by
      cases hspoils with
      | edits hs' ht' => exact hs'
      | parseRule hs' p hp' hv hf =>
        exact absurd (.parseRule hs' p hp' hv hf) (not_spoils_analyzing hr hs')
    exact ⟨t, ht, hstage, hspoils.exists_cut hstage⟩

/-- An engine with a rule that proposes to take away the second half of the first character. -/
def cutter : Engine Tally where
  rules := [.ofKind <| Scripted.playKind 0
    { name := "Cut", group := "Test", correctable := true, label := "ScriptRule" }
    [some [.find 0 2 "" none (.replace 1 2 "")]]]
  parseRule := .ofKind Rules.unparsable
  parser := Scripted.flatParser
  cwd := "/work"

theorem cutter_answers : cutter.parser.Answers :=
  fun _ _ => ⟨_, rfl⟩

/-- The text holds a character of two octets, and the rule finds an issue over it. -/
theorem cutter_givenUp :
    (cutter.process true (Source.ofText "é") ⟨{}, false, []⟩).1.diagnostics.map (·.phase)
        = [.parse] ∧
      (cutter.process true (Source.ofText "é") ⟨{}, false, []⟩).1.issues = [] ∧
      (cutter.process false (Source.ofText "é") ⟨{}, false, []⟩).1.issues.length = 1 := by
  decide +kernel

theorem cutter_spoils :
    ∃ t ∈ cutter.turns true (start true (Source.ofText "é")) ⟨{}, false, []⟩,
      t.2.cancelled = false ∧ Spoils cutter t.1 t.2 := by
  have hany : (cutter.process true (Source.ofText "é") ⟨{}, false, []⟩).1.diagnostics.any
      (fun d => d.phase == .parse) = true := by decide +kernel
  obtain ⟨d, hd, hphase⟩ := List.any_eq_true.mp hany
  have hiff := parse_diagnostic_iff cutter true (Source.ofText "é") ⟨{}, false, []⟩
    (Source.coherent_ofText _ _) cutter_answers
  exact hiff.1.mp ⟨d, hd, beq_iff_eq.mp hphase⟩

end Engine

end Lintel
