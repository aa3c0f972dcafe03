import Lintel.Proofs.Engine.Accounting
import Lintel.Proofs.Engine.Grounds
import Lintel.Proofs.Engine.Quiet

/-!
# A cancelled run is a beginning of the run

A run that is cancelled stops before its next turn. If what rules and parser answer depends on the
text and the path alone, then it has done until then what the run would have done anyway: a report
is either that of the run without cancellation, or the source was left after some complete rounds
of that run (`cancelled_report`). This holds for every moment at which the run may be cancelled, in
the middle of a call or between two turns, and also for the sources that come after the one at which
it was.

**How.** The two runs are compared turn by turn. Their machines are `Alike`: they differ in nothing
but what their sources keep of the text, which depends on how often the parser was asked. As long as
neither run is cancelled, turns keep them alike and make the same rounds (`Functional.step_alike`);
the run without cancellation is that of the quiet engine (`step_quiet`). Once the flag is up, the
one run ends, and the rounds it has made are the first of the other (`Functional.compare`).
-/

namespace Lintel

variable {σ : Type}

/-! ### Sources with the same text -/

structure Source.Twins (parser : Parser σ) (s t : Source) : Prop where
  text : t.text = s.text
  path : t.path = s.path
  coherent : s.Coherent ∧ t.Coherent
  parsed : s.ParsedBy parser ∧ t.ParsedBy parser

namespace Source.Twins

variable {parser : Parser σ} {s t : Source}

theorem view (h : Twins parser s t) (w w' : World σ) :
    Twins parser (s.view parser w).2.1 (t.view parser w').2.1 where
  text := by rw [view_text, view_text, h.text]
  path := by rw [view_path, view_path, h.path]
  coherent := ⟨h.coherent.1.view parser w, h.coherent.2.view parser w'⟩
  parsed := ⟨h.parsed.1.view w, h.parsed.2.view w'⟩

theorem reparse (h : Twins parser s t) (w w' : World σ) :
    Twins parser (s.reparse parser w).2.1 (t.reparse parser w').2.1 where
  text := by rw [reparse_text, reparse_text, h.text]
  path := by rw [reparse_path, reparse_path, h.path]
  coherent := ⟨h.coherent.1.reparse parser w, h.coherent.2.reparse parser w'⟩
  parsed := ⟨h.parsed.1.reparse w, h.parsed.2.reparse w'⟩

theorem setText (h : Twins parser s t) (text : String) :
    Twins parser (s.setText text) (t.setText text) where
  text := rfl
  path := h.path
  coherent := ⟨coherent_setText s text, coherent_setText t text⟩
  parsed := ⟨parsedBy_setText parser s text, parsedBy_setText parser t text⟩

end Source.Twins

namespace Engine

variable {e : Engine σ} {ac : Bool}

/-! ### Passes of correction in different worlds -/

/-- **What is proposed, and who fails, depends on text and path alone.** -/
theorem Functional.gatherFrom_eq (he : e.Functional) (v : View) (index : Nat)
    (issues : List Issue) (w w' : World σ) :
    (Correction.gatherFrom e.correctors v index issues w').proposals
        = (Correction.gatherFrom e.correctors v index issues w).proposals ∧
      (Correction.gatherFrom e.correctors v index issues w').diagnostics
        = (Correction.gatherFrom e.correctors v index issues w).diagnostics :=
  Correction.gatherFrom_congr (fun _ _ => rfl)
    (fun i _ rule ha => he.correct rule (Correction.mem_of_answerer ha) v i) index w w'

/-- Two passes of correction that differ in source and world only. -/
structure Agree (c c' : Correction σ) : Prop where
  issues : c'.issues = c.issues
  corrected : c'.corrected = c.corrected
  conflicts : c'.conflicts = c.conflicts
  edits : c'.edits = c.edits
  diagnostics : c'.diagnostics = c.diagnostics
  fault : c'.fault = c.fault

theorem Agree.changed {c c' : Correction σ} (h : Agree c c') : c'.changed = c.changed := by
  rw [Correction.changed, Correction.changed, h.corrected]

theorem Agree.issuesAt {c c' : Correction σ} (h : Agree c c') (positions : List Nat) :
    c'.issuesAt positions = c.issuesAt positions := by
  rw [Correction.issuesAt, Correction.issuesAt, h.issues]

/-- Two passes of correction over the same issues agree if the same comes of asking, and both
sources were left alone or were given the same text. -/
theorem apply_agree {rules rules' : List (Rule σ)} {v : View} {issues : List Issue} {w w' : World σ}
    (hproposals : (Correction.gatherFrom rules' v 0 issues w').proposals
      = (Correction.gatherFrom rules v 0 issues w).proposals)
    (hdiagnostics : (Correction.gatherFrom rules' v 0 issues w').diagnostics
      = (Correction.gatherFrom rules v 0 issues w).diagnostics) (s t : Source) :
    Agree (Correction.apply rules s v issues w) (Correction.apply rules' t v issues w') ∧
      ((Correction.apply rules s v issues w).source = s ∧
          (Correction.apply rules' t v issues w').source = t ∨
        ∃ text, (Correction.apply rules s v issues w).source = s.setText text ∧
          (Correction.apply rules' t v issues w').source = t.setText text) := by
  unfold Correction.apply
  simp only [hproposals, hdiagnostics]
  split
  · -- nothing was accepted
    exact ⟨⟨rfl, rfl, rfl, rfl, rfl, rfl⟩, .inl ⟨rfl, rfl⟩⟩
  · split
    · -- the edits cut a character, and the sources are given up
      exact ⟨⟨rfl, rfl, rfl, rfl, rfl, rfl⟩, .inl ⟨rfl, rfl⟩⟩
    · exact ⟨⟨rfl, rfl, rfl, rfl, rfl, rfl⟩, .inr ⟨_, rfl, rfl⟩⟩

/-! ### Machines that are alike -/

/-- Two machines that differ in what their sources keep of the text, and in nothing else. -/
structure Alike (e : Engine σ) (m m' : Machine) : Prop where
  twins : m.source.Twins e.parser m'.source
  rest : m' = { m with source := m'.source }

theorem Alike.initial {s : Source} (hs : s.Coherent) (hp : s.ParsedBy e.parser) :
    Alike e (start ac s) (start ac s) where
  twins := ⟨rfl, rfl, ⟨⟨hs.bytes, hs.starts⟩, ⟨hs.bytes, hs.starts⟩⟩, ⟨hp, hp⟩⟩
  rest := rfl

theorem Alike.issues {m m' : Machine} (h : Alike e m m') : m'.issues = m.issues := by
  rw [h.rest]

theorem Alike.stage {m m' : Machine} (h : Alike e m m') : m'.stage = m.stage := by
  rw [h.rest]

/-- Machines stay alike if they are given other sources with the same text and are then changed in
a way that has nothing to do with the source. -/
theorem Alike.update {f : Machine → Machine}
    (hf : ∀ m s, f { m with source := s } = { f m with source := s })
    {m m' : Machine} (h : Alike e m m') {s t : Source} (hst : s.Twins e.parser t) :
    Alike e (f { m with source := s }) (f { m' with source := t }) := by
  have hm' : ({ m' with source := t } : Machine) = { m with source := t } := by
    rw [h.rest]
  rw [hm', hf m s, hf m t]
  exact ⟨hst, rfl⟩

/-! ### Turns -/

theorem afterAnalysis_source (e : Engine σ) (ac : Bool) (a : Analysis) (m : Machine) (s : Source) :
    e.afterAnalysis ac { m with source := s } a
      = { e.afterAnalysis ac m a with source := s } := by
  unfold afterAnalysis
  simp only
  split
  · rfl
  · split <;> rfl

theorem Functional.analyzeStep_alike (he : e.Functional) (ac : Bool) {m m' : Machine}
    (h : Alike e m m') (w w' : World σ) :
    (e.analyzeStep ac m' w').fault = (e.analyzeStep ac m w).fault ∧
      Alike e (e.analyzeStep ac m w).machine (e.analyzeStep ac m' w').machine := by
  have hfst : (e.analyze m'.source w').1 = (e.analyze m.source w).1 :=
    he.analyze_fst h.twins.coherent.2 h.twins.parsed.2 h.twins.coherent.1 h.twins.parsed.1
      h.twins.text h.twins.path w' w
  -- the memo may differ afterwards, but not the text and what the parser says of it
  have htwins : (e.analyze m.source w).2.1.Twins e.parser (e.analyze m'.source w').2.1 := by
    rw [analyze_source, analyze_source]
    exact h.twins.view w w'
  cases ha : (e.analyze m.source w).1 with
  | error f =>
    rw [analyzeStep_of_error ha, analyzeStep_of_error (hfst.trans ha)]
    exact ⟨rfl, h.update (f := id) (fun _ _ => rfl) htwins⟩
  | ok a =>
    rw [analyzeStep_of_ok ha, analyzeStep_of_ok (hfst.trans ha)]
    exact ⟨rfl, h.update (f := (e.afterAnalysis ac · a)) (afterAnalysis_source e ac a) htwins⟩

theorem Functional.correction_agree (he : e.Functional) {m m' : Machine} (h : Alike e m m')
    (w w' : World σ) :
    Agree (e.correction m w) (e.correction m' w') ∧
      (e.correction m w).source.Twins e.parser (e.correction m' w').source := by
  have hview : (m'.source.view e.parser w').1 = (m.source.view e.parser w).1 := by
    rw [he.view_eq h.twins.coherent.2 h.twins.parsed.2 w' w.memory,
      he.view_eq h.twins.coherent.1 h.twins.parsed.1 w w.memory, h.twins.text, h.twins.path]
  unfold correction
  rw [hview, h.issues]
  obtain ⟨hproposals, hdiagnostics⟩ := he.gatherFrom_eq (m.source.view e.parser w).1 0 m.issues
    (m.source.view e.parser w).2.2 (m'.source.view e.parser w').2.2
  obtain ⟨hagree, hsource⟩ := apply_agree hproposals hdiagnostics (m.source.view e.parser w).2.1
    (m'.source.view e.parser w').2.1
  refine ⟨hagree, ?_⟩
  -- A pass that changes nothing leaves both sources as they were viewed; one that does gives both
  -- the same text.
  rcases hsource with ⟨hs, ht⟩ | ⟨text, hs, ht⟩
  · rw [hs, ht]
    exact h.twins.view w w'
  · rw [hs, ht]
    exact (h.twins.view w w').setText text

theorem Agree.afterCorrection_alike {c c' : Correction σ} (hc : Agree c c')
    (hst : c.source.Twins e.parser c'.source) {m m' : Machine} (h : Alike e m m') :
    Alike e (afterCorrection m c) (afterCorrection m' c') := by
  rw [h.rest]
  unfold afterCorrection
  simp only [hc.changed, hc.issuesAt, hc.issues, hc.corrected, hc.conflicts, hc.edits,
    hc.diagnostics]
  -- With and without a rewrite; the fields that decide it agree.
  split
  · exact ⟨hst, rfl⟩
  · exact ⟨hst, rfl⟩

theorem Functional.correctStep_alike (he : e.Functional) {m m' : Machine} (h : Alike e m m')
    (w w' : World σ) :
    (e.correctStep m' w').fault = (e.correctStep m w).fault ∧
      Alike e (e.correctStep m w).machine (e.correctStep m' w').machine := by
  obtain ⟨hagree, htwins⟩ := he.correction_agree h w w'
  -- both passes fail or neither does
  cases hf : (e.correction m w).fault with
  | some f =>
    rw [correctStep_of_fault hf, correctStep_of_fault (hagree.fault.trans hf), hagree.issues]
    exact ⟨rfl, h.update (f := ({ · with issues := (e.correction m w).issues }))
      (fun _ _ => rfl) htwins⟩
  | none =>
    rw [correctStep_of_none hf, correctStep_of_none (hagree.fault.trans hf)]
    exact ⟨rfl, hagree.afterCorrection_alike htwins h⟩

theorem Functional.reparseStep_alike (he : e.Functional) {m m' : Machine} (h : Alike e m m')
    (w w' : World σ) :
    (e.reparseStep m' w').fault = (e.reparseStep m w).fault ∧
      Alike e (e.reparseStep m w).machine (e.reparseStep m' w').machine := by
  -- the parser answers by the text, and the memory is no matter
  have hfst : (m'.source.reparse e.parser w').1 = (m.source.reparse e.parser w).1 := by
    rw [Source.reparse_fst, Source.reparse_fst, h.twins.text,
      he.parser m.source.text w'.memory w.memory]
  have htwins := h.twins.reparse w w'
  cases hp : (m.source.reparse e.parser w).1 with
  | error f =>
    rw [reparseStep_of_error hp, reparseStep_of_error (hfst.trans hp)]
    exact ⟨rfl, h.update (f := id) (fun _ _ => rfl) htwins⟩
  | ok p =>
    rw [reparseStep_of_ok hp, reparseStep_of_ok (hfst.trans hp)]
    exact ⟨rfl, h.update (f := ({ · with stage := .analyzing })) (fun _ _ => rfl) htwins⟩

/-- **Turns that are not cut short keep machines alike**, raise the same fault and make the same
round. -/
theorem Functional.step_alike (he : e.Functional) {m m' : Machine} (h : Alike e m m')
    (hd : m.stage ≠ .done) {w w' : World σ} (hc : w.cancelled = false)
    (hc' : w'.cancelled = false) :
    (e.step ac m' w').fault = (e.step ac m w).fault ∧
      Alike e (e.step ac m w).machine (e.step ac m' w').machine ∧
      e.roundFrom (m', w') = e.roundFrom (m, w) := by
  cases hs : m.stage with
  | done => exact absurd hs hd
  | analyzing =>
    have hs' := h.stage.trans hs
    -- An analysis completes no round, and neither does parsing; a correction is one, of equal
    -- parts.
    rw [step_analyzing hc hs, step_analyzing hc' hs', roundFrom_of_stage hs (by decide),
      roundFrom_of_stage hs' (by decide)]
    obtain ⟨hfault, hmachine⟩ := he.analyzeStep_alike ac h w w'
    exact ⟨hfault, hmachine, rfl⟩
  | correcting =>
    have hs' := h.stage.trans hs
    rw [step_correcting hc hs, step_correcting hc' hs']
    obtain ⟨hfault, hmachine⟩ := he.correctStep_alike h w w'
    obtain ⟨hagree, -⟩ := he.correction_agree h w w'
    refine ⟨hfault, hmachine, ?_⟩
    unfold roundFrom
    simp only [hc, hc', hs, hs', hagree.changed, hagree.issuesAt, hagree.corrected,
      hagree.conflicts, hagree.edits]
  | reparsing =>
    have hs' := h.stage.trans hs
    rw [step_reparsing hc hs, step_reparsing hc' hs', roundFrom_of_stage hs (by decide),
      roundFrom_of_stage hs' (by decide)]
    obtain ⟨hfault, hmachine⟩ := he.reparseStep_alike h w w'
    exact ⟨hfault, hmachine, rfl⟩

/-! ### Loops -/

/-- **A loop goes on only while it may still converge.** -/
theorem converged_step {m m' : Machine} {w w' : World σ}
    (h : m.stage ≠ .done → m.converged = true) (hd : m.stage ≠ .done)
    (hm : Moves e ac m w m' w') : m'.stage ≠ .done → m'.converged = true := by
  intro hd'
  cases hm with
  | abort | exhaust => exact absurd rfl hd'
  | settle | proceed | rest | revise | reparse => exact h hd

theorem quiet_of_step {m : Machine} {v : World σ} (hd : m.stage ≠ .done) (hv : v.cancelled = false)
    (hf : (e.step ac m v).fault = none) :
    e.quiet.finish ac m v
        = e.quiet.finish ac (e.step ac m v).machine (e.step ac m v).world.resume ∧
      e.quiet.turns ac m v
        = (m, v) :: e.quiet.turns ac (e.step ac m v).machine (e.step ac m v).world.resume := by
  have hquiet := e.step_quiet ac m hv
  have hf' : (e.quiet.step ac m v).fault = none := by
    rw [hquiet]
    exact hf
  rw [finish_of_step hd hf', turns_of_step hd hf', hquiet]
  exact ⟨rfl, rfl⟩

/-- A loop that was aborted, next to the turns of one that was not: the other has been where the one
was left, and the rounds of the one are the first of the other. -/
structure AbortedAmong (e : Engine σ) (states : List (Machine × World σ)) (t : Turn σ)
    (turns : List (Machine × World σ)) : Prop where
  fault : t.fault = none
  aborted : t.machine.aborted = true
  converged : t.machine.converged = true
  passed : ∃ state ∈ turns, state.1.source.text = t.machine.source.text ∧
    state.1.iterations = t.machine.iterations
  rounds : e.roundsOf states <+: e.quiet.roundsOf turns

/-- Both loops were one turn earlier, and made the same round in it if any. -/
theorem AbortedAmong.cons {states turns : List (Machine × World σ)} {t : Turn σ}
    (h : e.AbortedAmong states t turns) {state state' : Machine × World σ}
    (hround : e.quiet.roundFrom state' = e.roundFrom state) :
    e.AbortedAmong (state :: states) t (state' :: turns) := by
  obtain ⟨passed, hpassed, hsame⟩ := h.passed
  refine ⟨h.fault, h.aborted, h.converged, ⟨passed, List.mem_cons_of_mem _ hpassed, hsame⟩, ?_⟩
  -- the same round in front on both sides keeps one list a prefix of the other
  have hrounds := h.rounds
  unfold roundsOf at hrounds ⊢
  cases hr : e.roundFrom state with
  | none =>
    rw [List.filterMap_cons_none hr, List.filterMap_cons_none (hround.trans hr)]
    exact hrounds
  | some r =>
    rw [List.filterMap_cons_some hr, List.filterMap_cons_some (hround.trans hr)]
    exact List.cons_prefix_cons.mpr ⟨rfl, hrounds⟩

/-- Once the flag is up there is one more turn, which aborts. -/
theorem Alike.aborts {m m' : Machine} (h : Alike e m m') (hd : m.stage ≠ .done)
    (hconverged : m.converged = true) {w v : World σ} (hc : w.cancelled = true)
    {states : List (Machine × World σ)} {t : Turn σ}
    (hrest : e.Loops ac (e.step ac m w).machine (e.step ac m w).world states t) :
    e.AbortedAmong ((m, w) :: states) t (e.quiet.turns ac m' v) := by
  have hd' : m'.stage ≠ .done := h.stage ▸ hd
  -- the other loop is in the middle of the same turn
  have hstart : ∃ states', e.quiet.turns ac m' v = (m', v) :: states' := by
    cases hq : (e.quiet.step ac m' v).fault with
    | some f => exact ⟨_, turns_of_fault hd' hq⟩
    | none => exact ⟨_, turns_of_step hd' hq⟩
  obtain ⟨states', hturns⟩ := hstart
  rw [step_of_cancelled hd hc] at hrest
  cases hrest with
  | ended =>
    have hiterations : m'.iterations = m.iterations := by
      rw [h.rest]
    have hnone : e.roundsOf [(m, w)] = [] := by
      rw [roundsOf, List.filterMap_cons_none (roundFrom_of_cancelled hc), List.filterMap_nil]
    rw [hturns]
    refine ⟨rfl, rfl, hconverged, ⟨(m', v), List.mem_cons_self, h.twins.text, hiterations⟩, ?_⟩
    rw [hnone]
    exact List.nil_prefix
  | failed hd'' => exact absurd rfl hd''
  | turned hd'' => exact absurd rfl hd''

/-- **A loop that is disturbed, next to one that is not.** From machines that are alike, either both
loops come to the same, or the one is aborted on the way of the other. -/
theorem Functional.compare (he : e.Functional) {m : Machine} {w : World σ}
    {states : List (Machine × World σ)} {t : Turn σ} (h : e.Loops ac m w states t)
    {m' : Machine} {v : World σ} (ha : Alike e m m') (hv : v.cancelled = false)
    (hgo : m.stage ≠ .done → m.converged = true) :
    ((e.quiet.finish ac m' v).fault = t.fault ∧
        Alike e t.machine (e.quiet.finish ac m' v).machine) ∨
      e.AbortedAmong states t (e.quiet.turns ac m' v) := by
  -- the induction is on the disturbed loop, which the other one follows turn by turn
  induction h generalizing m' v with
  | ended hd =>
    rw [finish_of_done (ha.stage.trans hd)]
    exact .inl ⟨rfl, ha⟩
  | @failed m w w' f hd hw hf =>
    -- a turn that is cut short raises no fault
    have hc : w'.cancelled = false := by
      cases hc : w'.cancelled with
      | false => rfl
      | true =>
        rw [step_of_cancelled hd hc] at hf
        cases hf
    obtain ⟨hfault, hmachine, -⟩ := he.step_alike ha hd hc hv
    have hquiet := e.step_quiet ac m' hv
    have hf' : (e.quiet.step ac m' v).fault = some f := by
      rw [hquiet]
      exact hfault.trans hf
    rw [finish_of_fault (ha.stage ▸ hd) hf', hquiet]
    exact .inl ⟨hfault, hmachine⟩
  | @turned m w w' states t hd hw hf hrest ih =>
    cases hc : w'.cancelled with
    | true => exact .inr (ha.aborts hd (hgo hd) hc hrest)
    | false =>
      obtain ⟨hfault, hmachine, hround⟩ := he.step_alike ha hd hc hv
      obtain ⟨hfinish, hturns⟩ := quiet_of_step (ha.stage ▸ hd) hv (hfault.trans hf)
      rw [hfinish, hturns]
      have hv' : (e.step ac m' v).world.resume.cancelled = false := rfl
      have hgo' := converged_step hgo hd (moves_step hd hf)
      rcases ih hmachine hv' hgo' with hsame | haborted
      · exact .inl hsame
      · -- the round of this turn, if it made one, is the same
        rw [← e.roundFrom_quiet m' hv] at hround
        exact .inr (haborted.cons hround)

end Engine

/-! ### Reports -/

/-- Two reports that tell the same about a source. -/
structure SourceReport.Matches (r q : SourceReport) : Prop where
  issues : q.issues = r.issues
  diagnostics : q.diagnostics = r.diagnostics
  passes : q.passes = r.passes
  iterations : q.iterations = r.iterations
  converged : q.converged = r.converged
  aborted : q.aborted = r.aborted
  text : q.source.text = r.source.text

namespace Engine

variable {e : Engine σ} {ac : Bool}

theorem Alike.matches {t t' : Turn σ} (hf : t'.fault = t.fault)
    (h : Alike e t.machine t'.machine) :
    (e.reportAfter t).Matches (e.quiet.reportAfter t') := by
  unfold reportAfter
  rw [hf]
  cases t.fault with
  | some f =>
    -- a source that is given up is named by its path
    have hdiagnostics : (e.quiet.givenUp t'.machine.source f).diagnostics
        = (e.givenUp t.machine.source f).diagnostics := by
      unfold givenUp
      rw [h.twins.path]
      rfl
    exact ⟨rfl, hdiagnostics, rfl, rfl, rfl, rfl, h.twins.text⟩
  | none =>
    simp only
    rw [h.rest]
    exact ⟨rfl, rfl, rfl, rfl, rfl, rfl, h.twins.text⟩

/-- **A report on a source that was left on the way**: some of the rounds that a run makes on the
source were completed. -/
structure LeftAfter (e : Engine σ) (s : Source) (rounds : List Round) (r : SourceReport) :
    Prop where
  aborted : r.aborted = true
  converged : r.converged = true
  iterations : r.iterations ≤ rounds.length
  octets : Utf8.ofString r.source.text
    = octetsAfter (Utf8.ofString s.text) (rounds.take r.iterations)
  passes : r.passes = r.iterations ∨ r.passes = r.iterations + 1
  /-- The corrected issues are those of the rounds; what a rule has itself handed over as corrected
  is listed besides. -/
  corrected : ∃ others,
    r.corrected.Perm ((rounds.take r.iterations).flatMap (·.corrected) ++ others) ∧
      ∀ i ∈ others, i.status = .corrected ∧ ∃ v, e.Found v i

/-- If rules hand over new issues, then the corrected ones are those of the rounds. -/
theorem LeftAfter.perm_corrected {s : Source} {rounds : List Round} {r : SourceReport}
    (h : LeftAfter e s rounds r) (hr : ∀ rule ∈ e.correctors, rule.FindsNew) :
    r.corrected.Perm ((rounds.take r.iterations).flatMap (·.corrected)) := by
  obtain ⟨others, hperm, hothers⟩ := h.corrected
  -- A rule that finds new issues hands over no corrected one, so there are no others.
  cases others with
  | nil => rwa [List.append_nil] at hperm
  | cons i others =>
    obtain ⟨hstatus, v, rule, hrule, memory, found, hans, hi⟩ := hothers i List.mem_cons_self
    rw [(hr rule hrule v i ⟨memory, found, hans, hi⟩).status] at hstatus
    cases hstatus

/-- What an aborted loop is reported as. -/
theorem Loops.leftAfter {s : Source} (hs : s.Coherent) {w : World σ}
    {states : List (Machine × World σ)} {t : Turn σ} (h : e.Loops ac (start ac s) w states t)
    (hf : t.fault = none) (ha : t.machine.aborted = true) (hv : t.machine.converged = true)
    {rounds : List Round} (hr : e.roundsOf states <+: rounds) :
    LeftAfter e s rounds (reportOf t.machine) := by
  obtain ⟨htracked, hstanding⟩ := h.history hs hf
  have huntouched : Untouched e t.machine := h.untouched hf
  -- each round counts as one iteration, so the count tells which rounds were made
  have htake : rounds.take t.machine.iterations = e.roundsOf states := by
    rw [htracked.iterations]
    exact (List.prefix_iff_eq_take.mp hr).symm
  refine ⟨ha, hv, ?_, ?_, ?_, ?_⟩
  · change t.machine.iterations ≤ rounds.length
    rw [htracked.iterations]
    exact hr.length_le
  · change _ = octetsAfter _ (rounds.take t.machine.iterations)
    rw [htake]
    exact htracked.octets
  · change t.machine.passes = t.machine.iterations ∨ t.machine.passes = t.machine.iterations + 1
    rw [htracked.passes, htracked.iterations]
    cases hstanding with
    | ahead hne ha hn hv hc => exact .inl hn
    | looked p hl hn hver ht hc hi hst => exact .inr hn
  · change ∃ others, List.Perm _ ((rounds.take t.machine.iterations).flatMap _ ++ others) ∧ _
    rw [htake]
    obtain ⟨others, hperm, hothers⟩ := Engine.perm_corrected htracked hstanding
    refine ⟨others, hperm, fun i hi => ?_⟩
    obtain ⟨hstatus, hcur, hmem⟩ := hothers i hi
    exact ⟨hstatus, huntouched.found_of_corrected hcur hmem hstatus⟩

/-- **Cancelling a run leaves a beginning of it.** Let rules and parser answer for the text and the
path alone. Whatever disturbs the run and whenever it is cancelled, during a call or between two
turns, the report on a source is that of the run without cancellation, which aborts nothing; or the
source was left after some complete rounds of that run, with the text that it had there. If rules
hand over new issues, the corrected ones are those of these rounds (otherwise see
`handed_corrected_left`). The reports that `Engine.run` makes are among those spoken of. -/
theorem cancelled_report (e : Engine σ) (he : e.Functional) (ac : Bool) (ss : List Source)
    (w : World σ) :
    e.Reports ac ss w.resume (e.run ac ss w).1.sources ∧
    ∀ reports, e.Reports ac ss w.resume reports → ∀ (k : Nat) (s : Source), ss[k]? = some s →
      s.Coherent → s.ParsedBy e.parser →
      ∃ r q, reports[k]? = some r ∧ (e.quiet.run ac ss w).1.sources[k]? = some q ∧
        q.aborted = false ∧
        (r.aborted = false ∧ r.Matches q ∨
          LeftAfter e s (e.quiet.rounds ac s (e.quiet.takenUp ac ss w.resume k)) r ∧
          (∃ state ∈ e.quiet.turns ac (start ac s) (e.quiet.takenUp ac ss w.resume k),
            state.1.source.text = r.source.text ∧ state.1.iterations = r.iterations) ∧
          ((∀ rule ∈ e.correctors, rule.FindsNew) →
            r.corrected.Perm
              (((e.quiet.rounds ac s (e.quiet.takenUp ac ss w.resume k)).take
                r.iterations).flatMap (·.corrected)))) := by
  refine ⟨reports_run e ac ss w, fun reports hreports k s hk hs hp => ?_⟩
  obtain ⟨w', states, t, hloops, hr⟩ := hreports.exists_loops hk
  have hv := e.takenUp_quiet ac ss w.resume rfl k
  have hq : (e.quiet.run ac ss w).1.sources[k]?
      = some (e.quiet.process ac s (e.quiet.takenUp ac ss w.resume k)).1 := by
    rw [getElem?_run_sources, hk]
    rfl
  -- of the world in which the source is taken up, nothing matters but that the flag is down
  generalize e.quiet.takenUp ac ss w.resume k = v at hv hq
  rw [process_fst] at hq
  have hquiet : (e.quiet.reportAfter (e.quiet.finish ac (start ac s) v)).aborted = false := by
    have hends := (e.finish_quiet ac (start ac s) v hv rfl).2
    unfold reportAfter
    cases hf : (e.quiet.finish ac (start ac s) v).fault with
    | some f => rfl
    | none => exact hends hf
  refine ⟨_, _, hr, hq, hquiet, ?_⟩
  -- the loops run alike to the end, or the cancelled one stops behind some of the rounds
  rcases he.compare hloops (Alike.initial hs hp) hv (fun _ => rfl) with
    ⟨hf, halike⟩ | ⟨hf, habort, hconverged, hstate, hrounds⟩
  · have hmatches := halike.matches hf
    exact .inl ⟨hmatches.aborted.symm.trans hquiet, hmatches⟩
  · have hreport : e.reportAfter t = reportOf t.machine := by
      rw [reportAfter, hf]
    have hleft := hloops.leftAfter hs hf habort hconverged hrounds
    rw [hreport]
    exact .inr ⟨hleft, hstate, hleft.perm_corrected⟩

/-- An engine that replaces the letter a by b and b by c. The rule for a cancels the run when it is
first asked for a correction. -/
def hasty : Engine Tally where
  rules :=
    [.ofKind <| Scripted.wordKind 0
      { name := "ReplaceA", group := "Test", correctable := true, label := "WordRule" }
      { word := "a", replacement := some "b", cancelOnCorrect := some 1 },
     wordRule 1 "ReplaceB" "b" (some "c")]
  parseRule := .ofKind Rules.unparsable
  parser := Scripted.flatParser
  cwd := "/work"

theorem hasty_functional : hasty.Functional := by
  refine functional_of_rules fun r hr => ?_
  -- cancelling depends on the calls counted, but not what is answered
  rcases List.mem_cons.mp hr with rfl | hr
  · exact wordKind_functional _ _ _
  · rw [List.mem_singleton.mp hr]
    exact wordKind_functional _ _ _

/-- The run stops after the first of two rounds: the text is b, and without cancellation it would
have been c. -/
theorem hasty_leftAfter :
    ∃ r q, (hasty.run true [Source.ofText "a"] ⟨{}, false, []⟩).1.sources[0]? = some r ∧
      (hasty.quiet.run true [Source.ofText "a"] ⟨{}, false, []⟩).1.sources[0]? = some q ∧
      r.source.text = "b" ∧ q.source.text = "c" ∧ r.iterations = 1 ∧ q.iterations = 2 ∧
      LeftAfter hasty (Source.ofText "a")
        (hasty.quiet.rounds true (Source.ofText "a") ⟨{}, false, []⟩) r := by
  -- The values are computed; what holds of the two runs follows from the theorem.
  obtain ⟨hruns, hreports⟩ :=
    cancelled_report hasty hasty_functional true [Source.ofText "a"] ⟨{}, false, []⟩
  obtain ⟨r, q, hr, hq, -, hcases⟩ := hreports _ hruns 0 (Source.ofText "a") rfl
    (Source.coherent_ofText _ _) (Source.parsedBy_ofText _ _ _)
  obtain rfl : (hasty.process true (Source.ofText "a") ⟨{}, false, []⟩).1 = r :=
    Option.some.inj hr
  obtain rfl : (hasty.quiet.process true (Source.ofText "a") ⟨{}, false, []⟩).1 = q :=
    Option.some.inj hq
  refine ⟨_, _, rfl, rfl, by decide +kernel, by decide +kernel, by decide +kernel,
    by decide +kernel, ?_⟩
  rcases hcases with ⟨hnot, -⟩ | ⟨hleft, -, -⟩
  · have haborted : (hasty.process true (Source.ofText "a") ⟨{}, false, []⟩).1.aborted = true := by
      decide +kernel
    rw [haborted] at hnot
    cases hnot
  · exact hleft

/-! ### A correction that was none -/

/-- An engine with a rule that hands over a corrected issue, next to one that cancels the run when it
is first asked for findings. -/
def boasting : Engine Tally :=
  { specimen with
    rules :=
      [handingRule fun i => [i.withStatus .corrected],
       .ofKind <| Scripted.wordKind 0
        { name := "ReplaceA", group := "Test", correctable := true, label := "WordRule" }
        { word := "a", replacement := some "b", cancelOnDetect := some 1 }] }

theorem boasting_functional : boasting.Functional := by
  refine functional_of_rules fun r hr => ?_
  rcases List.mem_cons.mp hr with rfl | hr
  · exact handingRule_functional _
  · rw [List.mem_singleton.mp hr]
    exact wordKind_functional _ _ _

def boasted : List Issue :=
  [issueOfA.withStatus .corrected, { issueOfA with rule := "Test/ReplaceA" }]

theorem boasting_analyze :
    (boasting.analyze (start true (Source.ofText "a")).source ⟨{}, false, []⟩).1
      = .ok ⟨boasted, []⟩ := by
  have hfound : (boasting.analyze (start true (Source.ofText "a")).source ⟨{}, false, []⟩).1
      = .ok ⟨silence "a" (byStart boasted), []⟩ := rfl
  rw [hfound, byStart, List.mergeSort_of_pairwise (by decide)]
  rfl

def boastingFound : Machine × World Tally :=
  boasting.behindPass (Source.ofText "a") ⟨{}, false, []⟩ boasted

/-- The turn that would ask for a correction sees that the run was cancelled. -/
theorem finish_boasting :
    boasting.finish true (start true (Source.ofText "a")) ⟨{}, false, []⟩
      = ⟨{ boastingFound.1 with aborted := true, stage := .done }, none, boastingFound.2⟩ := by
  have hstep : boasting.step true (start true (Source.ofText "a")) ⟨{}, false, []⟩
      = ⟨boastingFound.1, none, boastingFound.2⟩ :=
    step_behindPass rfl boasting_analyze (by decide) (by decide)
  rw [finish_of_step (by decide) (by rw [hstep]), hstep]
  exact finish_of_last (by decide) (step_of_cancelled (by decide) rfl) rfl

/-- **A rule may hand over a corrected issue.** If the run is cancelled behind the first pass, this
issue is in the report, which was aborted before any round. -/
theorem handed_corrected_left :
    boasting.Functional ∧
      ∃ r, (boasting.run true [Source.ofText "a"] ⟨{}, false, []⟩).1.sources[0]? = some r ∧
        r.aborted = true ∧ r.iterations = 0 ∧
        ((boasting.quiet.rounds true (Source.ofText "a") ⟨{}, false, []⟩).take
          r.iterations).flatMap (·.corrected) = [] ∧
        issueOfA.withStatus .corrected ∈ r.corrected := by
  refine ⟨boasting_functional, (boasting.process true (Source.ofText "a") ⟨{}, false, []⟩).1, rfl,
    ?_⟩
  rw [process_of_ok finish_boasting]
  refine ⟨rfl, rfl, rfl, List.mem_filter.mpr ⟨?_, rfl⟩⟩
  exact List.mem_mergeSort.mpr List.mem_cons_self

end Engine

end Lintel
