import Lintel.Proofs.Engine.History

/-!
# Corrected texts are fixpoints

Suppose that what rules and parser answer depends on the text and the path alone
(`Engine.Functional`; they may still keep a memory, and cancel the run when they like). Then a run
that corrected a source and came to an end, neither cut short nor out of budget, leaves a text on
which correction has nothing to do:

* no pending issue of the text gets an edit from its rule that passes the bounds check;
* another run over the text makes one pass, revises nothing, and lists the issues of the last pass
  of the first run.

**How.** A loop that is not aborted and converges ends in one of two ways (`Settled`): the last pass
left nothing pending, or nothing was proposed for what it left. Because the selection accepts the
first proposal there is, the second way says that each rule declined or failed the check. As the
answers do not depend on the memory, this is so in the second run as well, whose two turns are then
known (`finish_again`). The budget does not cut it short: the first run got as far as asking for
corrections, so the budget allows for at least one revision.
-/

namespace Lintel

variable {σ : Type}

/-- What the rule answers does not depend on its memory. -/
structure Rule.Functional (r : Rule σ) : Prop where
  detect : ∀ v memory memory', (r.detect v memory).answer = (r.detect v memory').answer
  correct : ∀ v i memory memory', (r.correct v i memory).answer = (r.correct v i memory').answer

namespace Engine

structure Functional (e : Engine σ) : Prop where
  parser : ∀ text memory memory', (e.parser text memory).answer = (e.parser text memory').answer
  detect : ∀ r ∈ e.correctors, ∀ v memory memory',
    (r.detect v memory).answer = (r.detect v memory').answer
  correct : ∀ r ∈ e.correctors, ∀ v i memory memory',
    (r.correct v i memory).answer = (r.correct v i memory').answer

def shown (e : Engine σ) (path : Option String) (text : String) (memory : σ) : View :=
  View.ofText path text ((e.parser text memory).answer.map Parsed.ofTree)

variable {e : Engine σ}

/-! ### Answers that do not depend on the memory -/

theorem Functional.view_eq (he : e.Functional) {s : Source} (hs : s.Coherent)
    (hp : s.ParsedBy e.parser) (w : World σ) (memory : σ) :
    (s.view e.parser w).1 = e.shown s.path s.text memory := by
  obtain ⟨memory', hparse⟩ := hp.parse_fst w
  rw [Source.view_fst hs, hparse, he.parser s.text memory' memory]
  rfl

theorem Functional.analyzeValid_fst (he : e.Functional) (v : View) (w w' : World σ) :
    (e.analyzeValid v w).1 = (e.analyzeValid v w').1 := by
  have happlicable : ∀ r ∈ e.applicable v.path, r ∈ e.correctors := fun r hr =>
    mem_correctors.mpr (.inl (List.mem_filter.mp hr).1)
  unfold analyzeValid
  simp only
  rw [detectAll_congr (fun r hr => he.detect r (happlicable r hr) v) w w']

theorem Functional.analyzeBroken_fst (he : e.Functional) (v : View) (w w' : World σ) :
    (e.analyzeBroken v w).1 = (e.analyzeBroken v w').1 := by
  unfold analyzeBroken
  simp only
  rw [he.detect e.parseRule (mem_correctors.mpr (.inr rfl)) v w.memory w'.memory]
  split <;> rfl

/-- **What a pass finds depends on text and path alone.** -/
theorem Functional.analyze_fst (he : e.Functional) {s t : Source} (hs : s.Coherent)
    (hsp : s.ParsedBy e.parser) (ht : t.Coherent) (htp : t.ParsedBy e.parser)
    (htext : s.text = t.text) (hpath : s.path = t.path) (w w' : World σ) :
    (e.analyze s w).1 = (e.analyze t w').1 := by
  -- sources that are coherent show the same of one text, in any memory
  have hview : (s.view e.parser w).1 = (t.view e.parser w').1 := by
    rw [he.view_eq hs hsp w w.memory, he.view_eq ht htp w' w.memory, htext, hpath]
  unfold analyze
  simp only
  rw [hview]
  cases (t.view e.parser w').1.parsed with
  | error f => rfl
  | ok p =>
    simp only
    rw [he.analyzeValid_fst _ (s.view e.parser w).2.2 (t.view e.parser w').2.2,
      he.analyzeBroken_fst _ (s.view e.parser w).2.2 (t.view e.parser w').2.2]
    split <;> rfl

/-- **What is proposed depends on text and path alone**: if nothing was proposed once, then no rule
proposes anything in any memory. -/
theorem Functional.not_proposes (he : e.Functional) {v : View} {issues : List Issue} {w : World σ}
    (h : (Correction.gatherFrom e.correctors v 0 issues w).proposals = []) {i : Issue}
    (hi : i ∈ issues) (edit : Edit) : ¬ Correction.Proposes e.correctors v i edit := by
  rintro ⟨rule, memory, ha, hverdict⟩
  obtain ⟨memory', hnone⟩ := Correction.not_proposed_of_nil h hi ha
  refine hnone edit ?_
  rw [← hverdict, he.correct rule (Correction.mem_of_answerer ha) v i memory' memory]

/-! ### How a run settles -/

/-- Nothing is left to do for these issues of a text: none is pending, or the budget is not used up
and nothing is proposed for any of them. -/
def Settled (e : Engine σ) (path : Option String) (text : String) (issues : List Issue) : Prop :=
  issues.any (·.isPending) = false ∨
    0 < e.maxIterations ∧
      ∀ i ∈ issues, ∀ memory edit,
        ¬ Correction.Proposes e.correctors (e.shown path text memory) i edit

/-- What holds along a run that corrects, of its source and its last pass. -/
structure Settling (e : Engine σ) (past : List (Machine × World σ)) (m : Machine) : Prop where
  coherent : m.source.Coherent
  parsed : m.source.ParsedBy e.parser
  /-- The budget is not used up when corrections are asked for. -/
  budget : m.stage = .correcting → (m.iterations : Int) < e.maxIterations
  found : ∀ p, (e.passesOf past).getLast? = some p → ∃ t w a, t.Coherent ∧
    t.ParsedBy e.parser ∧ t.path = m.source.path ∧ t.text = p.text ∧
    (e.analyze t w).1 = .ok a ∧ a.issues = p.issues
  /-- A loop that ends by itself and within the budget is settled. -/
  settled : m.stage = .done → m.aborted = false → m.converged = true →
    Settled e m.source.path m.source.text m.issues

theorem Settling.initial {s : Source} (hs : s.Coherent) (hp : s.ParsedBy e.parser) :
    Settling e [] (start true s) where
  coherent := ⟨hs.bytes, hs.starts⟩
  parsed := hp
  budget h := by cases h
  found p h := by cases h
  settled h := by cases h

/-- A completed pass keeps `Settling`, if what it makes of the machine is settled or goes on. -/
theorem Settling.look {past : List (Machine × World σ)} {m : Machine} {w : World σ}
    (h : Settling e past m) (hc : w.cancelled = false) (hs : m.stage = .analyzing) {a : Analysis}
    (ha : (e.analyze m.source w).1 = .ok a) {stage : Stage} {issues : List Issue}
    {converged : Bool}
    (hb : stage = .correcting → (m.iterations : Int) < e.maxIterations)
    (hd : stage = .done → converged = true →
      Settled e m.source.path m.source.text issues) :
    Settling e (past ++ [(m, w)])
      { looked m (e.analyze m.source w).2.1 a with
        stage := stage, issues := issues, converged := converged } := by
  -- The source is only viewed: its text, its path and the language of its memo stay.
  have hsource := analyze_source e m.source w
  have hpath : (e.analyze m.source w).2.1.path = m.source.path := by
    rw [hsource, Source.view_path]
  have htext : (e.analyze m.source w).2.1.text = m.source.text := by
    rw [hsource, Source.view_text]
  refine ⟨?_, ?_, hb, fun p hp => ?_, fun hdone _ hconv => ?_⟩
  · change (e.analyze m.source w).2.1.Coherent
    rw [hsource]
    exact h.coherent.view e.parser w
  · change (e.analyze m.source w).2.1.ParsedBy e.parser
    rw [hsource]
    exact h.parsed.view w
  · rw [passesOf_snoc_some e past _ (passFrom_of_analyze hc hs ha), List.getLast?_concat] at hp
    injection hp with hp
    subst hp
    exact ⟨m.source, w, a, h.coherent, h.parsed, hpath.symm, rfl, ha, rfl⟩
  · change Settled e (e.analyze m.source w).2.1.path (e.analyze m.source w).2.1.text issues
    rw [hpath, htext]
    exact hd hdone hconv

/-- The passes are those behind the turn if it completes none. -/
theorem Settling.found_of_none {past : List (Machine × World σ)} {m : Machine} {w : World σ}
    (h : Settling e past m) (hp : e.passFrom (m, w) = none) {path : Option String}
    (hpath : path = m.source.path) (p : Pass)
    (hl : (e.passesOf (past ++ [(m, w)])).getLast? = some p) :
    ∃ t w a, t.Coherent ∧ t.ParsedBy e.parser ∧ t.path = path ∧ t.text = p.text ∧
      (e.analyze t w).1 = .ok a ∧ a.issues = p.issues := by
  rw [passesOf_snoc_none e past _ hp] at hl
  rw [hpath]
  exact h.found p hl

/-- **A turn keeps `Settling`.** -/
theorem Settling.step (he : e.Functional) {past : List (Machine × World σ)} {m m' : Machine}
    {w w' : World σ} (h : Settling e past m) (hm : Moves e true m w m' w') :
    Settling e (past ++ [(m, w)]) m' := by
  cases hm with
  | abort hc =>
    exact ⟨h.coherent, h.parsed, (fun hs => by cases hs),
      h.found_of_none (passFrom_of_cancelled hc) rfl, (fun _ ha => by cases ha)⟩
  | settle hc hs a ha hp =>
    -- the run corrects, so nothing is pending
    refine h.look hc hs ha (fun hst => by cases hst) fun _ _ => .inl ?_
    rcases hp with hp | hp
    · cases hp
    · exact hp
  -- out of budget: such a loop does not converge, so there is nothing to show
  | exhaust hc hs a ha hac hp hb =>
    exact h.look hc hs ha (fun hst => by cases hst) fun _ hconv => by cases hconv
  | proceed hc hs a ha hac hp hb =>
    exact h.look hc hs ha (fun _ => hb) fun hst => by cases hst
  | rest hc hs hn =>
    refine ⟨h.coherent.view e.parser w, h.parsed.view w, (fun hst => by cases hst),
      h.found_of_none (passFrom_of_stage hs (by decide)) (Source.view_path _ _ _),
      fun _ _ _ => .inr ?_⟩
    -- corrections were asked for, so at least one revision is within the budget
    have hbudget := h.budget hs
    refine ⟨by omega, fun i hi memory edit => ?_⟩
    -- what the rules are shown in this turn is what they are shown in any memory
    rw [he.view_eq h.coherent h.parsed w memory] at hn
    change ¬ Correction.Proposes e.correctors (e.shown (m.source.view e.parser w).2.1.path
      (m.source.view e.parser w).2.1.text memory) i edit
    rw [Source.view_path, Source.view_text]
    exact he.not_proposes hn hi edit
  -- the new text starts afresh; only the path is kept
  | revise hc hs hch hr =>
    have hpath : (e.correction m w).source.path = m.source.path := by
      rw [hr.source_eq, Source.setText_path, Source.view_path]
    refine ⟨?_, ?_, (fun hst => by cases hst),
      h.found_of_none (passFrom_of_stage hs (by decide)) hpath,
      (fun hst => by cases hst)⟩
    · change (e.correction m w).source.Coherent
      rw [hr.source_eq]
      exact Source.coherent_setText _ _
    · change (e.correction m w).source.ParsedBy e.parser
      rw [hr.source_eq]
      exact Source.parsedBy_setText e.parser _ _
  | reparse hc hs p hp =>
    exact ⟨h.coherent.reparse e.parser w, h.parsed.reparse w, (fun hst => by cases hst),
      h.found_of_none (passFrom_of_stage hs (by decide)) (Source.reparse_path _ _ _),
      (fun hst => by cases hst)⟩

/-! ### The second run -/

/-- What the loop over a settled text comes to. -/
structure Again (m : Machine) (text : String) (issues : List Issue) : Prop where
  text : m.source.text = text
  issues : m.issues = issues
  current : m.current = true
  passes : m.passes = 1
  iterations : m.iterations = 0
  converged : m.converged = true

theorem Again.kept {m m' : Machine} {text : String} {issues : List Issue} (h : Again m text issues)
    (hk : Kept m m') : Again m' text issues where
  text := hk.text.trans h.text
  issues := hk.issues.trans h.issues
  current := hk.current.trans h.current
  passes := hk.passes.trans h.passes
  iterations := hk.iterations.trans h.iterations
  converged := hk.converged.trans h.converged

/-- An attempt to correct that comes to nothing is the last turn. The run may have been cancelled
before it, which makes no difference but for the mark. -/
theorem finish_of_declined (he : e.Functional) {m : Machine} (hs : m.stage = .correcting)
    (hm : m.source.Coherent) (hp : m.source.ParsedBy e.parser)
    (hnone : ∀ i ∈ m.issues, ∀ memory edit, ¬ Correction.Proposes e.correctors
      (e.shown m.source.path m.source.text memory) i edit) (w : World σ) :
    ∃ m' w', e.finish true m w = ⟨m', none, w'⟩ ∧ Kept m m' := by
  have hne : m.stage ≠ .done := by
    rw [hs]
    decide
  cases hc : w.cancelled with
  | true =>
    refine ⟨_, _, finish_of_last hne (step_of_cancelled hne hc) rfl, ?_⟩
    exact ⟨rfl, rfl, fun h => h, rfl, rfl, rfl, rfl, rfl, rfl, rfl, rfl⟩
  | false =>
    -- what the rules are shown now is what they declined to correct
    have hview := he.view_eq hm hp w w.memory
    have hnil := Correction.proposals_eq_nil (fun i hi edit => hnone i hi w.memory edit) 0
      (m.source.view e.parser w).2.2
    rw [← hview] at hnil
    refine ⟨_, _, finish_of_last hne (step_of_no_proposal hc hs hnil) rfl, ?_⟩
    exact ⟨Source.view_text _ _ _, Source.view_path _ _ _, fun h => h.view e.parser w, rfl, rfl,
      rfl, rfl, rfl, rfl, rfl, rfl⟩

/-- **The loop over a settled text**: one pass, and at most one attempt to correct that comes to
nothing. -/
theorem finish_again (he : e.Functional) {t : Source} (ht : t.Coherent) (htp : t.ParsedBy e.parser)
    {w : World σ} (hw : w.cancelled = false) {a : Analysis}
    (ha : (e.analyze (start true t).source w).1 = .ok a)
    (hsettled : Settled e t.path t.text a.issues) :
    ∃ m w', e.finish true (start true t) w = ⟨m, none, w'⟩ ∧ Again m t.text a.issues := by
  have hinit := Settling.initial ht htp
  have hsource := analyze_source e (start true t).source w
  have htext : (e.analyze (start true t).source w).2.1.text = t.text := by
    rw [hsource, Source.view_text]
    rfl
  have hpath : (e.analyze (start true t).source w).2.1.path = t.path := by
    rw [hsource, Source.view_path]
    rfl
  have hne : (start true t).stage ≠ .done := fun h => by cases h
  have hfirst : e.step true (start true t) w = _ := step_of_analysis hw rfl ha
  unfold afterAnalysis at hfirst
  cases hpend : a.issues.any (·.isPending) with
  | false =>
    -- nothing is pending: the pass is the only turn
    simp only [hpend, Bool.not_true, Bool.not_false, Bool.or_true, if_true] at hfirst
    exact ⟨_, _, finish_of_last hne hfirst rfl, htext, rfl, rfl, rfl, rfl, rfl⟩
  | true =>
    -- something is pending, and the budget allows for an attempt to correct it
    obtain ⟨hbudget, hnone⟩ : 0 < e.maxIterations ∧ ∀ i ∈ a.issues, ∀ memory edit,
        ¬ Correction.Proposes e.correctors (e.shown t.path t.text memory) i edit := by
      rcases hsettled with hsettled | hsettled
      · rw [hpend] at hsettled
        cases hsettled
      · exact hsettled
    have hgo : ¬ e.maxIterations ≤ (((start true t).iterations : Nat) : Int) := by
      change ¬ e.maxIterations ≤ ((0 : Nat) : Int)
      omega
    simp only [hpend, Bool.not_true, Bool.or_false, Bool.false_eq_true, if_false, hgo] at hfirst
    have hcoherent : (e.analyze (start true t).source w).2.1.Coherent := by
      rw [hsource]
      exact hinit.coherent.view e.parser w
    have hparsed : (e.analyze (start true t).source w).2.1.ParsedBy e.parser := by
      rw [hsource]
      exact hinit.parsed.view w
    rw [← hpath, ← htext] at hnone
    rw [finish_of_step hne (by rw [hfirst]), hfirst]
    obtain ⟨m', w', hfin, hkept⟩ := finish_of_declined he
      (m := { looked (start true t) (e.analyze (start true t).source w).2.1 a with
        stage := .correcting }) rfl hcoherent hparsed hnone (e.analyze (start true t).source w).2.2
    exact ⟨m', w', hfin, Again.kept ⟨htext, rfl, rfl, rfl, rfl, rfl⟩ hkept⟩

/-- How a run that converges without being aborted ends: it has looked at the final text, what it
found is settled, and a pass over a source with this text and path finds the same. -/
theorem exists_last_pass (he : e.Functional) {s : Source} (hs : s.Coherent)
    (hp : s.ParsedBy e.parser) {w : World σ} (hc : (e.process true s w).1.converged = true)
    (ha : (e.process true s w).1.aborted = false) :
    ∃ p, (e.passes true s w).getLast? = some p ∧
      (∀ i ∈ (e.process true s w).1.issues, i.isPending = true → i ∈ p.issues) ∧
      Settled e (e.process true s w).1.source.path (e.process true s w).1.source.text p.issues ∧
      ∃ t w₀ a, t.Coherent ∧ t.ParsedBy e.parser ∧
        t.path = (e.process true s w).1.source.path ∧
        t.text = (e.process true s w).1.source.text ∧
        (e.analyze t w₀).1 = .ok a ∧ a.issues = p.issues := by
  let Inv := fun past (m : Machine) (_ : World σ) =>
    Tracked e s past m ∧ Standing e past m ∧ Settling e past m
  have hstep : ∀ past m w, Inv past m w → m.stage ≠ .done → (e.step true m w).fault = none →
      Inv (past ++ [(m, w)]) (e.step true m w).machine (e.step true m w).world := by
    rintro past m w ⟨ht, hst, hset⟩ hd hf
    have hmoves := moves_step hd hf
    exact ⟨ht.step hmoves.effect, hst.step hd hmoves.effect, hset.step he hmoves⟩
  have hinit : Inv [] (start true s) w :=
    ⟨Tracked.initial hs, Standing.initial s, Settling.initial hs hp⟩
  rcases finish_cases Inv hstep hinit with
    ⟨m, w', ⟨ht, hst, hset⟩, hdone, hfin⟩ | ⟨past, m, w', f, -, -, hf, hfin, -⟩
  · have hreport := congrArg Prod.fst (process_of_ok hfin)
    rw [hreport] at hc ha ⊢
    change m.converged = true at hc
    change m.aborted = false at ha
    cases hst with
    | ahead _ haborted _ _ _ =>
      -- a loop that ends before a pass over its text has been aborted
      rw [haborted hdone] at ha
      cases ha
    | looked p hl _ _ htext hcur hissues _ =>
      have hissues' : m.issues = p.issues := by
        rw [hissues, listed, if_pos hc]
      have hsettled := hset.settled hdone ha hc
      rw [hissues'] at hsettled
      -- a pending issue of the report is neither corrected nor in conflict, so the last pass found
      -- it
      refine ⟨p, hl, fun i hi hpend => ?_, hsettled, ?_⟩
      · have hstatus := Issue.status_of_isPending hpend
        rw [← hissues']
        exact (mem_issues_of_mem_finalIssues ht hi (by rw [hstatus]; decide)
          (by rw [hstatus]; decide)).2
      · obtain ⟨t, w₀, a, htc, htp, hpath, htt, hans, hai⟩ := hset.found p hl
        exact ⟨t, w₀, a, htc, htp, hpath, htt.trans htext, hans, hai⟩
  · -- a source that was given up has not converged
    rw [process_of_fault (by rw [hfin, hf])] at hc
    cases hc

/-- A report over a settled text, told from the loop. -/
theorem finalIssues_of_again {t : Source} {past : List (Machine × World σ)} {m : Machine}
    {text : String} {issues : List Issue} (h : Tracked e t past m) (ha : Again m text issues) :
    e.roundsOf past = [] ∧ finalIssues m = byLocation issues := by
  -- as many rounds as revisions, which are none
  have hrounds : e.roundsOf past = [] := by
    rw [← List.length_eq_zero_iff, ← h.iterations, ha.iterations]
  have hcorrected : m.corrected = [] := by
    rw [h.corrected, hrounds]
    rfl
  have hconflicts : m.conflicts = [] := by
    rw [h.conflicts, hrounds]
    rfl
  refine ⟨hrounds, ?_⟩
  rw [finalIssues, if_pos ha.current, hcorrected, hconflicts, ha.issues]
  rfl

/-- **Another run over a settled text** makes one pass and revises nothing. -/
theorem process_again (he : e.Functional) {t : Source} (ht : t.Coherent)
    (htp : t.ParsedBy e.parser) {w : World σ} (hw : w.cancelled = false) {a : Analysis}
    (ha : (e.analyze (start true t).source w).1 = .ok a)
    (hsettled : Settled e t.path t.text a.issues) :
    (e.process true t w).1.source.text = t.text ∧ e.rounds true t w = [] ∧
      (e.process true t w).1.passes = 1 ∧ (e.process true t w).1.iterations = 0 ∧
      (e.process true t w).1.converged = true ∧
      (e.process true t w).1.issues = byLocation a.issues := by
  obtain ⟨m, w', hfin, hagain⟩ := finish_again he ht htp hw ha hsettled
  have hreport := congrArg Prod.fst (process_of_ok hfin)
  rw [hreport]
  -- the history is that of the run that was found to end at once
  rcases finish_history e true ht w with ⟨m', w'', htracked, -, -, hfin'⟩ | ⟨f, hf⟩
  · rw [hfin] at hfin'
    cases hfin'
    obtain ⟨hrounds, hissues⟩ := finalIssues_of_again htracked hagain
    exact ⟨hagain.text, hrounds, hagain.passes, hagain.iterations, hagain.converged, hissues⟩
  · rw [hfin] at hf
    cases hf

/-- **Corrected texts are fixpoints.** Suppose that what rules and parser answer depends on the text
and the path alone, and that a source of a run that corrects ends up converged and not aborted.
Then no pending issue of the final text gets from its rule an edit that passes the bounds check;
and whenever the engine is run again on a fresh source with the final text and the same path, it
leaves the text alone, applies no edit, takes one pass and no iteration, converges, and lists the
issues of the last pass of the first run. -/
theorem run_fixpoint (e : Engine σ) (he : e.Functional) (ss : List Source) (w : World σ) (k : Nat)
    (s : Source) (hk : ss[k]? = some s) (hs : s.Coherent) (hp : s.ParsedBy e.parser)
    (r : SourceReport) (hr : (e.run true ss w).1.sources[k]? = some r)
    (hc : r.converged = true) (ha : r.aborted = false) :
    (∀ i ∈ r.issues, i.isPending = true →
      ∀ rule, Correction.ruleFor e.correctors i = some rule → ∀ memory memory' edit,
        (rule.correct (e.shown r.source.path r.source.text memory) i memory').answer
          = .ok (some edit) →
        Correction.checkBounds (Utf8.ofString r.source.text).length i edit ≠ .ok ()) ∧
    ∃ p, (e.passes true s (e.takenUp true ss w.resume k)).getLast? = some p ∧
      ∀ w', ∃ r',
        (e.run true [Source.ofText r.source.text r.source.path] w').1.sources = [r'] ∧
        r'.source.text = r.source.text ∧
        e.rounds true (Source.ofText r.source.text r.source.path) w'.resume = [] ∧
        r'.passes = 1 ∧ r'.iterations = 0 ∧ r'.converged = true ∧
        r'.issues = byLocation p.issues ∧ r'.issues.Perm p.issues := by
  have hprocess : r = (e.process true s (e.takenUp true ss w.resume k)).1 := by
    rw [getElem?_run_sources, hk] at hr
    injection hr with hr
    exact hr.symm
  rw [hprocess] at hc ha
  obtain ⟨p, hl, hpending, hsettled, t, w₀, a, ht, htp, hpath, htext, hans, hissues⟩ :=
    exists_last_pass he hs hp hc ha
  rw [← hprocess] at hpending hsettled hpath htext
  refine ⟨fun i hi hpend rule hrule memory memory' edit hedit hbounds => ?_, p, hl, fun w' => ?_⟩
  · -- the last pass found nothing pending, or nothing was proposed for what it found
    rcases hsettled with hsettled | ⟨-, hsettled⟩
    · have hany : p.issues.any (·.isPending) = true :=
        List.any_eq_true.mpr ⟨i, hpending i hi hpend, hpend⟩
      rw [hsettled] at hany
      cases hany
    · -- an edit that passes the check would have been proposed
      refine hsettled i (hpending i hi hpend) memory edit ⟨rule, memory', ?_, ?_⟩
      · exact Correction.answerer_eq_some.mpr ⟨hpend, hrule⟩
      · rw [hedit, Correction.verdict]
        change (Correction.checkBounds (Utf8.ofString r.source.text).length i edit).map _ = _
        rw [hbounds]
        rfl
  · have hfresh := Source.coherent_ofText r.source.text r.source.path
    have hunread := Source.parsedBy_ofText e.parser r.source.text r.source.path
    have hinit := Settling.initial hfresh hunread
    -- the pass of the second run finds what the last pass of the first one found
    have hsame := he.analyze_fst hinit.coherent hinit.parsed ht htp htext.symm hpath.symm w'.resume
      w₀
    rw [hans] at hsame
    rw [← hissues] at hsettled ⊢
    obtain ⟨htext', hrounds, hpasses, hiterations, hconverged, hlist⟩ :=
      process_again he hfresh hunread (w := w'.resume) rfl hsame hsettled
    refine ⟨_, run_singleton e true _ w', htext', hrounds, hpasses, hiterations, hconverged, hlist,
      ?_⟩
    rw [hlist]
    exact List.mergeSort_perm _ _

theorem wordKind_functional (id : Nat) (profile : RuleProfile) (spec : Scripted.WordSpec) :
    (Rule.ofKind (Scripted.wordKind id profile spec)).Functional where
  detect _ _ _ := rfl
  correct _ _ _ _ := rfl

theorem handingRule_functional (give : Issue → List Issue) : (handingRule give).Functional where
  detect _ _ _ := rfl
  correct _ _ _ _ := rfl

theorem unparsable_functional : (Rule.ofKind Rules.unparsable : Rule σ).Functional where
  detect _ _ _ := rfl
  correct _ _ _ _ := rfl

/-- **The specimen may have other rules**, as long as none of them looks at its memory: the parse
rule and the parser do not. -/
theorem functional_of_rules {rules : List (Rule Tally)} (h : ∀ r ∈ rules, r.Functional) :
    { specimen with rules := rules }.Functional := by
  have hall : ∀ r ∈ ({ specimen with rules := rules } : Engine Tally).correctors,
      r.Functional := by
    intro r hr
    -- The rule for parse failures is asked as well, though it is not among the rules given.
    rcases mem_correctors.mp hr with hr | rfl
    · exact h r hr
    · exact unparsable_functional
  exact ⟨fun _ _ _ => rfl, fun r hr => (hall r hr).detect, fun r hr => (hall r hr).correct⟩

theorem specimen_functional : specimen.Functional := by
  refine functional_of_rules fun r hr => ?_
  rcases List.mem_cons.mp hr with rfl | hr
  · exact wordKind_functional _ _ _
  · rw [List.mem_singleton.mp hr]
    exact wordKind_functional _ _ _

/-- A run that corrects a text, and another one over the outcome. -/
theorem specimen_fixpoint :
    ∃ r, (specimen.run true [Source.ofText "a"] ⟨{}, false, []⟩).1.sources[0]? = some r ∧
      r.iterations = 1 ∧
      ∃ r', (specimen.run true [Source.ofText r.source.text r.source.path]
          ⟨{}, false, []⟩).1.sources = [r'] ∧
        r'.source.text = r.source.text ∧ r'.passes = 1 ∧ r'.iterations = 0 := by
  refine ⟨(specimen.process true (Source.ofText "a") ⟨{}, false, []⟩).1, rfl, by decide +kernel,
    ?_⟩
  -- the second run starts from the text that the first one left
  obtain ⟨-, p, -, hagain⟩ := run_fixpoint specimen specimen_functional [Source.ofText "a"]
    ⟨{}, false, []⟩ 0 (Source.ofText "a") rfl (Source.coherent_ofText _ _)
    (Source.parsedBy_ofText _ _ _)
    (specimen.process true (Source.ofText "a") ⟨{}, false, []⟩).1 rfl (by decide +kernel)
    (by decide +kernel)
  obtain ⟨r', hsources, htext, -, hpasses, hiterations, -⟩ := hagain ⟨{}, false, []⟩
  exact ⟨r', hsources, htext, hpasses, hiterations⟩

end Engine

end Lintel
