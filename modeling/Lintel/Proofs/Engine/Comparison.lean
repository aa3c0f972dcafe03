import Lintel.Proofs.Engine.Cancellation
import Lintel.Proofs.Engine.Exclusion

/-!
# Comparing turns of two engines

Two statements about runs compare one run with another: that sources do not depend on each other,
however their turns are interleaved, and that a rule which always fails does not disturb the others.
In the one case the worlds are different and the engine is the same, in the other the engines differ
as well. This file collects what the two have in common.

* **Memory.** Rules and the parser share one memory. The parser keeps to a part of it
  (`Parser.KeepsTo`), and the rules leave that part alone (`Rule.Spares`). So the parser may count
  its calls, and still gives the same answers in both runs as long as it is asked the same.
* **Engines.** One engine follows another (`Engine.Follows`) if it has the same parser, parse rule
  and budget, and if its rules find the same. What they put on record may be something else, and a
  parameter says in which way.
* **Turns.** From machines that differ in their diagnostics only, the turns of the two engines raise
  the same fault or lead to machines that differ in their diagnostics only (`Follows.step`).
* **Cancellation.** The flag stays up once it is raised. A run at whose end it is down was not
  cancelled on the way.
-/

namespace Lintel

variable {σ τ : Type}

theorem World.Drifts.trans {w w' w'' : World σ} (h : w.Drifts w') (h' : w'.Drifts w'') :
    w.Drifts w'' :=
  fun hc => h' (h hc)

theorem World.Drifts.down {w w' : World σ} (h : w.Drifts w') (hc : w'.cancelled = false) :
    w.cancelled = false := by
  cases hw : w.cancelled with
  | false => rfl
  | true =>
    rw [h hw] at hc
    cases hc

/-! ### Parts of the memory -/

structure Rule.Spares (r : Rule σ) (part : σ → τ) : Prop where
  detect : ∀ v memory, part (r.detect v memory).memory = part memory
  correct : ∀ v i memory, part (r.correct v i memory).memory = part memory

/-- The parser keeps to a part of the memory. What it answers, and what becomes of this part,
depends on nothing but the text and this part. -/
structure Parser.KeepsTo (parser : Parser σ) (part : σ → τ) : Prop where
  answer : ∀ text memory memory', part memory = part memory' →
    (parser text memory).answer = (parser text memory').answer
  memory : ∀ text memory memory', part memory = part memory' →
    part (parser text memory).memory = part (parser text memory').memory

namespace Source

variable {parser : Parser σ} {part : σ → τ} {w w' : World σ}

/-- Parsing a text in two worlds in which the parser finds the same. -/
theorem reparse_congr (hp : parser.KeepsTo part) (s : Source)
    (h : part w'.memory = part w.memory) :
    (s.reparse parser w').1 = (s.reparse parser w).1 ∧
      (s.reparse parser w').2.1 = (s.reparse parser w).2.1 ∧
      part (s.reparse parser w').2.2.memory = part (s.reparse parser w).2.2.memory := by
  -- the parser sees the part and nothing else, and leaves it in the same state
  have hmemory : part (s.reparse parser w').2.2.memory = part (s.reparse parser w).2.2.memory := by
    rw [reparse_world, reparse_world, World.after_memory, World.after_memory]
    exact hp.memory s.text _ _ h
  refine ⟨?_, ?_, hmemory⟩
  · rw [reparse_fst, reparse_fst, hp.answer s.text _ _ h]
  · unfold reparse reparseIn Language.ofParser
    simp only [bytes_text]
    rw [hp.answer s.text _ _ h]
    split <;> rfl

theorem parse_congr (hp : parser.KeepsTo part) (s : Source) (h : part w'.memory = part w.memory) :
    (s.parse parser w').1 = (s.parse parser w).1 ∧
      (s.parse parser w').2.1 = (s.parse parser w).2.1 ∧
      part (s.parse parser w').2.2.memory = part (s.parse parser w).2.2.memory := by
  rw [parse_eq, parse_eq]
  split
  · exact ⟨rfl, rfl, h⟩
  · exact s.reparse_congr hp h

/-- What rules are shown of a source in two worlds in which the parser finds the same. -/
theorem view_congr (hp : parser.KeepsTo part) (s : Source) (h : part w'.memory = part w.memory) :
    (s.view parser w').1 = (s.view parser w).1 ∧
      (s.view parser w').2.1 = (s.view parser w).2.1 ∧
      part (s.view parser w').2.2.memory = part (s.view parser w).2.2.memory := by
  -- the view is made of the source and of the outcome of parsing
  obtain ⟨hfst, hsource, hmemory⟩ := s.parse_congr hp h
  refine ⟨?_, ?_, ?_⟩
  · change ((s.parse parser w').2.1.viewWith (s.parse parser w').1).1 = _
    rw [hfst, hsource]
    rfl
  · change ((s.parse parser w').2.1.viewWith (s.parse parser w').1).2 = _
    rw [hfst, hsource]
    rfl
  · rw [view_world, view_world]
    exact hmemory

end Source

namespace Engine

variable {e e' : Engine σ} {part : σ → τ} {ac : Bool}

theorem detectAll_part {rs : List (Rule σ)} (h : ∀ r ∈ rs, r.Spares part) (v : View) (w : World σ) :
    part (detectAll v rs w).2.memory = part w.memory := by
  induction rs generalizing w with
  | nil => rfl
  | cons r rs ih =>
    rw [detectAll_cons, ih fun q hq => h q (List.mem_cons_of_mem _ hq), detectWith_world,
      World.after_memory]
    exact (h r List.mem_cons_self).detect v w.memory

theorem analyzeBroken_part (h : e.parseRule.Spares part) (v : View) (w : World σ) :
    part (e.analyzeBroken v w).2.memory = part w.memory := by
  unfold analyzeBroken
  simp only
  split <;> exact h.detect v w.memory

theorem gatherFrom_part {rules : List (Rule σ)} (h : ∀ r ∈ rules, r.Spares part) (v : View)
    (index : Nat) (issues : List Issue) (w : World σ) :
    part (Correction.gatherFrom rules v index issues w).world.memory = part w.memory := by
  induction issues generalizing index w with
  | nil => rfl
  | cons i more ih =>
    cases ha : Correction.answerer rules i with
    | none =>
      rw [Correction.gatherFrom_cons_none ha]
      exact ih _ _
    | some rule =>
      rw [Correction.gatherFrom_cons_some ha, Correction.Gathered.add_world, ih, World.after_memory]
      -- the rule that is asked is one of those that leave the part alone
      exact (h rule (Correction.mem_of_answerer ha)).correct v i w.memory

/-! ### The flag stays up -/

theorem step_drifts (e : Engine σ) (ac : Bool) (m : Machine) (w : World σ) :
    w.Drifts (e.step ac m w).world := by
  by_cases hd : m.stage = .done
  · rw [step, if_pos hd]
    exact .refl w
  · cases hc : w.cancelled with
    | true =>
      rw [step_of_cancelled hd hc]
      exact .refl w
    | false =>
      -- a flag that is down may be raised
      intro hup
      rw [hc] at hup
      cases hup

theorem finish_drifts (e : Engine σ) (ac : Bool) (m : Machine) (w : World σ) :
    w.Drifts (e.finish ac m w).world := by
  -- A run ends at a machine that is done, or in the turn that failed, which drifts once more.
  rcases finish_cases (fun _ _ w' => w.Drifts w')
    (fun past m' w' h _ _ => h.trans (step_drifts e ac m' w')) (m := m) (.refl w) with
    ⟨m', w', h, -, hfin⟩ | ⟨past, m', w', f, h, -, -, hfin, -⟩
  · rw [hfin]
    exact h
  · rw [hfin]
    exact h.trans (step_drifts e ac m' w')

theorem processAll_drifts (e : Engine σ) (ac : Bool) (ss : List Source) (w : World σ) :
    w.Drifts (e.processAll ac ss w).2 := by
  induction ss generalizing w with
  | nil => exact .refl w
  | cons s ss ih =>
    have hfirst : w.Drifts (e.process ac s w).2 := by
      rw [process_world]
      exact finish_drifts e ac _ w
    exact hfirst.trans (ih _)

/-- Where the flag is down at the end of a run, it is down at the end of each of its loops. -/
theorem drifts_processAll {ss : List Source} {k : Nat} {s : Source} (hk : ss[k]? = some s)
    (e : Engine σ) (ac : Bool) (w : World σ) :
    (e.finish ac (start ac s) (e.takenUp ac ss w k)).world.Drifts (e.processAll ac ss w).2 := by
  induction ss generalizing w k with
  | nil => cases hk
  | cons first ss ih =>
    cases k with
    | zero =>
      cases hk
      have hdrifts : (e.process ac s w).2.Drifts (e.processAll ac (s :: ss) w).2 :=
        processAll_drifts e ac ss (e.process ac s w).2
      rw [process_world] at hdrifts
      exact hdrifts
    -- the flag of an earlier source is passed on to all later ones
    | succ k => exact ih hk (e.process ac first w).2

/-! ### Engines that follow others -/

/-- **One engine follows another**: their rules find the same, and the same rules are asked for
corrections; `extra` relates what the one and the other put on record in a pass over a text that
parses. -/
structure Follows (e e' : Engine σ) (part : σ → τ)
    (extra : Option String → List Diagnostic → List Diagnostic → Prop) : Prop where
  parser : e'.parser = e.parser
  parseRule : e'.parseRule = e.parseRule
  maxIterations : e'.maxIterations = e.maxIterations
  keeps : e.parser.KeepsTo part
  functional : ∀ r ∈ e.correctors, r.Functional
  spares : ∀ r ∈ e.correctors, r.Spares part
  spares' : ∀ r ∈ e'.correctors, r.Spares part
  found : ∀ v w w', (detectAll v (e'.applicable v.path) w').1.flatMap (·.found)
    = (detectAll v (e.applicable v.path) w).1.flatMap (·.found)
  recorded : ∀ v w w', extra v.path
    ((detectAll v (e.applicable v.path) w).1.filterMap (·.diagnostic))
    ((detectAll v (e'.applicable v.path) w').1.filterMap (·.diagnostic))

def accepts (e : Engine σ) (s : Source) (w : World σ) : Bool :=
  match (s.view e.parser w).1.parsed with
  | .ok p => p.isValid
  | .error _ => false

/-- A pass over a text that parses is completed from the state. -/
def acceptsFrom (e : Engine σ) (t : Machine × World σ) : Bool :=
  (e.passFrom t).isSome && e.accepts t.1.source t.2

variable {extra : Option String → List Diagnostic → List Diagnostic → Prop}

section Analysis

variable {s : Source} {w : World σ}

theorem analyze_of_fault {f : Fault} (hp : (s.view e.parser w).1.parsed = .error f) :
    e.analyze s w = (.error f, (s.view e.parser w).2.1, (s.view e.parser w).2.2) := by
  unfold analyze
  simp only [hp]

theorem analyze_of_valid {p : Parsed} (hp : (s.view e.parser w).1.parsed = .ok p)
    (hv : p.isValid = true) :
    e.analyze s w
      = (.ok (e.analyzeValid (s.view e.parser w).1 (s.view e.parser w).2.2).1,
          (s.view e.parser w).2.1,
          (e.analyzeValid (s.view e.parser w).1 (s.view e.parser w).2.2).2) := by
  unfold analyze
  simp only [hp, hv, if_true]

theorem analyze_of_broken {p : Parsed} (hp : (s.view e.parser w).1.parsed = .ok p)
    (hv : p.isValid = false) :
    e.analyze s w
      = ((e.analyzeBroken (s.view e.parser w).1 (s.view e.parser w).2.2).1,
          (s.view e.parser w).2.1,
          (e.analyzeBroken (s.view e.parser w).1 (s.view e.parser w).2.2).2) := by
  unfold analyze
  simp only [hp, hv, Bool.false_eq_true, if_false]

end Analysis

theorem Follows.analyzeValid (h : e.Follows e' part extra) (v : View) (w w' : World σ) :
    (e'.analyzeValid v w').1.issues = (e.analyzeValid v w).1.issues ∧
      extra v.path (e.analyzeValid v w).1.diagnostics (e'.analyzeValid v w').1.diagnostics := by
  refine ⟨?_, h.recorded v w w'⟩
  change silence v.text (byStart ((detectAll v (e'.applicable v.path) w').1.flatMap (·.found))) = _
  rw [h.found v w w']
  rfl

theorem Follows.analyzeBroken (h : e.Follows e' part extra) (v : View) (w w' : World σ) :
    (e'.analyzeBroken v w').1 = (e.analyzeBroken v w).1 := by
  have hrule := h.functional e.parseRule (mem_correctors.mpr (.inr rfl))
  unfold Engine.analyzeBroken
  simp only
  rw [h.parseRule, hrule.detect v w'.memory w.memory]
  split <;> rfl

theorem analyzeValid_part (h : ∀ r ∈ e.correctors, r.Spares part) (v : View) (w : World σ) :
    part (e.analyzeValid v w).2.memory = part w.memory :=
  detectAll_part (fun r hr => h r (mem_correctors.mpr (.inl (List.mem_filter.mp hr).1))) v w

/-- **Passes of two engines** over one source find the same, or fail with the same fault. -/
theorem Follows.analyze (h : e.Follows e' part extra) (s : Source) {w w' : World σ}
    (hpart : part w'.memory = part w.memory) :
    (e'.analyze s w').2.1 = (e.analyze s w).2.1 ∧
      part (e'.analyze s w').2.2.memory = part (e.analyze s w).2.2.memory ∧
      ((∃ f, (e.analyze s w).1 = .error f ∧ (e'.analyze s w').1 = .error f) ∨
        ∃ a a', (e.analyze s w).1 = .ok a ∧ (e'.analyze s w').1 = .ok a' ∧ a'.issues = a.issues ∧
          if e.accepts s w = true then extra s.path a.diagnostics a'.diagnostics
          else a'.diagnostics = a.diagnostics) := by
  obtain ⟨hview, hsource, hmemory⟩ := s.view_congr h.keeps hpart
  have hpath := view_path (e := e) s w
  refine ⟨by rw [analyze_source, analyze_source, h.parser, hsource], ?_⟩
  cases hp : (s.view e.parser w).1.parsed with
  | error f =>
    have hp' : (s.view e'.parser w').1.parsed = .error f := by
      rw [h.parser, hview]
      exact hp
    -- the parser has failed in both passes
    rw [analyze_of_fault hp, analyze_of_fault hp', h.parser]
    exact ⟨hmemory, .inl ⟨f, rfl, rfl⟩⟩
  | ok p =>
    have hp' : (s.view e'.parser w').1.parsed = .ok p := by
      rw [h.parser, hview]
      exact hp
    -- the rules are asked about a text that parses, and only here the engines differ
    cases hv : p.isValid with
    | true =>
      have haccepts : e.accepts s w = true := by
        rw [accepts, hp]
        exact hv
      rw [analyze_of_valid hp hv, analyze_of_valid hp' hv, h.parser, hview]
      obtain ⟨hissues, hextra⟩ := h.analyzeValid (s.view e.parser w).1 (s.view e.parser w).2.2
        (s.view e.parser w').2.2
      refine ⟨?_, .inr ⟨_, _, rfl, rfl, hissues, ?_⟩⟩
      · rw [analyzeValid_part h.spares, analyzeValid_part h.spares']
        exact hmemory
      · rw [if_pos haccepts, ← hpath]
        exact hextra
    | false =>
      -- only the parse rule is asked, and it is the same rule
      have hrejects : ¬e.accepts s w = true := by
        rw [accepts, hp]
        simp [hv]
      rw [analyze_of_broken hp hv, analyze_of_broken hp' hv, h.parser, hview, h.analyzeBroken]
      have hmem : e.parseRule ∈ e.correctors := mem_correctors.mpr (.inr rfl)
      have hmem' : e'.parseRule ∈ e'.correctors := mem_correctors.mpr (.inr rfl)
      refine ⟨?_, ?_⟩
      · rw [analyzeBroken_part (h.spares _ hmem), analyzeBroken_part (h.spares' _ hmem')]
        exact hmemory
      · cases ha : (e.analyzeBroken (s.view e.parser w).1 (s.view e.parser w).2.2).1 with
        | error f => exact .inl ⟨f, rfl, rfl⟩
        | ok a => exact .inr ⟨a, a, rfl, rfl, rfl, by rw [if_neg hrejects]⟩

/-! ### Turns of two engines -/

def withRecord (m : Machine) (ds : List Diagnostic) : Machine :=
  { m with diagnostics := ds }

@[simp] theorem withRecord_source (m : Machine) (ds : List Diagnostic) :
    (withRecord m ds).source = m.source := rfl

@[simp] theorem withRecord_start (s : Source) : withRecord (start ac s) [] = start ac s := rfl

/-- **Two turns that differ in what is put on record only.** The one has added `new` to the
diagnostics of its machine, the other has added `new'` to others. -/
structure Echoes (part : σ → τ) (old old' new new' : List Diagnostic) (t t' : Turn σ) : Prop where
  fault : t'.fault = t.fault
  diagnostics : t.machine.diagnostics = old ++ new
  machine : t'.machine = withRecord t.machine (old' ++ new')
  memory : part t'.world.memory = part t.world.memory

theorem Echoes.silent {old old' : List Diagnostic} {t t' : Turn σ} (hf : t'.fault = t.fault)
    (ho : t.machine.diagnostics = old) (hm : t'.machine = withRecord t.machine old')
    (hmemory : part t'.world.memory = part t.world.memory) : Echoes part old old' [] [] t t' where
  fault := hf
  diagnostics := by rw [ho, List.append_nil]
  machine := by rw [hm, List.append_nil]
  memory := hmemory

theorem Echoes.trans {old old' new new' more more' : List Diagnostic} {t t' u u' : Turn σ}
    (h : Echoes part old old' new new' t t')
    (h' : Echoes part t.machine.diagnostics (old' ++ new') more more' u u') :
    Echoes part old old' (new ++ more) (new' ++ more') u u' where
  fault := h'.fault
  diagnostics := by rw [h'.diagnostics, h.diagnostics, List.append_assoc]
  machine := by rw [h'.machine, List.append_assoc]
  memory := h'.memory

theorem afterAnalysis_record (ac : Bool) (h : e'.maxIterations = e.maxIterations) (m : Machine)
    {a a' : Analysis} (ha : a'.issues = a.issues) (old' : List Diagnostic) :
    (e.afterAnalysis ac m a).diagnostics = m.diagnostics ++ a.diagnostics ∧
      e'.afterAnalysis ac (withRecord m old') a'
        = withRecord (e.afterAnalysis ac m a) (old' ++ a'.diagnostics) := by
  unfold afterAnalysis withRecord
  simp only [h, ha]
  -- What comes next is decided by the issues, never by the record.
  split
  · exact ⟨rfl, rfl⟩
  · split
    · exact ⟨rfl, rfl⟩
    · exact ⟨rfl, rfl⟩

theorem Agree.afterCorrection_record {c c' : Correction σ} (hc : Agree c c')
    (hs : c'.source = c.source) (m : Machine) (old' : List Diagnostic) :
    (afterCorrection m c).diagnostics = m.diagnostics ++ c.diagnostics ∧
      afterCorrection (withRecord m old') c'
        = withRecord (afterCorrection m c) (old' ++ c.diagnostics) := by
  unfold afterCorrection withRecord
  simp only [hc.changed, hc.issuesAt, hc.issues, hc.corrected, hc.conflicts, hc.edits,
    hc.diagnostics, hs]
  split
  · exact ⟨rfl, rfl⟩
  · exact ⟨rfl, rfl⟩

/-- Passes of correction of two engines over one source, if the same rules answer for its issues. -/
theorem Follows.correction (h : e.Follows e' part extra) {m : Machine} {w w' : World σ}
    (hpart : part w'.memory = part w.memory)
    (hans : ∀ i ∈ m.issues,
      Correction.answerer e'.correctors i = Correction.answerer e.correctors i)
    (old' : List Diagnostic) :
    Agree (e.correction m w) (e'.correction (withRecord m old') w') ∧
      (e'.correction (withRecord m old') w').source = (e.correction m w).source ∧
      part (e'.correction (withRecord m old') w').world.memory
        = part (e.correction m w).world.memory := by
  obtain ⟨hview, hsource, hmemory⟩ := m.source.view_congr h.keeps hpart
  unfold Engine.correction withRecord
  simp only [h.parser, hview, hsource]
  -- asked about the same issues in the same view, the rules propose the same
  obtain ⟨hproposals, hdiagnostics⟩ := Correction.gatherFrom_congr
    (v := (m.source.view e.parser w).1) hans
    (fun i _ rule ha => (h.functional rule (Correction.mem_of_answerer ha)).correct _ i) 0
    (m.source.view e.parser w).2.2 (m.source.view e.parser w').2.2
  obtain ⟨hagree, hcases⟩ := apply_agree hproposals hdiagnostics (m.source.view e.parser w).2.1
    (m.source.view e.parser w).2.1
  refine ⟨hagree, ?_, ?_⟩
  · rcases hcases with ⟨hs, hs'⟩ | ⟨text, hs, hs'⟩ <;> rw [hs, hs']
  · rw [Correction.apply_world, Correction.apply_world, gatherFrom_part h.spares,
      gatherFrom_part h.spares']
    exact hmemory

theorem acceptsFrom_of_stage {m : Machine} {w : World σ} (hs : m.stage ≠ .analyzing) :
    e.acceptsFrom (m, w) = false := by
  rw [acceptsFrom, passFrom_of_stage rfl hs]
  rfl

/-- **Turns that look** differ in what a pass over a text that parses puts on record. -/
theorem Follows.analyzeStep (h : e.Follows e' part extra) (ac : Bool) {m : Machine} {w w' : World σ}
    (hc : w.cancelled = false) (hs : m.stage = .analyzing) (hpart : part w'.memory = part w.memory)
    (old' : List Diagnostic) :
    ∃ new new', Echoes part m.diagnostics old' new new' (e.analyzeStep ac m w)
        (e'.analyzeStep ac (withRecord m old') w') ∧
      if e.acceptsFrom (m, w) = true then extra m.source.path new new' else new' = new := by
  obtain ⟨hsource, hmemory, hcases⟩ := h.analyze m.source hpart
  rcases hcases with ⟨f, ha, ha'⟩ | ⟨a, a', ha, ha', hissues, hnew⟩
  · refine ⟨[], [], ?_, ?_⟩
    · rw [analyzeStep_of_error ha, analyzeStep_of_error (m := withRecord m old') ha',
        withRecord_source, hsource]
      exact .silent rfl rfl rfl hmemory
    · -- A pass that was given up is none.
      have hnone : e.passFrom (m, w) = none := by
        unfold passFrom
        simp [hc, hs, ha]
      rw [acceptsFrom, hnone]
      rfl
  · refine ⟨a.diagnostics, a'.diagnostics, ?_, ?_⟩
    · rw [analyzeStep_of_ok ha, analyzeStep_of_ok (m := withRecord m old') ha',
        withRecord_source, hsource]
      obtain ⟨hold, hmachine⟩ := afterAnalysis_record ac h.maxIterations
        { m with source := (e.analyze m.source w).2.1 } hissues old'
      exact ⟨rfl, hold, hmachine, hmemory⟩
    · rw [acceptsFrom, passFrom_of_analyze hc hs ha]
      exact hnew

/-- **Turns that correct** put the same on record. -/
theorem Follows.correctStep (h : e.Follows e' part extra) {m : Machine} {w w' : World σ}
    (hpart : part w'.memory = part w.memory)
    (hans : ∀ i ∈ m.issues,
      Correction.answerer e'.correctors i = Correction.answerer e.correctors i)
    (old' : List Diagnostic) :
    ∃ new, Echoes part m.diagnostics old' new new (e.correctStep m w)
      (e'.correctStep (withRecord m old') w') := by
  obtain ⟨hagree, hsource, hmemory⟩ := h.correction hpart hans old'
  cases hf : (e.correction m w).fault with
  -- given up: neither engine adds to its record
  | some f =>
    refine ⟨[], ?_⟩
    rw [correctStep_of_fault hf, correctStep_of_fault (hagree.fault.trans hf), hsource,
      hagree.issues]
    exact .silent rfl rfl rfl hmemory
  | none =>
    refine ⟨(e.correction m w).diagnostics, ?_⟩
    rw [correctStep_of_none hf, correctStep_of_none (hagree.fault.trans hf)]
    obtain ⟨hold, hmachine⟩ := hagree.afterCorrection_record hsource m old'
    exact ⟨rfl, hold, hmachine, hmemory⟩

/-- **Turns that parse** put nothing on record. -/
theorem Follows.reparseStep (h : e.Follows e' part extra) {m : Machine} {w w' : World σ}
    (hpart : part w'.memory = part w.memory) (old' : List Diagnostic) :
    Echoes part m.diagnostics old' [] [] (e.reparseStep m w)
      (e'.reparseStep (withRecord m old') w') := by
  obtain ⟨hfst, hsource, hmemory⟩ := m.source.reparse_congr h.keeps hpart
  rw [reparseStep_eq, reparseStep_eq]
  simp only [withRecord_source, h.parser, hfst, hsource]
  cases (m.source.reparse e.parser w).1 with
  | error f => exact .silent rfl rfl rfl hmemory
  | ok p => exact .silent rfl rfl rfl hmemory

/-- **A turn of one engine and a turn of another that follows it.** -/
theorem Follows.step (h : e.Follows e' part extra) (ac : Bool) {m : Machine} {w w' : World σ}
    (hd : m.stage ≠ .done) (hc : w.cancelled = false) (hc' : w'.cancelled = false)
    (hpart : part w'.memory = part w.memory)
    (hans : ∀ i ∈ m.issues,
      Correction.answerer e'.correctors i = Correction.answerer e.correctors i)
    (old' : List Diagnostic) :
    ∃ new new', Echoes part m.diagnostics old' new new' (e.step ac m w)
        (e'.step ac (withRecord m old') w') ∧
      if e.acceptsFrom (m, w) = true then extra m.source.path new new' else new' = new := by
  cases hs : m.stage with
  | done => exact absurd hs hd
  -- the only stage in which the rules of one engine can say more than the other
  | analyzing =>
    rw [step_analyzing hc hs, step_analyzing hc' (m := withRecord m old') hs]
    exact h.analyzeStep ac hc hs hpart old'
  | correcting =>
    rw [step_correcting hc hs, step_correcting hc' (m := withRecord m old') hs,
      acceptsFrom_of_stage (by rw [hs]; decide)]
    obtain ⟨new, hecho⟩ := h.correctStep hpart hans old'
    exact ⟨new, new, hecho, rfl⟩
  | reparsing =>
    rw [step_reparsing hc hs, step_reparsing hc' (m := withRecord m old') hs,
      acceptsFrom_of_stage (by rw [hs]; decide)]
    exact ⟨[], [], h.reparseStep hpart old', rfl⟩

end Engine

end Lintel
