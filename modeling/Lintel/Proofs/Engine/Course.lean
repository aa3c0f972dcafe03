import Lintel.Proofs.Correction.Outcome
import Lintel.Proofs.Engine.Detection
import Lintel.Scripted

/-!
# The course of a source through the loop

`Engine.finish` repeats turns until the loop ends or the source is given up. To speak about what
happened on the way, this module lists the states from which the turns were taken
(`Engine.turns`) and reads three histories off them:

* the **passes**: each completed detection pass, with the text it was made on and its issues;
* the **rounds**: each revision of the text, with its edits, the issues it corrected and the ones
  that lost;
* the **log**: every call to a rule or to the parser, stamped with the version of the text at that
  moment.

The **version** of a text is the number of revisions before it. It tells apart two moments at
which the text happens to be the same.

`moves_step` says once and for all what a turn that raises no fault can do, and `finish_cases` is
the induction over a whole run: what holds at the start and is kept by every such turn holds of
the last state, be it the one where the loop ended or the one whose turn raised the fault. Every
statement about runs is derived from these two.
-/

namespace Lintel

structure Pass where
  /-- How often the text had been revised before. -/
  version : Nat
  text : String
  issues : List Issue
  deriving DecidableEq, Repr

/-- A revision of the text. -/
structure Round where
  edits : List Edit
  corrected : List Issue
  /-- The issues that lost against an edit that was applied. -/
  conflicts : List Issue
  deriving DecidableEq, Repr

namespace Engine

variable {σ : Type}

def start (ac : Bool) (s : Source) : Machine :=
  { source := { s with autocorrect := ac } }

def turns (e : Engine σ) (ac : Bool) (m : Machine) (w : World σ) : List (Machine × World σ) :=
  if _h : m.stage = .done then []
  else
    match _hf : (e.step ac m w).fault with
    | some _ => [(m, w)]
    | none => (m, w) :: turns e ac (e.step ac m w).machine (e.step ac m w).world
termination_by m.rank e.maxIterations
decreasing_by exact rank_step e ac m w _h _hf

/-- The pass of correction that is made from a state. -/
def correction (e : Engine σ) (m : Machine) (w : World σ) : Correction σ :=
  Correction.apply e.correctors (m.source.view e.parser w).2.1 (m.source.view e.parser w).1
    m.issues (m.source.view e.parser w).2.2

/-- The detection pass that is completed from a state, if one is. -/
def passFrom (e : Engine σ) (t : Machine × World σ) : Option Pass :=
  if t.2.cancelled then none
  else
    match t.1.stage, (e.analyze t.1.source t.2).1 with
    | .analyzing, .ok a => some ⟨t.1.iterations, t.1.source.text, a.issues⟩
    | _, _ => none

/-- The revision that is made from a state, if one is. -/
def roundFrom (e : Engine σ) (t : Machine × World σ) : Option Round :=
  if t.2.cancelled then none
  else
    let c := e.correction t.1 t.2
    if t.1.stage = .correcting ∧ c.changed = true then
      some ⟨c.edits, c.issuesAt c.corrected, c.issuesAt c.conflicts⟩
    else none

/-- The calls that are made from a state, each with the version of the text. -/
def logFrom (e : Engine σ) (ac : Bool) (t : Machine × World σ) : List (Nat × Call) :=
  (t.2.since (e.step ac t.1 t.2).world).map (t.1.iterations, ·)

/-- The completed passes on the way through some states. -/
def passesOf (e : Engine σ) (past : List (Machine × World σ)) : List Pass :=
  past.filterMap e.passFrom

/-- The revisions on the way through some states. -/
def roundsOf (e : Engine σ) (past : List (Machine × World σ)) : List Round :=
  past.filterMap e.roundFrom

/-- The calls on the way through some states. -/
def logOf (e : Engine σ) (ac : Bool) (past : List (Machine × World σ)) : List (Nat × Call) :=
  past.flatMap (e.logFrom ac)

def passes (e : Engine σ) (ac : Bool) (s : Source) (w : World σ) : List Pass :=
  e.passesOf (e.turns ac (start ac s) w)

def rounds (e : Engine σ) (ac : Bool) (s : Source) (w : World σ) : List Round :=
  e.roundsOf (e.turns ac (start ac s) w)

def log (e : Engine σ) (ac : Bool) (s : Source) (w : World σ) : List (Nat × Call) :=
  e.logOf ac (e.turns ac (start ac s) w)

/-! ### The loop, turn by turn -/

section Turns

variable {e : Engine σ} {ac : Bool} {m : Machine} {w : World σ}

theorem finish_of_done (h : m.stage = .done) : e.finish ac m w = ⟨m, none, w⟩ := by
  rw [finish, dif_pos h]

theorem finish_of_fault {f : Fault} (h : m.stage ≠ .done) (hf : (e.step ac m w).fault = some f) :
    e.finish ac m w = e.step ac m w := by
  rw [finish, dif_neg h]
  split
  · rfl
  · next hn =>
    rw [hf] at hn
    cases hn

theorem finish_of_step (h : m.stage ≠ .done) (hf : (e.step ac m w).fault = none) :
    e.finish ac m w = e.finish ac (e.step ac m w).machine (e.step ac m w).world := by
  rw [finish, dif_neg h]
  split
  · next f hn =>
    rw [hf] at hn
    cases hn
  · rfl

theorem finish_of_last {m' : Machine} {w' : World σ} (h : m.stage ≠ .done)
    (hstep : e.step ac m w = ⟨m', none, w'⟩) (h' : m'.stage = .done) :
    e.finish ac m w = ⟨m', none, w'⟩ := by
  rw [finish_of_step h (by rw [hstep]), hstep]
  exact finish_of_done h'

theorem turns_of_done (h : m.stage = .done) : e.turns ac m w = [] := by
  rw [turns, dif_pos h]

theorem turns_of_fault {f : Fault} (h : m.stage ≠ .done) (hf : (e.step ac m w).fault = some f) :
    e.turns ac m w = [(m, w)] := by
  rw [turns, dif_neg h]
  split
  · rfl
  · next hn =>
    rw [hf] at hn
    cases hn

theorem turns_of_step (h : m.stage ≠ .done) (hf : (e.step ac m w).fault = none) :
    e.turns ac m w
      = (m, w) :: e.turns ac (e.step ac m w).machine (e.step ac m w).world := by
  rw [turns, dif_neg h]
  split
  · next f hn =>
    rw [hf] at hn
    cases hn
  · rfl

/-! The four kinds of turns. -/

theorem step_of_cancelled (h : m.stage ≠ .done) (hc : w.cancelled = true) :
    e.step ac m w = ⟨{ m with aborted := true, stage := .done }, none, w⟩ := by
  rw [step, if_neg h, if_pos hc]

theorem step_analyzing (hc : w.cancelled = false) (hs : m.stage = .analyzing) :
    e.step ac m w = e.analyzeStep ac m w := by
  simp only [step, hs, hc, reduceCtorEq, Bool.false_eq_true, if_false]

theorem step_correcting (hc : w.cancelled = false) (hs : m.stage = .correcting) :
    e.step ac m w = e.correctStep m w := by
  simp only [step, hs, hc, reduceCtorEq, Bool.false_eq_true, if_false]

theorem step_reparsing (hc : w.cancelled = false) (hs : m.stage = .reparsing) :
    e.step ac m w = e.reparseStep m w := by
  simp only [step, hs, hc, reduceCtorEq, Bool.false_eq_true, if_false]

/-- **What a turn is**: a run that was cancelled stops, any other one does what its stage asks
for. -/
theorem step_cases (e : Engine σ) (ac : Bool) (h : m.stage ≠ .done) (w : World σ) :
    (w.cancelled = true ∧ e.step ac m w = ⟨{ m with aborted := true, stage := .done }, none, w⟩) ∨
      (w.cancelled = false ∧ m.stage = .analyzing ∧ e.step ac m w = e.analyzeStep ac m w) ∨
      (w.cancelled = false ∧ m.stage = .correcting ∧ e.step ac m w = e.correctStep m w) ∨
      (w.cancelled = false ∧ m.stage = .reparsing ∧ e.step ac m w = e.reparseStep m w) := by
  -- the flag is looked at first, and then the stage
  cases hc : w.cancelled with
  | true => exact .inl ⟨rfl, step_of_cancelled h hc⟩
  | false =>
    cases hs : m.stage with
    | done => exact absurd hs h
    | analyzing => exact .inr (.inl ⟨rfl, rfl, step_analyzing hc hs⟩)
    | correcting => exact .inr (.inr (.inl ⟨rfl, rfl, step_correcting hc hs⟩))
    | reparsing => exact .inr (.inr (.inr ⟨rfl, rfl, step_reparsing hc hs⟩))

/-! What becomes of the three turns that do something, told from what they ask for. -/

theorem analyzeStep_eq (e : Engine σ) (ac : Bool) (m : Machine) (w : World σ) :
    e.analyzeStep ac m w
      = match (e.analyze m.source w).1 with
        | .error f =>
          ⟨{ m with source := (e.analyze m.source w).2.1 }, some f, (e.analyze m.source w).2.2⟩
        | .ok a =>
          ⟨e.afterAnalysis ac { m with source := (e.analyze m.source w).2.1 } a, none,
            (e.analyze m.source w).2.2⟩ := by
  unfold analyzeStep
  rcases e.analyze m.source w with ⟨f | a, s, w'⟩
  · rfl
  · rfl

theorem correctStep_eq (e : Engine σ) (m : Machine) (w : World σ) :
    e.correctStep m w
      = match (e.correction m w).fault with
        | some f =>
          ⟨{ m with source := (e.correction m w).source, issues := (e.correction m w).issues },
            some f, (e.correction m w).world⟩
        | none => ⟨afterCorrection m (e.correction m w), none, (e.correction m w).world⟩ := rfl

theorem reparseStep_eq (e : Engine σ) (m : Machine) (w : World σ) :
    e.reparseStep m w
      = match (m.source.reparse e.parser w).1 with
        | .error f =>
          ⟨{ m with source := (m.source.reparse e.parser w).2.1 }, some f,
            (m.source.reparse e.parser w).2.2⟩
        | .ok _ =>
          ⟨{ m with source := (m.source.reparse e.parser w).2.1, stage := .analyzing }, none,
            (m.source.reparse e.parser w).2.2⟩ := by
  unfold reparseStep
  rcases m.source.reparse e.parser w with ⟨f | p, s, w'⟩
  · rfl
  · rfl

theorem analyzeStep_of_error {f : Fault} (h : (e.analyze m.source w).1 = .error f) :
    e.analyzeStep ac m w
      = ⟨{ m with source := (e.analyze m.source w).2.1 }, some f, (e.analyze m.source w).2.2⟩ := by
  rw [analyzeStep_eq, h]

theorem analyzeStep_of_ok {a : Analysis} (h : (e.analyze m.source w).1 = .ok a) :
    e.analyzeStep ac m w
      = ⟨e.afterAnalysis ac { m with source := (e.analyze m.source w).2.1 } a, none,
          (e.analyze m.source w).2.2⟩ := by
  rw [analyzeStep_eq, h]

theorem correctStep_of_fault {f : Fault} (h : (e.correction m w).fault = some f) :
    e.correctStep m w
      = ⟨{ m with source := (e.correction m w).source, issues := (e.correction m w).issues },
          some f, (e.correction m w).world⟩ := by
  rw [correctStep_eq, h]

theorem correctStep_of_none (h : (e.correction m w).fault = none) :
    e.correctStep m w = ⟨afterCorrection m (e.correction m w), none, (e.correction m w).world⟩ := by
  rw [correctStep_eq, h]

theorem reparseStep_of_error {f : Fault} (h : (m.source.reparse e.parser w).1 = .error f) :
    e.reparseStep m w
      = ⟨{ m with source := (m.source.reparse e.parser w).2.1 }, some f,
          (m.source.reparse e.parser w).2.2⟩ := by
  rw [reparseStep_eq, h]

theorem reparseStep_of_ok {p : Parsed} (h : (m.source.reparse e.parser w).1 = .ok p) :
    e.reparseStep m w
      = ⟨{ m with source := (m.source.reparse e.parser w).2.1, stage := .analyzing }, none,
          (m.source.reparse e.parser w).2.2⟩ := by
  rw [reparseStep_eq, h]

theorem step_of_analysis {a : Analysis} (hc : w.cancelled = false) (hs : m.stage = .analyzing)
    (ha : (e.analyze m.source w).1 = .ok a) :
    e.step ac m w
      = ⟨e.afterAnalysis ac { m with source := (e.analyze m.source w).2.1 } a, none,
          (e.analyze m.source w).2.2⟩ := by
  rw [step_analyzing hc hs, analyzeStep_of_ok ha]

theorem step_of_no_proposal (hc : w.cancelled = false) (hs : m.stage = .correcting)
    (hn : (Correction.gatherFrom e.correctors (m.source.view e.parser w).1 0 m.issues
      (m.source.view e.parser w).2.2).proposals = []) :
    e.step ac m w
      = ⟨{ m with
            source := (m.source.view e.parser w).2.1
            diagnostics := m.diagnostics ++ (e.correction m w).diagnostics
            stage := .done }, none, (e.correction m w).world⟩ := by
  have heq := Correction.apply_of_nil e.correctors (m.source.view e.parser w).2.1 _ _ _ hn
  rw [step_correcting hc hs, correctStep, correction]
  simp only [heq]
  rfl

@[simp] theorem analyzeStep_world : (e.analyzeStep ac m w).world = (e.analyze m.source w).2.2 := by
  unfold analyzeStep
  split <;> next h => rw [h]

@[simp] theorem correctStep_world : (e.correctStep m w).world = (e.correction m w).world := by
  unfold correctStep
  simp only
  split <;> rfl

@[simp] theorem reparseStep_world :
    (e.reparseStep m w).world = (m.source.reparse e.parser w).2.2 := by
  unfold reparseStep
  split <;> next h => rw [h]

end Turns

/-! ### What a turn can do -/

/-- The machine once a pass over its source has found something, before it is decided how to go
on. -/
def looked (m : Machine) (s : Source) (a : Analysis) : Machine :=
  { m with
    source := s
    issues := a.issues
    current := true
    passes := m.passes + 1
    diagnostics := m.diagnostics ++ a.diagnostics }

def revised (m : Machine) (c : Correction σ) : Machine :=
  { m with
    source := c.source
    issues := c.issues
    diagnostics := m.diagnostics ++ c.diagnostics
    stage := .reparsing
    corrected := m.corrected ++ c.issuesAt c.corrected
    conflicts := c.issuesAt c.conflicts
    lastEdits := c.edits
    current := false
    iterations := m.iterations + 1 }

theorem step_of_revision {e : Engine σ} {ac : Bool} {m : Machine} {w : World σ}
    (hc : w.cancelled = false) (hs : m.stage = .correcting) (hf : (e.correction m w).fault = none)
    (hch : (e.correction m w).changed = true) :
    e.step ac m w
      = ⟨revised m (e.correction m w), none, (e.correction m w).world⟩ := by
  rw [step_correcting hc hs, correctStep_of_none hf, afterCorrection]
  simp only [hch, if_true]
  rfl

/-- **A turn that raises no fault** does one of seven things. -/
inductive Moves (e : Engine σ) (ac : Bool) (m : Machine) (w : World σ) :
    Machine → World σ → Prop where
  | abort (hc : w.cancelled = true) : Moves e ac m w { m with aborted := true, stage := .done } w
  /-- A pass found nothing to correct, or nothing is to be corrected. -/
  | settle (hc : w.cancelled = false) (hs : m.stage = .analyzing) (a : Analysis)
      (ha : (e.analyze m.source w).1 = .ok a)
      (hp : ac = false ∨ a.issues.any (·.isPending) = false) :
      Moves e ac m w { looked m (e.analyze m.source w).2.1 a with stage := .done }
        (e.analyze m.source w).2.2
  /-- A pass found something to correct, but the budget is used up. -/
  | exhaust (hc : w.cancelled = false) (hs : m.stage = .analyzing) (a : Analysis)
      (ha : (e.analyze m.source w).1 = .ok a) (hac : ac = true)
      (hp : a.issues.any (·.isPending) = true) (hb : e.maxIterations ≤ m.iterations) :
      Moves e ac m w
        { looked m (e.analyze m.source w).2.1 a with
          stage := .done, issues := markUnresolved a.issues, converged := false }
        (e.analyze m.source w).2.2
  /-- A pass found something to correct. -/
  | proceed (hc : w.cancelled = false) (hs : m.stage = .analyzing) (a : Analysis)
      (ha : (e.analyze m.source w).1 = .ok a) (hac : ac = true)
      (hp : a.issues.any (·.isPending) = true) (hb : m.iterations < e.maxIterations) :
      Moves e ac m w { looked m (e.analyze m.source w).2.1 a with stage := .correcting }
        (e.analyze m.source w).2.2
  /-- No edit was proposed. -/
  | rest (hc : w.cancelled = false) (hs : m.stage = .correcting)
      (hn : (Correction.gatherFrom e.correctors (m.source.view e.parser w).1 0 m.issues
        (m.source.view e.parser w).2.2).proposals = []) :
      Moves e ac m w
        { m with
          source := (m.source.view e.parser w).2.1
          diagnostics := m.diagnostics ++ (e.correction m w).diagnostics
          stage := .done }
        (e.correction m w).world
  | revise (hc : w.cancelled = false) (hs : m.stage = .correcting)
      (hch : (e.correction m w).changed = true)
      (hr : Correction.Revised (m.source.view e.parser w).2.1 (m.source.view e.parser w).1 m.issues
        (e.correction m w)) :
      Moves e ac m w (revised m (e.correction m w)) (e.correction m w).world
  /-- The new text was parsed. -/
  | reparse (hc : w.cancelled = false) (hs : m.stage = .reparsing) (p : Parsed)
      (hp : (m.source.reparse e.parser w).1 = .ok p) :
      Moves e ac m w
        { m with source := (m.source.reparse e.parser w).2.1, stage := .analyzing }
        (m.source.reparse e.parser w).2.2

/-- A completed pass moves the machine on in one of three ways. -/
theorem moves_afterAnalysis {e : Engine σ} {ac : Bool} {m : Machine} {w : World σ} {a : Analysis}
    (hc : w.cancelled = false) (hs : m.stage = .analyzing)
    (ha : (e.analyze m.source w).1 = .ok a) :
    Moves e ac m w (e.afterAnalysis ac { m with source := (e.analyze m.source w).2.1 } a)
      (e.analyze m.source w).2.2 := by
  unfold afterAnalysis
  simp only
  split
  · next hp => exact .settle hc hs a ha (by simpa using hp)
  · -- something is pending: what remains to be seen is the budget
    next hp =>
    obtain ⟨hac, hpend⟩ : ac = true ∧ a.issues.any (·.isPending) = true := by simpa using hp
    split
    · next hb => exact .exhaust hc hs a ha hac hpend hb
    · next hb => exact .proceed hc hs a ha hac hpend (by omega)

/-- A pass of correction without a fault moves the machine on in one of two ways. -/
theorem moves_afterCorrection {e : Engine σ} {ac : Bool} {m : Machine} {w : World σ}
    (hc : w.cancelled = false) (hs : m.stage = .correcting)
    (hf : (e.correction m w).fault = none) :
    Moves e ac m w (afterCorrection m (e.correction m w)) (e.correction m w).world := by
  -- nothing proposed, a fault, or a revision
  rcases Correction.apply_cases e.correctors (m.source.view e.parser w).2.1
    (m.source.view e.parser w).1 m.issues (m.source.view e.parser w).2.2 with
    ⟨hn, heq⟩ | ⟨bad, -, hbad⟩ | ⟨-, hch, hr⟩
  · have hmove : Moves e ac m w _ _ := .rest hc hs hn
    rw [correction, heq] at hmove ⊢
    exact hmove
  · rw [correction, hbad] at hf
    cases hf
  · have hch' : (e.correction m w).changed = true := hch
    unfold afterCorrection
    rw [if_pos hch']
    exact .revise hc hs hch' hr

/-- **Turns are moves**: this is all that a turn without a fault can do. -/
theorem moves_step {e : Engine σ} {ac : Bool} {m : Machine} {w : World σ} (hd : m.stage ≠ .done)
    (hf : (e.step ac m w).fault = none) :
    Moves e ac m w (e.step ac m w).machine (e.step ac m w).world := by
  -- Of each kind of turn, the way that raises a fault is excluded.
  rcases step_cases e ac hd w with ⟨hc, h⟩ | ⟨hc, hs, h⟩ | ⟨hc, hs, h⟩ | ⟨hc, hs, h⟩
  · rw [h]
    exact .abort hc
  · rw [h] at hf ⊢
    cases ha : (e.analyze m.source w).1 with
    | error f =>
      rw [analyzeStep_of_error ha] at hf
      cases hf
    | ok a =>
      rw [analyzeStep_of_ok ha]
      -- settled, out of budget, or with something to correct
      exact moves_afterAnalysis hc hs ha
  · rw [h] at hf ⊢
    cases hn : (e.correction m w).fault with
    | some f =>
      rw [correctStep_of_fault hn] at hf
      cases hf
    | none =>
      rw [correctStep_of_none hn]
      -- with an edit or without one
      exact moves_afterCorrection hc hs hn
  · rw [h] at hf ⊢
    cases hp : (m.source.reparse e.parser w).1 with
    | error f =>
      rw [reparseStep_of_error hp] at hf
      cases hf
    | ok p =>
      rw [reparseStep_of_ok hp]
      exact .reparse hc hs p hp

/-! ### What a turn adds to the histories -/

section Additions

variable {e : Engine σ} {m : Machine} {w : World σ}

theorem passFrom_of_cancelled (hc : w.cancelled = true) : e.passFrom (m, w) = none := by
  rw [passFrom, if_pos hc]

theorem passFrom_of_stage {stage : Stage} (hs : m.stage = stage) (hne : stage ≠ .analyzing) :
    e.passFrom (m, w) = none := by
  unfold passFrom
  split
  · rfl
  · split
    · next h _ => exact absurd (hs.symm.trans h) hne
    · rfl

theorem passFrom_of_analyze {a : Analysis} (hc : w.cancelled = false) (hs : m.stage = .analyzing)
    (ha : (e.analyze m.source w).1 = .ok a) :
    e.passFrom (m, w) = some ⟨m.iterations, m.source.text, a.issues⟩ := by
  unfold passFrom
  simp only [hc, hs, ha, Bool.false_eq_true, if_false]

theorem roundFrom_of_cancelled (hc : w.cancelled = true) : e.roundFrom (m, w) = none := by
  rw [roundFrom, if_pos hc]

theorem roundFrom_of_stage {stage : Stage} (hs : m.stage = stage) (hne : stage ≠ .correcting) :
    e.roundFrom (m, w) = none := by
  unfold roundFrom
  split
  · rfl
  · exact if_neg fun h => hne (hs.symm.trans h.1)

theorem roundFrom_of_nil
    (hn : (Correction.gatherFrom e.correctors (m.source.view e.parser w).1 0 m.issues
      (m.source.view e.parser w).2.2).proposals = []) : e.roundFrom (m, w) = none := by
  have hch : (e.correction m w).changed = false := by
    rw [correction, Correction.apply_of_nil _ _ _ _ _ hn]
    rfl
  unfold roundFrom
  split
  · rfl
  · -- a round asks for a change, and without a proposal there is none
    refine if_neg fun h => ?_
    rw [hch] at h
    cases h.2

theorem roundFrom_of_changed (hc : w.cancelled = false) (hs : m.stage = .correcting)
    (hch : (e.correction m w).changed = true) :
    e.roundFrom (m, w)
      = some ⟨(e.correction m w).edits, (e.correction m w).issuesAt (e.correction m w).corrected,
          (e.correction m w).issuesAt (e.correction m w).conflicts⟩ := by
  unfold roundFrom
  simp only [hc, hs, hch, Bool.false_eq_true, if_false, and_self, if_true]

end Additions

section Snoc

variable (e : Engine σ) (past : List (Machine × World σ)) (t : Machine × World σ)

theorem passesOf_snoc_none (h : e.passFrom t = none) :
    e.passesOf (past ++ [t]) = e.passesOf past := by
  rw [passesOf, List.filterMap_append, List.filterMap_cons_none h, List.filterMap_nil,
    List.append_nil, passesOf]

theorem passesOf_snoc_some {p : Pass} (h : e.passFrom t = some p) :
    e.passesOf (past ++ [t]) = e.passesOf past ++ [p] := by
  rw [passesOf, List.filterMap_append, List.filterMap_cons_some h, List.filterMap_nil, passesOf]

theorem roundsOf_snoc_none (h : e.roundFrom t = none) :
    e.roundsOf (past ++ [t]) = e.roundsOf past := by
  rw [roundsOf, List.filterMap_append, List.filterMap_cons_none h, List.filterMap_nil,
    List.append_nil, roundsOf]

theorem roundsOf_snoc_some {r : Round} (h : e.roundFrom t = some r) :
    e.roundsOf (past ++ [t]) = e.roundsOf past ++ [r] := by
  rw [roundsOf, List.filterMap_append, List.filterMap_cons_some h, List.filterMap_nil, roundsOf]

theorem logOf_snoc (ac : Bool) :
    e.logOf ac (past ++ [t]) = e.logOf ac past ++ e.logFrom ac t := by
  rw [logOf, List.flatMap_append, List.flatMap_singleton, logOf]

end Snoc

/-- **Induction over a run.** What holds at the start and is kept by every turn that raises no
fault holds at the end: in the state in which the loop ended, or in the state whose turn raised
the fault. The first argument of `Inv` is the list of the states behind. -/
theorem finish_cases {e : Engine σ} {ac : Bool}
    (Inv : List (Machine × World σ) → Machine → World σ → Prop)
    (hstep : ∀ past m w, Inv past m w → m.stage ≠ .done → (e.step ac m w).fault = none →
      Inv (past ++ [(m, w)]) (e.step ac m w).machine (e.step ac m w).world)
    {m : Machine} {w : World σ} (h : Inv [] m w) :
    (∃ m' w', Inv (e.turns ac m w) m' w' ∧ m'.stage = .done ∧
      e.finish ac m w = ⟨m', none, w'⟩) ∨
    (∃ past m' w' f, Inv past m' w' ∧ m'.stage ≠ .done ∧ (e.step ac m' w').fault = some f ∧
      e.finish ac m w = e.step ac m' w' ∧ e.turns ac m w = past ++ [(m', w')]) := by
  -- the induction is on the rank, with the states behind as a parameter
  have main : ∀ (n : Nat) (past : List (Machine × World σ)) (m : Machine) (w : World σ),
      m.rank e.maxIterations ≤ n → Inv past m w →
      (∃ m' w', Inv (past ++ e.turns ac m w) m' w' ∧ m'.stage = .done ∧
        e.finish ac m w = ⟨m', none, w'⟩) ∨
      (∃ before m' w' f, Inv before m' w' ∧ m'.stage ≠ .done ∧
        (e.step ac m' w').fault = some f ∧ e.finish ac m w = e.step ac m' w' ∧
        past ++ e.turns ac m w = before ++ [(m', w')]) := by
    intro n
    induction n with
    | zero =>
      intro past m w hn hi
      by_cases hd : m.stage = .done
      · refine .inl ⟨m, w, ?_, hd, finish_of_done hd⟩
        rwa [turns_of_done hd, List.append_nil]
      · -- only a loop that has ended is of rank zero
        exfalso
        revert hn
        unfold Machine.rank
        cases hs : m.stage <;> simp_all
        split <;> omega
    | succ n ih =>
      intro past m w hn hi
      by_cases hd : m.stage = .done
      · refine .inl ⟨m, w, ?_, hd, finish_of_done hd⟩
        rwa [turns_of_done hd, List.append_nil]
      · cases hf : (e.step ac m w).fault with
        | some f =>
          refine .inr ⟨past, m, w, f, hi, hd, hf, finish_of_fault hd hf, ?_⟩
          rw [turns_of_fault hd hf]
        | none =>
          -- the state is put to those behind, and the turn has brought the rank down
          have hrank := rank_step e ac m w hd hf
          have hrest := ih (past ++ [(m, w)]) _ _ (by omega) (hstep past m w hi hd hf)
          rw [finish_of_step hd hf, turns_of_step hd hf]
          rwa [List.append_assoc] at hrest
  simpa using main (m.rank e.maxIterations) [] m w (Nat.le_refl _) h

/-! ### Reports -/

theorem process_eq (e : Engine σ) (ac : Bool) (s : Source) (w : World σ) :
    e.process ac s w
      = match (e.finish ac (start ac s) w).fault with
        | some f => (e.givenUp (e.finish ac (start ac s) w).machine.source f,
            (e.finish ac (start ac s) w).world)
        | none => (reportOf (e.finish ac (start ac s) w).machine,
            (e.finish ac (start ac s) w).world) := rfl

theorem process_of_ok {e : Engine σ} {ac : Bool} {s : Source} {w w' : World σ} {m : Machine}
    (h : e.finish ac (start ac s) w = ⟨m, none, w'⟩) : e.process ac s w = (reportOf m, w') := by
  rw [process_eq, h]

theorem process_of_fault {e : Engine σ} {ac : Bool} {s : Source} {w : World σ} {f : Fault}
    (h : (e.finish ac (start ac s) w).fault = some f) :
    e.process ac s w = (e.givenUp (e.finish ac (start ac s) w).machine.source f,
      (e.finish ac (start ac s) w).world) := by
  rw [process_eq, h]

theorem process_world (e : Engine σ) (ac : Bool) (s : Source) (w : World σ) :
    (e.process ac s w).2 = (e.finish ac (start ac s) w).world := by
  rw [process_eq]
  split <;> rfl

def takenUp (e : Engine σ) (ac : Bool) : List Source → World σ → Nat → World σ
  | s :: ss, w, k + 1 => takenUp e ac ss (e.process ac s w).2 k
  | _, w, _ => w

theorem getElem?_processAll (e : Engine σ) (ac : Bool) (ss : List Source) (w : World σ) (k : Nat) :
    (e.processAll ac ss w).1[k]?
      = ss[k]?.map fun s => (e.process ac s (e.takenUp ac ss w k)).1 := by
  induction ss generalizing w k with
  | nil => rfl
  | cons s ss ih =>
    cases k with
    | zero => rfl
    | succ k => exact ih (e.process ac s w).2 k

/-- **The reports of a run** are those of its sources, each taken up in the world that the ones
before it left. -/
theorem getElem?_run_sources (e : Engine σ) (ac : Bool) (ss : List Source) (w : World σ) (k : Nat) :
    (e.run ac ss w).1.sources[k]?
      = ss[k]?.map fun s => (e.process ac s (e.takenUp ac ss w.resume k)).1 :=
  getElem?_processAll e ac ss w.resume k

theorem run_singleton (e : Engine σ) (ac : Bool) (s : Source) (w : World σ) :
    (e.run ac [s] w).1.sources = [(e.process ac s w.resume).1] := rfl

/-! ### A specimen

A small engine, on which the hypotheses of statements about runs can be seen to hold. -/

def wordRule (id : Nat) (name word : String) (replacement : Option String) : Rule Tally :=
  .ofKind <| Scripted.wordKind id
    { name := name, group := "Test", correctable := replacement.isSome, label := "WordRule" }
    { word := word, replacement := replacement }

/-- An engine that replaces the letter a by b and reports the letter b. -/
def specimen : Engine Tally where
  rules := [wordRule 0 "ReplaceA" "a" (some "b"), wordRule 1 "ReportB" "b" none]
  parseRule := .ofKind Rules.unparsable
  parser := Scripted.flatParser
  cwd := "/work"

/-- A rule that makes an issue of the letter a at the start of a text, hands over what becomes of it,
and puts the letter b in place of an issue that it is asked about. -/
def handingRule (give : Issue → List Issue) : Rule Tally :=
  let profile : RuleProfile :=
    { name := "Hands", group := "Test", correctable := true, label := "HandingRule" }
  .ofKind <| Scripted.handingKind profile
    (fun v => if v.bytes.head? = some 0x61 then give (Rule.issueAt profile {} v 0 1) else [])
    fun i => Rule.proposeEdit i.start i.stop "b"

/-- The engine of such a rule. It shows what becomes of issues that are not handed over as they were
made. -/
def handing (give : Issue → List Issue) : Engine Tally :=
  { specimen with rules := [handingRule give] }

/-- The state behind a first pass that found issues, with something to correct among them. -/
def behindPass (e : Engine σ) (s : Source) (w : World σ) (issues : List Issue) :
    Machine × World σ :=
  ({ start true s with
      stage := .correcting
      source := (e.analyze (start true s).source w).2.1
      issues := issues
      passes := 1 },
    (e.analyze (start true s).source w).2.2)

theorem step_behindPass {e : Engine σ} {s : Source} {w : World σ} {issues : List Issue}
    (hc : w.cancelled = false) (ha : (e.analyze (start true s).source w).1 = .ok ⟨issues, []⟩)
    (hp : issues.any (·.isPending) = true) (hb : 0 < e.maxIterations) :
    e.step true (start true s) w
      = ⟨(e.behindPass s w issues).1, none, (e.behindPass s w issues).2⟩ := by
  have hbudget : ¬ e.maxIterations ≤ ((start true s).iterations : Int) := Int.not_le.mpr hb
  rw [step_of_analysis hc rfl ha, afterAnalysis]
  simp only [hp, hbudget, Bool.not_true, Bool.or_self, Bool.false_eq_true, if_false]
  rfl

/-- The issue that the rule makes of the text a. -/
def issueOfA : Issue where
  rule := "Test/Hands"
  group := "Test"
  message := ""
  severity := .convention
  location := ⟨1, 1⟩
  start := 0
  stop := 1
  endLocation := some ⟨1, 1⟩
  correctable := true

end Engine

end Lintel
