import Lintel.Correction
import Lintel.Report
import Lintel.Rules
import Lintel.Suppression

/-!
# The engine

The engine takes each source through detection passes and, when it corrects, through a loop

    analyzing → correcting → reparsing → analyzing → … → done

until nothing is left to correct, nothing that is proposed can be applied, or the budget of
revisions is used up. One turn of the loop is `Engine.step`; `Engine.finish` repeats it. Before
each turn the cancellation flag is looked at, and a run that was cancelled stops there.

The loop ends for every behaviour of rules and parser: a turn either ends it or brings
`Machine.rank` down, because the number of revisions is bounded by the budget.

A detection pass first asks whether the text parses. If not, the parse rule's finding is all
there is. Otherwise every enabled rule that does not exclude the path is asked; a rule that fails
is put on record and the others are not affected. Findings are put in order of their starts, then
of the rules, then of discovery; the text's suppression comments are applied last.

The final list of a source holds the corrected issues of all passes, then the conflicts of the
last revision that the last pass did not find again, then the findings of the last pass, in order
of location. If the run was cancelled after a revision and before the next pass, the findings of
the last pass refer to a text that is gone and are left out.

A fault of the parser, or an edited text that cannot be read back, gives up the source: its
report holds the fault and nothing else.
-/

namespace Lintel

/-- How often a text is revised unless set otherwise. -/
def defaultMaxIterations : Int := 200

/-- A fixed list of rules with everything a run needs. -/
structure Engine (σ : Type) where
  rules : List (Rule σ)
  parseRule : Rule σ
  parser : Parser σ
  maxIterations : Int := defaultMaxIterations
  /-- The directory that relative patterns refer to. -/
  cwd : String

/-- There is no rule to run. -/
inductive NoRules where
  | noRules
  deriving DecidableEq, Repr

def NoRules.message : NoRules → String
  | .noRules => "No rules to run"

/-- Where the loop of a source stands. -/
inductive Stage where
  | analyzing
  | correcting
  | reparsing
  | done
  deriving DecidableEq, Repr

/-- The state of the loop of a source. -/
structure Machine where
  stage : Stage := .analyzing
  source : Source
  issues : List Issue := []
  corrected : List Issue := []
  conflicts : List Issue := []
  lastEdits : List Edit := []
  /-- The issues of the last pass refer to the current text. -/
  current : Bool := true
  diagnostics : List Diagnostic := []
  passes : Nat := 0
  iterations : Nat := 0
  converged : Bool := true
  aborted : Bool := false

/-- A measure that every turn brings down: revisions left under the budget first, then the place in
the loop. -/
def Machine.rank (budget : Int) (m : Machine) : Nat :=
  let left := (budget - m.iterations).toNat
  match m.stage with
  | .done => 0
  | .analyzing => 3 * left + 1
  | .correcting => if left = 0 then 3 else 3 * left
  | .reparsing => 3 * left + 2

namespace Engine

variable {σ : Type}

/-- The rules without the first one that bears the parse rule's name, and that rule or the one
that comes with the library. -/
def takeParseRule (rules : List (Rule σ)) : Rule σ × List (Rule σ) :=
  match rules.find? (·.fullName == Rules.parseRuleName) with
  | some r => (r, rules.eraseP (·.fullName == Rules.parseRuleName))
  -- a list without a parse rule borrows the one of the library
  | none => (Rule.ofKind Rules.unparsable, rules)

def ofRules (rules : List (Rule σ)) (parser : Parser σ) (cwd : String)
    (maxIterations : Int := defaultMaxIterations) : Except NoRules (Engine σ) :=
  if rules.isEmpty then .error .noRules
  else
    let (parseRule, others) := takeParseRule rules
    .ok ⟨others, parseRule, parser, maxIterations, cwd⟩

/-- The rules that answer for corrections: the parse rule wins over others of its name. -/
def correctors (e : Engine σ) : List (Rule σ) :=
  e.rules ++ [e.parseRule]

/-! ### Detection -/

/-- What one rule found, or why it failed. -/
structure Detected where
  found : List Issue
  diagnostic : Option Diagnostic

def detectWith (v : View) (r : Rule σ) (w : World σ) : Detected × World σ :=
  let reply := r.detect v w.memory
  match reply.answer with
  | .ok found =>
    -- no list at all counts as finding nothing
    let found := found.getD []
    (⟨found, none⟩, w.after (.detect r.fullName v.text found) reply)
  | .error f =>
    -- the call is on record all the same, with nothing found
    (⟨[], some (.ofFault r.fullName v.path .detect f)⟩,
      w.after (.detect r.fullName v.text []) reply)

def detectAll (v : View) : List (Rule σ) → World σ → List Detected × World σ
  | [], w => ([], w)
  | r :: rs, w =>
    let (d, w) := detectWith v r w
    let (ds, w) := detectAll v rs w
    (d :: ds, w)

def applicable (e : Engine σ) (path : Option String) : List (Rule σ) :=
  e.rules.filter fun r => r.enabled && !r.excludes e.cwd path

def byStart (issues : List Issue) : List Issue :=
  issues.mergeSort fun a b => decide (a.start ≤ b.start)

/-- The findings of a pass and the record of the rules that failed. -/
structure Analysis where
  issues : List Issue
  diagnostics : List Diagnostic

def analyzeValid (e : Engine σ) (v : View) (w : World σ) : Analysis × World σ :=
  let (ds, w) := detectAll v (e.applicable v.path) w
  -- silencing changes statuses only, so it may come after the findings are in order
  let issues := silence v.text (byStart (ds.flatMap (·.found)))
  (⟨issues, ds.filterMap (·.diagnostic)⟩, w)

/-- The findings of a pass over a text that does not parse. A parse rule that gives no list at all
has failed here. -/
def analyzeBroken (e : Engine σ) (v : View) (w : World σ) :
    Except Fault Analysis × World σ :=
  let reply := e.parseRule.detect v w.memory
  match reply.answer with
  | .error f => (.error f, w.after (.detect e.parseRule.fullName v.text []) reply)
  -- unlike with the other rules, no list is not an empty one here
  | .ok none =>
    (.error .noFindings, w.after (.detect e.parseRule.fullName v.text []) reply)
  | .ok (some found) =>
    (.ok ⟨found, []⟩, w.after (.detect e.parseRule.fullName v.text found) reply)

/-- One detection pass. -/
def analyze (e : Engine σ) (s : Source) (w : World σ) :
    Except Fault Analysis × Source × World σ :=
  let (v, s, w) := s.view e.parser w
  match v.parsed with
  -- the parser failed, which no rule can report
  | .error f => (.error f, s, w)
  | .ok p =>
    if p.isValid then
      let (a, w) := e.analyzeValid v w
      (.ok a, s, w)
    else
      let (a, w) := e.analyzeBroken v w
      (a, s, w)

/-! ### The loop -/

def markUnresolved (issues : List Issue) : List Issue :=
  issues.map fun i => if i.isPending then i.withStatus .unresolved else i

def afterAnalysis (e : Engine σ) (autocorrect : Bool) (m : Machine) (a : Analysis) : Machine :=
  let m := { m with
    issues := a.issues
    current := true
    passes := m.passes + 1
    diagnostics := m.diagnostics ++ a.diagnostics }
  -- nothing is left to do, whatever is left of the budget
  if !autocorrect || !a.issues.any (·.isPending) then { m with stage := .done }
  -- what asks for a correction will not get one any more
  else if e.maxIterations ≤ m.iterations then
    { m with stage := .done, issues := markUnresolved a.issues, converged := false }
  else { m with stage := .correcting }

def afterCorrection (m : Machine) (c : Correction σ) : Machine :=
  let m := { m with
    source := c.source
    issues := c.issues
    diagnostics := m.diagnostics ++ c.diagnostics }
  -- without an edit the next pass would find the same again, so the loop ends
  if c.changed then
    { m with
      stage := .reparsing
      -- what was corrected stays; conflicts and edits are those of this round only
      corrected := m.corrected ++ c.issuesAt c.corrected
      conflicts := c.issuesAt c.conflicts
      lastEdits := c.edits
      current := false
      iterations := m.iterations + 1 }
  else { m with stage := .done }

/-- The outcome of a turn: the next state, or the fault that gives up the source. -/
structure Turn (σ : Type) where
  machine : Machine
  fault : Option Fault := none
  world : World σ

def analyzeStep (e : Engine σ) (autocorrect : Bool) (m : Machine) (w : World σ) : Turn σ :=
  match e.analyze m.source w with
  | (.error f, s, w) => ⟨{ m with source := s }, some f, w⟩
  | (.ok a, s, w) => ⟨e.afterAnalysis autocorrect { m with source := s } a, none, w⟩

def correctStep (e : Engine σ) (m : Machine) (w : World σ) : Turn σ :=
  let (v, s, w) := m.source.view e.parser w
  let c := Correction.apply e.correctors s v m.issues w
  match c.fault with
  -- the conflicts have got their status by now and keep it
  | some f => ⟨{ m with source := c.source, issues := c.issues }, some f, c.world⟩
  | none => ⟨afterCorrection m c, none, c.world⟩

def reparseStep (e : Engine σ) (m : Machine) (w : World σ) : Turn σ :=
  match m.source.reparse e.parser w with
  | (.error f, s, w) => ⟨{ m with source := s }, some f, w⟩
  | (.ok _, s, w) => ⟨{ m with source := s, stage := .analyzing }, none, w⟩

/-- One turn of the loop. A cancelled run stops before it. -/
def step (e : Engine σ) (autocorrect : Bool) (m : Machine) (w : World σ) : Turn σ :=
  if m.stage = .done then ⟨m, none, w⟩
  -- the flag is looked at between turns, never within one
  else if w.cancelled then ⟨{ m with aborted := true, stage := .done }, none, w⟩
  else
    match m.stage with
    | .analyzing => e.analyzeStep autocorrect m w
    | .correcting => e.correctStep m w
    | .reparsing => e.reparseStep m w
    | .done => ⟨m, none, w⟩

theorem afterAnalysis_rank (e : Engine σ) (ac : Bool) (m : Machine) (a : Analysis) :
    (e.afterAnalysis ac m a).rank e.maxIterations
      < 3 * (e.maxIterations - m.iterations).toNat + 1 := by
  simp only [afterAnalysis]
  split
  · simp [Machine.rank]
  · split
    · simp [Machine.rank]
    · -- going on to correct, under the budget: there is a revision left to spend
      simp only [Machine.rank]
      split <;> omega

theorem afterCorrection_rank (budget : Int) (m : Machine) (c : Correction σ)
    (h : m.stage = .correcting) :
    (afterCorrection m c).rank budget < m.rank budget := by
  simp only [afterCorrection]
  split
  · -- a revision is spent, which outweighs the way back to `analyzing`
    simp only [Machine.rank, h]
    split <;> omega
  · simp only [Machine.rank, h]
    split <;> omega

/-- Only a loop that has ended is of rank zero. -/
theorem rank_pos {m : Machine} (hd : m.stage ≠ .done) (budget : Int) : 0 < m.rank budget := by
  unfold Machine.rank
  cases hs : m.stage with
  | done => exact absurd hs hd
  | analyzing => exact Nat.succ_pos _
  | correcting =>
    simp only
    split <;> omega
  | reparsing => exact Nat.succ_pos _

/-- **Every turn brings the rank down**, unless the loop has ended. -/
theorem rank_step (e : Engine σ) (ac : Bool) (m : Machine) (w : World σ)
    (h : m.stage ≠ .done) (hf : (e.step ac m w).fault = none) :
    (e.step ac m w).machine.rank e.maxIterations < m.rank e.maxIterations := by
  unfold step at hf ⊢
  rw [if_neg h] at hf ⊢
  split at hf
  · next hc =>
    rw [if_pos hc]
    exact rank_pos h _
  · next hc =>
    rw [if_neg hc]
    cases hs : m.stage with
    | done => exact absurd hs h
    -- the loop may go on to `correcting`, which ranks lower at the same number of revisions
    | analyzing =>
      simp only [hs, analyzeStep] at hf ⊢
      split at hf
      · cases hf
      · next a s w' heq =>
        simp only [Machine.rank, hs]
        exact afterAnalysis_rank e ac _ a
    -- the one turn that counts a revision
    | correcting =>
      simp only [hs, correctStep] at hf ⊢
      split at hf
      · cases hf
      · exact afterCorrection_rank _ m _ hs
    -- the counters stay and the stage moves on
    | reparsing =>
      simp only [hs, reparseStep] at hf ⊢
      split at hf
      · cases hf
      · simp only [Machine.rank, hs]
        exact Nat.lt_succ_self _

/-- Repeat turns until the loop ends or the source is given up. -/
def finish (e : Engine σ) (autocorrect : Bool) (m : Machine) (w : World σ) : Turn σ :=
  if _h : m.stage = .done then ⟨m, none, w⟩
  else
    match _hf : (e.step autocorrect m w).fault with
    | some _ => e.step autocorrect m w
    | none => finish e autocorrect (e.step autocorrect m w).machine (e.step autocorrect m w).world
termination_by m.rank e.maxIterations
decreasing_by exact rank_step e autocorrect m w _h _hf

/-! ### Reports -/

/-- Whether the last pass holds the same rule's finding over the range a conflict moved to. -/
def redetected (edits : List Edit) (issues : List Issue) (conflict : Issue) : Bool :=
  let (start, stop) := mapRange conflict.start conflict.stop edits
  issues.any fun i => i.rule == conflict.rule
    -- an empty range overlaps nothing, so equal starts count by themselves
    && (i.start == start || (decide (i.start < stop) && decide (start < i.stop)))

/-- Issues in order of location, equal ones as they come. -/
def byLocation (issues : List Issue) : List Issue :=
  issues.mergeSort fun a b => a.location.le b.location

def finalIssues (m : Machine) : List Issue :=
  byLocation <|
    if m.current then
      m.corrected ++ m.conflicts.filter (fun c => !redetected m.lastEdits m.issues c) ++ m.issues
    -- the findings of the last pass are about a text that is gone
    else m.corrected ++ m.conflicts

def reportOf (m : Machine) : SourceReport :=
  let issues := finalIssues m
  { source := { m.source with issues := issues }
    issues := issues
    diagnostics := m.diagnostics
    passes := m.passes
    iterations := m.iterations
    converged := m.converged
    aborted := m.aborted }

/-- The report of a source that was given up. -/
def givenUp (e : Engine σ) (s : Source) (f : Fault) : SourceReport where
  source := s
  diagnostics := [.ofFault e.parseRule.fullName s.path .parse f]
  converged := false

/-- Take one source through the loop. -/
def process (e : Engine σ) (autocorrect : Bool) (s : Source) (w : World σ) :
    SourceReport × World σ :=
  let t := e.finish autocorrect { source := { s with autocorrect := autocorrect } } w
  match t.fault with
  | some f => (e.givenUp t.machine.source f, t.world)
  | none => (reportOf t.machine, t.world)

/-- Take sources through the loop, one after the other. -/
def processAll (e : Engine σ) (autocorrect : Bool) :
    List Source → World σ → List SourceReport × World σ
  | [], w => ([], w)
  | s :: ss, w =>
    let (r, w) := e.process autocorrect s w
    let (rs, w) := e.processAll autocorrect ss w
    (r :: rs, w)

/-- Run the rules over sources. The cancellation flag is lowered first. -/
def run (e : Engine σ) (autocorrect : Bool) (sources : List Source) (w : World σ) :
    Report × World σ :=
  let (reports, w) := e.processAll autocorrect sources w.resume
  ({ sources := reports, cancelled := w.cancelled }, w)

end Engine

end Lintel
