import Lintel.Number.Binary64
import Lintel.Source

/-!
# Reports

A source report is the final state of one source after a run; a run report collects them and adds
up. `Report.succeeds` tells whether no open issue weighs as much as a given severity.
-/

namespace Lintel

/-- The final state of one source after a run. -/
structure SourceReport where
  source : Source
  issues : List Issue := []
  diagnostics : List Diagnostic := []
  /-- How often the rules were asked for findings. -/
  passes : Nat := 0
  /-- How often the text was revised. -/
  iterations : Nat := 0
  /-- The corrections came to an end within the budget. -/
  converged : Bool := true
  /-- The run was cancelled before the source was done. -/
  aborted : Bool := false

namespace SourceReport

def path (r : SourceReport) : Option String := r.source.path

def openIssues (r : SourceReport) : List Issue := r.issues.filter (·.isOpen)

def corrected (r : SourceReport) : List Issue := r.issues.filter (·.isCorrected)

end SourceReport

structure Report where
  sources : List SourceReport
  cancelled : Bool := false
  /-- The time the run took, in milliseconds. -/
  elapsed : Binary64 := ⟨0⟩

structure Totals where
  files : Nat
  issues : Nat
  opened : Nat
  passes : Nat
  iterations : Nat
  corrected : Nat
  conflicts : Nat
  disabled : Nat
  crashes : Nat
  unconverged : Nat
  aborted : Nat
  /-- The time in milliseconds, to two decimal places. -/
  elapsed : Binary64
  deriving DecidableEq, Repr

namespace Report

def issues (r : Report) : List Issue := r.sources.flatMap (·.issues)

def diagnostics (r : Report) : List Diagnostic := r.sources.flatMap (·.diagnostics)

def total (r : Report) (number : SourceReport → Nat) : Nat :=
  r.sources.foldl (fun n s => n + number s) 0

def correctedCount (r : Report) : Nat := r.total (·.corrected.length)

/-- No open issue weighs as much as `level`. -/
def succeeds (r : Report) (level : Severity) : Bool :=
  !(r.issues.any fun i => i.isOpen && decide (level.rank ≤ i.severity.rank))

/-- The time the run took, to two decimal places. -/
def roundedElapsed (r : Report) : Binary64 := r.elapsed.roundPlaces 2

def totals (r : Report) : Totals where
  files := r.sources.length
  issues := r.issues.length
  opened := r.total (·.openIssues.length)
  passes := r.total (·.passes)
  iterations := r.total (·.iterations)
  corrected := r.issues.countP (·.isCorrected)
  conflicts := r.issues.countP (·.status == .conflict)
  disabled := r.issues.countP (·.isDisabled)
  crashes := r.diagnostics.length
  unconverged := r.sources.countP fun s => !s.converged
  aborted := r.sources.countP (·.aborted)
  elapsed := r.roundedElapsed

end Report

end Lintel
