import Lintel.Report

/-!
# Reports in lines

Four ways to write a report in lines: every issue with the crashes and a summary; the same below
one character for each source; the open issues alone, in the form that editors read; and the
issues that comments have silenced.
-/

namespace Lintel

namespace Output

def sourceName (s : SourceReport) : String :=
  shownPath "<source>" s.path

/-- Lines with line breaks between them. -/
def ofLines (lines : List String) : String :=
  "\n".intercalate lines

/-! ### All issues -/

/-- What a line says about the status of an issue. -/
def statusMark : Status → String
  | .reported => ""
  | .corrected => " [Corrected]"
  | .conflict => " [Conflict]"
  | .unresolved => " [Unresolved]"
  | .disabled => " [Disabled]"

def issueLine (path : String) (i : Issue) : String :=
  path ++ ":" ++ i.location.text ++ " [" ++ i.severity.symbol ++ "] " ++ i.rule ++ ": " ++ i.message
    ++ statusMark i.status

/-- What a source has to say about itself: that its corrections came to no end, or that the run
was cancelled. -/
def sourceNotes (s : SourceReport) : List String :=
  -- whether its corrections would have come to an end is not known then
  if s.aborted then [sourceName s ++ ": aborted"]
  else if s.converged then []
  else [sourceName s ++ ": did not converge after " ++ toString s.iterations ++ " iterations"]

def sourceLines (s : SourceReport) : List String :=
  s.issues.map (issueLine (sourceName s)) ++ sourceNotes s

/-- A number of things, in the singular or the plural. -/
def counted (n : Nat) (one many : String) : String :=
  toString n ++ " " ++ if n = 1 then one else many

/-- A part of the summary that is left out if there is nothing to count. -/
def countedUnlessZero (n : Nat) (what : String) : List String :=
  if n = 0 then [] else [toString n ++ " " ++ what]

def summary (r : Report) : String :=
  let t := r.totals
  ", ".intercalate
      ([counted t.files "file" "files" ++ " inspected", counted t.opened "failure" "failures"]
        ++ countedUnlessZero t.corrected "corrected" ++ countedUnlessZero t.conflicts "conflicts"
        ++ countedUnlessZero t.crashes "crashes" ++ countedUnlessZero t.unconverged "not converged")
    ++ if r.cancelled then " (cancelled)" else ""

/-- An empty line in front of what follows other lines. -/
def gapAfter (lines : List String) : List String :=
  if lines.isEmpty then [] else [""]

def crashLines (r : Report) : List String :=
  if r.diagnostics.isEmpty then [] else "Rule crashes:" :: r.diagnostics.map fun d => "  " ++ d.text

/-- Every issue in a line, the crashes, and a summary. -/
def text (r : Report) : String :=
  let lines := r.sources.flatMap sourceLines
  let crashes := crashLines r
  let lines := if crashes.isEmpty then lines else lines ++ gapAfter lines ++ crashes
  ofLines (lines ++ gapAfter lines ++ [summary r])

/-- The character of a source: a point if nothing is open. -/
def progressMark (s : SourceReport) : Char :=
  if s.openIssues.isEmpty then '.' else 'F'

/-- One character for each source, and then all issues. -/
def progress (r : Report) : String :=
  String.ofList (r.sources.map progressMark) ++ "\n\n" ++ text r

/-! ### Selected issues -/

def editorLine (path : String) (i : Issue) : String :=
  path ++ ":" ++ i.location.text ++ ": " ++ i.severity.symbol ++ ": [" ++ i.rule ++ "] " ++ i.message

def editorLines (r : Report) : List String :=
  r.sources.flatMap fun s => s.openIssues.map (editorLine (sourceName s))

/-- The open issues in the form that editors read. -/
def flycheck (r : Report) : String :=
  ofLines (editorLines r)

def silencedLines (r : Report) : List String :=
  r.sources.flatMap fun s => (s.issues.filter (·.isDisabled)).map fun i =>
    sourceName s ++ ":" ++ toString i.location.line ++ " " ++ i.rule

/-- The issues that comments have silenced, under a heading, if there are any. -/
def disabled (r : Report) : String :=
  let lines := silencedLines r
  if lines.isEmpty then "" else ofLines ("Disabled with inline directives:" :: lines)

end Output

end Lintel
