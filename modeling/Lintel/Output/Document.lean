import Lintel.Data.Json
import Lintel.Program
import Lintel.Report

/-!
# Reports as data

The whole report as one document: what ran, the issues of every source, the crashes of rules, and
the totals.
-/

namespace Lintel

namespace Output

def locationData (l : Location) : Data :=
  .record [("line", .int l.line), ("column", .int l.column)]

def optLocationData : Option Location → Data
  | some l => locationData l
  | none => .null

def issueData (i : Issue) : Data :=
  .record [("rule", .text i.rule), ("severity", .text i.severity.name),
    ("status", .text i.status.name), ("correctable", .bool i.correctable),
    ("message", .text i.message), ("location", locationData i.location),
    ("end_location", optLocationData i.endLocation)]

def sourceData (s : SourceReport) : Data :=
  .record [("path", .optText s.path), ("corrected", .bool s.source.isCorrected),
    ("converged", .bool s.converged), ("aborted", .bool s.aborted), ("passes", .nat s.passes),
    ("issues", .list (s.issues.map issueData))]

def crashData (d : Diagnostic) : Data :=
  .record [("rule", .text d.rule), ("path", .optText d.path), ("phase", .text d.phase.name),
    ("error_type", .text d.kind), ("message", .text d.message)]

def totalsFields (t : Totals) : List (String × Data) :=
  [("files", .nat t.files), ("issues", .nat t.issues), ("open", .nat t.opened),
    ("passes", .nat t.passes), ("iterations", .nat t.iterations), ("corrected", .nat t.corrected),
    ("conflicts", .nat t.conflicts), ("disabled", .nat t.disabled), ("crashes", .nat t.crashes),
    ("unconverged", .nat t.unconverged), ("aborted", .nat t.aborted)]

def reportData (r : Report) : Data :=
  let t := r.totals
  .record [
    ("metadata", .record [("autolint_version", .text Program.version),
      ("elapsed_ms", .float t.elapsed), ("cancelled", .bool r.cancelled)]),
    ("sources", .list (r.sources.map sourceData)),
    ("diagnostics", .list (r.diagnostics.map crashData)),
    ("summary", .record (totalsFields t ++ [("elapsed_ms", .float t.elapsed)]))]

def document (layout : Data.JsonLayout) (r : Report) : String :=
  (reportData r).json layout

end Output

end Lintel
