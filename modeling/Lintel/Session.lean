import Lintel.Config.Load
import Lintel.Invocation
import Lintel.Output

/-!
# Sessions

A session is one run of the program: arguments and a disk go in; a text to print, a disk and an
exit code come out. It goes through these steps, and ends at the first one that fails.

* `Invocation.ofArguments` reads the arguments.
* `Invocation.configure` loads the configuration and changes it as asked for.
* `Invocation.inspect` reads the sources and runs the rules on them.
* `Inspection.conclude` writes corrected sources back, and then either writes a to-do list to the
  configuration file or prints the report. Corrected sources are written before the format of the
  report is looked up, so a session that ends with an unknown format has written them.

**Blank switches** do harm where their value is needed: a blank configuration file at once, a blank
number of jobs when the sources are read, a blank level when the report is printed, and a blank
budget for every source that has something to correct.
-/

namespace Lintel

inductive Ending where
  /-- Nothing was run. -/
  | stopped (why : Invocation.Stop)
  /-- The configuration could not be loaded, changed or used. -/
  | failed (why : LoadError)
  /-- The sources were inspected. -/
  | finished (success : Bool)
  deriving DecidableEq, Repr

def Ending.exitCode : Ending → Nat
  | stopped why => why.exitCode
  | failed (.config _) => 2
  | failed _ => 1
  | finished success => if success then 0 else 1

/-- What one run of the program leaves behind. -/
structure Session (σ : Type) where
  /-- What was printed. -/
  output : String := ""
  disk : Disk
  world : World σ
  ending : Ending

/-- The report on the sources that a configuration selects. -/
structure Inspection (σ : Type) where
  config : Config σ
  report : Report
  world : World σ

variable {σ : Type}

namespace Invocation

def adjust (i : Invocation) (c : Config σ) (v : Validation) : Except ConfigError (Config σ) := do
  let globs := if i.paths.isEmpty then c.settings.globs else i.paths
  let format := match i.format with
    | some f => f.name
    | none => c.settings.formatName
  let c := { c with settings := { c.settings with globs := globs, formatName := format } }
  -- rules are chosen before some are taken out, in whatever order the switches were given
  let c ← if i.only.isEmpty then .ok c else c.enableOnly i.only v
  let c ← if i.without.isEmpty then .ok c else c.disable i.without v
  let limit := match i.maxIterations with
    | .given n => n
    -- the budget itself is missing; `checkBudget` deals with the sources that need it
    | .blank => 0
    | .unset => c.settings.maxIterations
  pure { c with settings := { c.settings with maxIterations := limit } }

def configure (i : Invocation) (catalog : Catalog σ) (disk : Disk) (env : Environment)
    (libs : Libraries) : Except LoadError (Config σ) :=
  -- a blank name is no name of a file, so the disk is not even looked at
  if i.config = .blank then
    .error (.fault (.wrongKind "the configuration file is blank"))
  else do
    let c ← Config.load catalog disk env env.cwd i.config.toOption libs
    (i.adjust c libs.validation).mapError .config

def blankBudget : Fault :=
  .wrongKind "'>=' not supported between instances of 'int' and 'list'"

/-- The report on a source, which was given up if its budget was needed and is blank. Without a
budget a source that has something to correct is left as it is and does not converge. -/
def checkBudget (i : Invocation) (e : Engine σ) (r : SourceReport) : SourceReport :=
  -- `!r.converged` tells that the budget was asked for, since none was left
  if i.maxIterations = .blank && r.passes != 0 && !r.converged then e.givenUp r.source blankBudget
  else r

def inspectSources (i : Invocation) (c : Config σ) (parser : Parser σ) (cwd : String)
    (sources : List Source) (w : World σ) : Except LoadError (Inspection σ) :=
  match Engine.ofRules c.enabledRules parser cwd c.settings.maxIterations with
  | .error _ => .error (.config .noRules)
  | .ok e =>
    let (report, w) := e.run i.fix sources w
    .ok ⟨c, { report with sources := report.sources.map (i.checkBudget e) }, w⟩

/-- Run the rules of a configuration on its sources. -/
def inspect (i : Invocation) (c : Config σ) (parser : Parser σ) (disk : Disk) (cwd : String)
    (w : World σ) : Except LoadError (Inspection σ) := do
  let sources ← (c.sources disk cwd).mapError .fault
  -- the sources are read by then, so a bad glob is the fault that counts
  if i.jobs = .blank then
    .error (.fault (.wrongKind "the number of jobs is blank"))
  else i.inspectSources c parser cwd sources w

end Invocation

namespace Inspection

def writeSource (cwd root : String) (d : Disk) (s : SourceReport) : Except Fault Disk :=
  match s.path with
  | some path =>
    -- a text that is as it was given is not written, so its file is not touched
    if !path.isEmpty && s.source.isCorrected then
      d.write cwd (Path.join root path) (Utf8.ofString s.source.text)
    else .ok d
  | none => .ok d

def writeSources (n : Inspection σ) (cwd : String) (d : Disk) : Except Fault Disk :=
  n.report.sources.foldlM (writeSource cwd n.config.root) d

/-- Write what is open to the configuration file. -/
def writeTodo (n : Inspection σ) (now : Moment) (cwd : String) (d : Disk) (libs : Libraries) :
    Session σ :=
  let text := Todo.render now n.report libs.documents
  -- an old to-do list stays where it is
  if text.isEmpty then
    ⟨"No issues found, nothing to generate\n", d, n.world, .finished true⟩
  else
    match d.write cwd (Path.join n.config.root Program.configName) (Utf8.ofString text) with
    | .error f => ⟨"", d, n.world, .failed (.fault f)⟩
    | .ok d => ⟨"Created " ++ Program.configName ++ "\n", d, n.world, .finished true⟩

def verdict (n : Inspection σ) (level : Choice Severity) : Ending :=
  match level with
  | .blank => .failed (.fault (.badValue (Severity.unknownMessage (Data.spelling (.list [])))))
  | level => .finished (n.report.succeeds (level.getD .convention))

def printReport (n : Inspection σ) (level : Choice Severity) (now : Moment) (d : Disk)
    (libs : Libraries) : Session σ :=
  match n.config.format with
  | .error e => ⟨"", d, n.world, .failed (.config e)⟩
  | .ok f =>
    -- an empty report is not even a line feed
    let text := f.render now n.report libs.documents
    ⟨if text.isEmpty then "" else text ++ "\n", d, n.world, n.verdict level⟩

/-- Write what is to be written, and print what is to be printed. -/
def conclude (n : Inspection σ) (i : Invocation) (now : Moment) (cwd : String) (d : Disk)
    (libs : Libraries) : Session σ :=
  -- files first: nothing below can keep them from being written
  match if i.fix then n.writeSources cwd d else .ok d with
  | .error f => ⟨"", d, n.world, .failed (.fault f)⟩
  | .ok d =>
    if i.genConfig then n.writeTodo now cwd d libs else n.printReport i.failLevel now d libs

end Inspection

namespace Session

def runInvocation (catalog : Catalog σ) (parser : Parser σ) (env : Environment) (now : Moment)
    (i : Invocation) (d : Disk) (w : World σ) (libs : Libraries) : Session σ :=
  match i.configure catalog d env libs with
  | .error e => ⟨"", d, w, .failed e⟩
  | .ok c =>
    match i.inspect c parser d env.cwd w with
    | .error e => ⟨"", d, w, .failed e⟩
    | .ok n => n.conclude i now env.cwd d libs

def run (catalog : Catalog σ) (parser : Parser σ) (env : Environment) (now : Moment)
    (args : List String) (d : Disk) (w : World σ) (libs : Libraries := .builtin) : Session σ :=
  match Invocation.ofArguments args with
  | .error stop => ⟨stop.output, d, w, .stopped stop⟩
  | .ok i => runInvocation catalog parser env now i d w libs

end Session

end Lintel
