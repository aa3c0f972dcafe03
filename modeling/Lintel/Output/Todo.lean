import Lintel.Libraries
import Lintel.Program
import Lintel.Report
import Lintel.Rules.Unparsable
import Lintel.Rule.Options
import Lintel.Text.Sorted

/-!
# To-do lists

A to-do list is a configuration that silences what is open now: it has a section for every rule
with open issues, which excludes the paths they were found in. Failures of parses are not listed,
because they are to be mended, and neither are sources without a path, which cannot be excluded.

`Todo.sections` collects the sections in the order of the rules' names. `Todo.render` writes each of
them as a document of its own (`Todo.Section.page`), with comments above it, under a heading. The
library that writes the documents is an argument.
-/

namespace Lintel

namespace Todo

/-- The open issues of one rule. -/
structure Section where
  rule : String
  /-- How many issues there are. -/
  count : Nat
  /-- The paths they were found in, in order, each once. -/
  paths : List String
  deriving DecidableEq, Repr

def isListed (i : Issue) : Bool :=
  i.isOpen && i.rule != Rules.parseRuleName

def findings (s : SourceReport) : List (String × String) :=
  match s.path with
  | none => []
  | some path => if path.isEmpty then [] else (s.issues.filter isListed).map fun i => (i.rule, path)

def sectionOf (found : List (String × String)) (rule : String) : Section :=
  -- one for each issue, so the length counts issues and the set lists files
  let paths := (found.filter (·.1 == rule)).map (·.2)
  ⟨rule, paths.length, sortedSet paths⟩

/-- The sections of a report, in the order of the rules' names. -/
def sections (r : Report) : List Section :=
  let found := r.sources.flatMap findings
  (sortedSet (found.map (·.1))).map (sectionOf found)

def momentText (t : Moment) : String :=
  Data.dayText t.day ++ " " ++ Data.twoDigits t.hour ++ ":" ++ Data.twoDigits t.minute ++ ":"
    ++ Data.twoDigits t.second

def heading (now : Moment) : List String :=
  ["# This configuration file was generated by \x60" ++ Program.name ++ " --gen-config\x60",
    "# on " ++ momentText now ++ " UTC using " ++ Program.title ++ ".",
    "# The point is for the user to remove these configuration records",
    "# one by one as the reported problems are removed from the code base."]

def Section.remarks (s : Section) : List String :=
  ["", "# Problems found: " ++ toString s.count,
    "# Run \x60" ++ Program.name ++ " --only " ++ s.rule ++ "\x60 for details"]

def Section.page (s : Section) : Documents.Page :=
  ⟨s.remarks, s.rule, RuleConfig.excludedField.published, s.paths⟩

/-- The to-do list of a report, or nothing if there is nothing to list. -/
def render (now : Moment) (r : Report) (d : Documents := .builtin) : String :=
  let found := sections r
  if found.isEmpty then ""
  else
    "\n".intercalate (heading now ++ found.flatMap fun s => d.lines s.page) ++ "\n"

end Todo

end Lintel
