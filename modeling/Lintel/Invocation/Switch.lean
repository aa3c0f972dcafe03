import Lintel.Output.Format
import Lintel.Program

/-!
# Switches

A switch is what a word with hyphens in front stands for on the command line. Every switch has a
long name, some have a letter as well, and some want a value. `Switch.named?` and `Switch.letter?`
find a switch by what is written, `Switch.abbreviated` those whose long name begins so.
-/

namespace Lintel

/-- What a word with hyphens in front stands for. -/
inductive Switch where
  | help
  | config
  | format
  | only
  | without
  | fix
  | failLevel
  | jobs
  | genConfig
  | maxIterations
  | verbose
  | version
  deriving DecidableEq, Repr

namespace Switch

def all : List Switch :=
  [.help, .config, .format, .only, .without, .fix, .failLevel, .jobs, .genConfig, .maxIterations,
    .verbose, .version]

/-- The long name, with its hyphens. -/
def name : Switch → String
  | help => "--help"
  | config => "--config"
  | format => "--format"
  | only => "--only"
  | without => "--except"
  | fix => "--fix"
  | failLevel => "--fail-level"
  | jobs => "--jobs"
  | genConfig => "--gen-config"
  | maxIterations => "--max-iterations"
  | verbose => "--verbose"
  | version => "--version"

def letter : Switch → Option Char
  | help => some 'h'
  | config => some 'c'
  | format => some 'f'
  | jobs => some 'j'
  | verbose => some 'v'
  | _ => none

def takesValue : Switch → Bool
  | config | format | only | without | failLevel | jobs | maxIterations => true
  | help | fix | genConfig | verbose | version => false

def purpose : Switch → String
  | help => "show this help message and exit"
  | config => "Path to configuration file (default: nearest " ++ Program.configName ++ ")"
  | format => "Output format (default: Formatter.Name from the config, or text)"
  | only => "Run only these rules or groups (comma-separated)"
  | without => "Disable these rules or groups (comma-separated)"
  | fix => "Correct issues in place"
  | failLevel => "Lowest severity that makes the run fail: error, warning or convention "
      ++ "(default: convention)"
  | jobs => "Number of parallel jobs (0=auto, 1=sequential, N=parallel)"
  | genConfig => "Write a " ++ Program.configName ++ " that excludes every file with issues"
  | maxIterations => "Maximum correction rounds per file"
  | verbose => "Enable verbose output"
  | version => "show program's version number and exit"

/-- What stands for the value of a switch. -/
def placeholder : Switch → String
  | config => "CONFIG"
  | format => "\x7b" ++ ",".intercalate Format.names ++ "\x7d"
  | only => "ONLY"
  | without => "EXCEPT_RULES"
  | failLevel => "FAIL_LEVEL"
  | jobs => "JOBS"
  | maxIterations => "MAX_ITERATIONS"
  | help | fix | genConfig | verbose | version => ""

def named? (s : String) : Option Switch :=
  all.find? fun w => w.name == s

def letter? (c : Char) : Option Switch :=
  all.find? fun w => w.letter == some c

def abbreviated (start : String) : List Switch :=
  all.filter fun w => start.toList.isPrefixOf w.name.toList

@[simp] theorem named?_name (s : Switch) : named? s.name = some s := by
  cases s <;> decide

end Switch

end Lintel
