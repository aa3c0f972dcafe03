import Lintel.Text.Blank

/-!
# Severities

How much a finding weighs. Severities are ordered by `Severity.rank`; the names are read without
regard to case and to blanks around them. A group of rules has a default severity.
-/

namespace Lintel

/-- The configured weight of a rule's findings. -/
inductive Severity where
  | error
  | warning
  | convention
  deriving DecidableEq, Repr

namespace Severity

def all : List Severity := [.error, .warning, .convention]

def name : Severity → String
  | .error => "error"
  | .warning => "warning"
  | .convention => "convention"

/-- The place of a severity in the order of weight. -/
def rank : Severity → Nat
  | .convention => 0
  | .warning => 1
  | .error => 2

def symbol : Severity → String
  | .error => "E"
  | .warning => "W"
  | .convention => "C"

def ofName? (s : String) : Option Severity :=
  all.find? fun v => v.name == s

/-- Read a severity, ignoring case and blanks around it. -/
def parse? (s : String) : Option Severity :=
  ofName? (lowerAscii (trimBlank s))

def unknownMessage (shown : String) : String :=
  "Unknown severity " ++ shown ++ ". Use one of: " ++ ", ".intercalate (all.map name)

/-- The groups whose rules warn unless configured otherwise. -/
def warningGroups : List String := ["Lint", "Metrics", "Performance"]

/-- The severity of a group's rules unless configured otherwise. -/
def defaultFor (group : String) : Severity :=
  if warningGroups.contains group then .warning else .convention

@[simp] theorem ofName?_name (s : Severity) : ofName? s.name = some s := by
  cases s <;> decide

end Severity

end Lintel
