import Lintel.Path.Exclusion
import Lintel.Source

/-!
# Rules

A rule is a **kind** together with a configuration. The kind says what the rule is called, which
options it has, and how it finds and corrects issues; the configuration is what the user set. The
name of a rule within its group and the group's name, with a slash between them, are its full
name.

A kind's `detect` may give no list at all instead of an empty one; most callers do not tell the
two apart. A kind is **obligatory** if its rule can be neither disabled nor excluded.

`Rule.issueAt` builds the issues of a rule: message, severity and whether a correction is on offer
come from the rule unless the finding says otherwise, and the locations come from the text.
-/

namespace Lintel

structure RuleProfile where
  name : String
  group : String
  description : String := ""
  defaultSeverity : Severity := Severity.defaultFor group
  correctable : Bool := false
  /-- What logs call rules of this kind. -/
  label : String
  deriving DecidableEq, Repr

def RuleProfile.fullName (p : RuleProfile) : String :=
  p.group ++ "/" ++ p.name

/-- The options of a rule beyond the common ones. -/
inductive RuleOptions where
  | none
  | parentheses (excludeTernary excludeAssignments : Bool)
  deriving DecidableEq, Repr

/-- What the user set for a rule. -/
structure RuleConfig where
  enabled : Bool := true
  severity : Option Severity := none
  excluded : Option (List String) := none
  options : RuleOptions := .none
  deriving DecidableEq, Repr

structure RuleKind (σ : Type) where
  profile : RuleProfile
  /-- The further options with their values unless set. -/
  defaults : RuleOptions := .none
  /-- The rule can be neither disabled nor excluded. -/
  obligatory : Bool := false
  /-- The issues of a text, or no list at all. -/
  detect : RuleConfig → View → σ → Reply σ (Option (List Issue))
  correct : RuleConfig → View → Issue → σ → Reply σ (Option Edit)

namespace RuleKind

variable {σ : Type}

def fullName (k : RuleKind σ) : String := k.profile.fullName

def defaultConfig (k : RuleKind σ) : RuleConfig where
  options := k.defaults

end RuleKind

structure Rule (σ : Type) where
  kind : RuleKind σ
  config : RuleConfig

namespace Rule

variable {σ : Type}

def ofKind (k : RuleKind σ) : Rule σ := ⟨k, k.defaultConfig⟩

def fullName (r : Rule σ) : String := r.kind.fullName

def group (r : Rule σ) : String := r.kind.profile.group

/-- Whether the rule takes part in a run. -/
def enabled (r : Rule σ) : Bool := r.kind.obligatory || r.config.enabled

def severityOf (p : RuleProfile) (c : RuleConfig) : Severity :=
  c.severity.getD p.defaultSeverity

def severity (r : Rule σ) : Severity := severityOf r.kind.profile r.config

/-- The patterns of the paths the rule is not applied to. -/
def excluded (r : Rule σ) : List String := r.config.excluded.getD []

def excludes (cwd : String) (r : Rule σ) (path : Option String) : Bool :=
  !r.kind.obligatory && Path.matchesAny cwd cwd path r.excluded

def detect (r : Rule σ) (v : View) (memory : σ) : Reply σ (Option (List Issue)) :=
  r.kind.detect r.config v memory

def correct (r : Rule σ) (v : View) (issue : Issue) (memory : σ) : Reply σ (Option Edit) :=
  r.kind.correct r.config v issue memory

/-- A rule in a few words, for logs. -/
def summary (r : Rule σ) : String :=
  r.kind.profile.label ++ "(" ++ r.fullName ++ ")"

/-- The issue over a range of octets. An empty message stands for the description of the rule. -/
def issueAt (p : RuleProfile) (c : RuleConfig) (v : View) (start stop : Int)
    (message : String := "") (correctable : Option Bool := none)
    (remedy : Option Remedy := none) : Issue where
  rule := p.fullName
  group := p.group
  message := if message.isEmpty then p.description else message
  severity := severityOf p c
  location := v.locate start
  start := start
  stop := stop
  -- the location of the last octet in the range, so an empty range has none
  endLocation := if start < stop then some (v.locate (stop - 1)) else none
  correctable := correctable.getD p.correctable
  remedy := remedy

def issueAtNode (p : RuleProfile) (c : RuleConfig) (v : View) (n : Node) (message : String) :
    Issue :=
  issueAt p c v n.start n.stop message

/-- A detection that reads the nodes of the tree and keeps no memory. -/
def detectNodes (find : RuleConfig → View → List Node → List Issue) (c : RuleConfig) (v : View)
    (memory : σ) : Reply σ (Option (List Issue)) :=
  .ofExcept (v.nodes.map fun ns => some (find c v ns)) memory

def neverCorrects (_ : RuleConfig) (_ : View) (_ : Issue) (memory : σ) :
    Reply σ (Option Edit) :=
  .ofExcept (.ok none) memory

/-- An edit over a range of offsets; offsets that are not those of a range are the rule's fault. -/
def proposeEdit (start stop : Int) (replacement : String) : Except Fault (Option Edit) :=
  match Edit.make start stop replacement with
  | .ok e => .ok (some e)
  | .error r => .error (.badRange r)

end Rule

end Lintel
