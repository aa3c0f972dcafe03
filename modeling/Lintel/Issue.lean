import Lintel.Severity
import Lintel.Text.Location
import Lintel.Text.Quoted

/-!
# Issues

An issue is one finding of a rule: what was found, how much it weighs and where it is, both as a
range of octets and as locations. The range refers to the version of the text the issue was found
in. The **status** is the only part that changes after the issue is found:

* it starts as `reported`;
* an inline comment makes it `disabled`;
* an applied correction makes it `corrected`, a correction that lost against another one
  `conflict`;
* it becomes `unresolved` when the budget of corrections is used up.

A rule makes an issue for every finding, and each issue is then an object of its own. Nothing keeps
a rule from handing over one issue twice, though. Such an issue bears a name (`Issue.object`) that
tells that its entries in a list are one and the same. The engine goes by entries: it gives a status
to each of them where one object would be given a status twice. The status of an object is the one
given last to any of its entries, so entry and object say the same as long as all issues are new
(`Issue.IsNew`).
-/

namespace Lintel

inductive Status where
  | reported
  | corrected
  | conflict
  | unresolved
  | disabled
  deriving DecidableEq, Repr

namespace Status

def all : List Status := [.reported, .corrected, .conflict, .unresolved, .disabled]

def name : Status → String
  | .reported => "reported"
  | .corrected => "corrected"
  | .conflict => "unresolved_conflict"
  | .unresolved => "unresolved"
  | .disabled => "disabled"

def ofName? (s : String) : Option Status :=
  all.find? fun v => v.name == s

/-- Whether the finding still asks for something to be done. -/
def isOpen : Status → Bool
  | .reported | .conflict | .unresolved => true
  | .corrected | .disabled => false

/-- The words for a name that is none of a status. -/
def unknownMessage (s : String) : String :=
  quoted s ++ " is not a valid IssueStatus"

@[simp] theorem ofName?_name (s : Status) : ofName? s.name = some s := by
  cases s <;> decide

end Status

/-- What a rule noted for its own use when it found an issue: the answer it will give when asked
for a correction. -/
inductive Remedy where
  /-- Propose nothing. -/
  | decline
  | refuse (message : String)
  /-- Propose to replace a range. -/
  | replace (start stop : Int) (text : String)
  deriving DecidableEq, Repr

structure Issue where
  rule : String
  group : String
  message : String
  severity : Severity
  location : Location
  start : Int
  stop : Int
  endLocation : Option Location := none
  correctable : Bool := false
  status : Status := .reported
  remedy : Option Remedy := none
  /-- The name of an object that may be handed over again. Issues without a name are all
  different. -/
  object : Option Nat := none
  deriving DecidableEq, Repr

namespace Issue

/-- The issue was made for a finding: it is an object of its own, and nothing has happened to it. -/
structure IsNew (i : Issue) : Prop where
  status : i.status = .reported
  object : i.object = none

/-- Two issues of a list are not one and the same object. -/
def Differs (i j : Issue) : Prop :=
  i.object = none ∨ i.object ≠ j.object

theorem Differs.symm {i j : Issue} (h : i.Differs j) : j.Differs i := by
  rcases h with h | h
  · cases hj : j.object with
    -- only if both have a name can the names be compared
    | none => exact .inl hj
    | some _ => exact .inr (by simp [h, hj])
  · exact .inr h.symm

def isCorrected (i : Issue) : Bool := i.status == .corrected

def isDisabled (i : Issue) : Bool := i.status == .disabled

/-- The finding still asks for something to be done. -/
def isOpen (i : Issue) : Bool := i.status.isOpen

/-- A correction may be asked for: the rule offers one and nothing has happened to the issue. -/
def isPending (i : Issue) : Bool := i.correctable && i.status == .reported

def withStatus (s : Status) (i : Issue) : Issue := { i with status := s }

def summary (i : Issue) : String :=
  "Issue(" ++ i.rule ++ " " ++ i.location.text ++ " " ++ i.status.name ++ " " ++ quoted i.message
    ++ ")"

@[simp] theorem withStatus_status (s : Status) (i : Issue) : (i.withStatus s).status = s := rfl

@[simp] theorem withStatus_object (s : Status) (i : Issue) : (i.withStatus s).object = i.object :=
  rfl

end Issue

end Lintel
