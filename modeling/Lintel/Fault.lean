import Lintel.Edit
import Lintel.Text.Quoted

/-!
# Faults

A fault is why somebody who was asked could not answer. A rule's fault is recorded and the run
goes on without that answer; a fault of the parser, or a revised text that cannot be read back,
gives up the source; a fault outside of the run, in a document or on the disk, ends the session.
`Fault.kind` and `Fault.message` are the two texts that a report shows.
-/

namespace Lintel

/-- Why somebody gave no answer. -/
inductive Fault where
  /-- The rule has no detection of its own. -/
  | notImplemented
  /-- The rule gave up with a message. -/
  | failed (message : String)
  /-- There is a value of the right kind that cannot be used. -/
  | badValue (message : String)
  | wrongKind (message : String)
  | tooLarge
  | noTruthValue (text : String)
  | noMoment
  | noDigits
  /-- Something lies too deep in other things, or in itself. -/
  | tooDeep
  /-- There is a text with half of a surrogate pair, which cannot be written in octets. -/
  | noOctets
  /-- There is a folder where a file is to be written. -/
  | inTheWay (path : String)
  | badRange (range : BadRange)
  | outsideIssue (start stop : Nat) (issueStart issueStop : Int)
  | pastEnd (stop : Nat)
  /-- The parser knows no tree for the text. -/
  | noTree
  /-- The rule returned no list of findings where one is needed. -/
  | noFindings
  /-- A script has no pass to play. -/
  | noPass
  /-- Octets that are not the octets of a text. -/
  | notText (bad : Utf8.BadBytes)
  deriving DecidableEq, Repr

namespace Fault

def kind : Fault → String
  | notImplemented => "NotImplementedError"
  | failed _ => "RuntimeError"
  | badValue _ => "ValueError"
  | wrongKind _ => "TypeError"
  | tooLarge => "OverflowError"
  | noTruthValue _ => "KeyError"
  | noMoment => "AttributeError"
  | noDigits => "IndexError"
  | tooDeep => "RecursionError"
  | noOctets => "UnicodeEncodeError"
  | inTheWay _ => "IsADirectoryError"
  | badRange _ => "ValueError"
  | outsideIssue .. => "InvalidEditError"
  | pastEnd _ => "InvalidEditError"
  | noTree => "LookupError"
  | noFindings => "TypeError"
  | noPass => "IndexError"
  | notText _ => "UnicodeDecodeError"

/-- A half-open range in brackets. -/
def rangeText (start stop : Int) : String :=
  "[" ++ toString start ++ ", " ++ toString stop ++ ")"

def message : Fault → String
  | notImplemented => ""
  | failed m => m
  | badValue m => m
  | wrongKind m => m
  | tooLarge => "number too large"
  | noTruthValue text => quoted text
  | noMoment => "not a moment"
  | noDigits => "string index out of range"
  | tooDeep => "maximum recursion depth exceeded"
  | noOctets => "surrogates not allowed"
  | inTheWay path => "there is a folder at " ++ quoted path
  | badRange r => r.message
  | outsideIssue s e i j =>
    "edit " ++ rangeText s e ++ " is outside issue range " ++ rangeText i j
  | pastEnd e => "edit ends past the end of the source (" ++ toString e ++ ")"
  | noTree => "no tree for this text"
  | noFindings => "'NoneType' object is not iterable"
  | noPass => "list index out of range"
  | notText bad => bad.message

end Fault

inductive Phase where
  | detect
  | correct
  | parse
  | other (name : String)
  deriving DecidableEq, Repr

def Phase.name : Phase → String
  | .detect => "detect"
  | .correct => "correct"
  | .parse => "parse"
  | .other name => name

/-- The record of a fault in a report. -/
structure Diagnostic where
  rule : String
  path : Option String
  phase : Phase
  message : String
  kind : String := "Exception"
  deriving DecidableEq, Repr

/-- The path that stands for a source, with a word for sources that have none. An empty path
counts as none. -/
def shownPath (missing : String) : Option String → String
  | some p => if p.isEmpty then missing else p
  | none => missing

namespace Diagnostic

def ofFault (rule : String) (path : Option String) (phase : Phase) (f : Fault) : Diagnostic :=
  ⟨rule, path, phase, f.message, f.kind⟩

def text (d : Diagnostic) : String :=
  shownPath "<source>" d.path ++ ": " ++ d.rule ++ " crashed during " ++ d.phase.name ++ ": "
    ++ d.kind ++ ": " ++ d.message

end Diagnostic

end Lintel
