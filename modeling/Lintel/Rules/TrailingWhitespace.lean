import Lintel.Rule

/-!
# Trailing whitespace

The rule `Layout/TrailingWhitespace` reports runs of spaces and tabs at the end of a line and
removes them. A line ends before a line feed, before a carriage return that stands before a line
feed or at the end of the text, and at the end of the text.
-/

namespace Lintel.Rules

namespace TrailingWhitespace

def profile : RuleProfile where
  name := "TrailingWhitespace"
  group := "Layout"
  description := "Disallows trailing whitespace"
  correctable := true
  label := "TrailingWhitespaceRule"

def message : String := "Trailing whitespace detected"

def isSpace (b : UInt8) : Bool := b == 0x20 || b == 0x09

def atLineEnd : Bytes → Bool
  | [] => true
  | b :: rest =>
    -- a carriage return in the middle of a line does not end it
    b == newline || (b == 0x0D && (match rest with | [] => true | c :: _ => c == newline))

/-- The runs of spaces and tabs at line ends in a text that begins at `offset`. `run` is where
the run of spaces just before it starts, if there is one. -/
def runsFrom : Nat → Option Nat → Bytes → List (Nat × Nat)
  | offset, run, [] =>
    match run with
    | some start => [(start, offset)]
    | none => []
  | offset, run, b :: rest =>
    -- a run goes on from where it began
    if isSpace b then runsFrom (offset + 1) (some (run.getD offset)) rest
    else
      match run with
      | some start =>
        -- the run is over; it counts only if the line is over as well
        if atLineEnd (b :: rest) then (start, offset) :: runsFrom (offset + 1) none rest
        else runsFrom (offset + 1) none rest
      | none => runsFrom (offset + 1) none rest

/-- The runs of spaces and tabs at line ends. -/
def runs (bs : Bytes) : List (Nat × Nat) :=
  runsFrom 0 none bs

def find (c : RuleConfig) (v : View) : List Issue :=
  (runs v.bytes).map fun (start, stop) => Rule.issueAt profile c v start stop message

end TrailingWhitespace

def trailingWhitespace {σ : Type} : RuleKind σ where
  profile := TrailingWhitespace.profile
  detect c v memory := .ofExcept (.ok (some (TrailingWhitespace.find c v))) memory
  correct _ _ issue memory := .ofExcept (Rule.proposeEdit issue.start issue.stop "") memory

end Lintel.Rules
