import Lintel.Rule

/-!
# Text that does not parse

The rule `Lint/Syntax` reports the failure of the parser. A broken parse blocks every other rule,
so this one can be neither disabled nor excluded, and what it reports is never corrected.
-/

namespace Lintel.Rules

def parseRuleName : String := "Lint/Syntax"

namespace Unparsable

def profile : RuleProfile where
  name := "Syntax"
  group := "Lint"
  description := "Reports invalid syntax"
  defaultSeverity := .error
  label := "SyntaxRule"

/-- The issue for a parse that failed. -/
def find (c : RuleConfig) (v : View) (p : Parsed) : List Issue :=
  match p.failure with
  | none => []
  | some f => [Rule.issueAt profile c v f.start f.stop f.message (some false)]

end Unparsable

/-- The rule that reports text that does not parse. -/
def unparsable {σ : Type} : RuleKind σ where
  profile := Unparsable.profile
  obligatory := true
  detect c v memory := .ofExcept (v.parsed.map fun p => some (Unparsable.find c v p)) memory
  correct := Rule.neverCorrects

end Lintel.Rules
