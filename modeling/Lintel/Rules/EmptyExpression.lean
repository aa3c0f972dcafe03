import Lintel.Rule

/-!
# Empty expressions

The rule `Lint/EmptyExpression` reports parentheses with nothing inside, and blocks between
`begin` and `end` that have no body or hold only `nil`. Comments do not count as a body. Keyword
tokens share the kind of the node they open, so only named nodes are looked at.
-/

namespace Lintel.Rules

namespace EmptyExpression

def profile : RuleProfile where
  name := "EmptyExpression"
  group := "Lint"
  description := "Disallows empty expressions"
  label := "EmptyExpressionRule"

def message : String := "Avoid empty expressions"

def body (n : Node) : List Node :=
  n.namedChildren.filter fun c => !c.isComment

/-- Nothing inside, or only `nil` in a block. -/
def isEmpty (n : Node) : Bool :=
  match body n with
  | [] => true
  -- `(nil)` has a value; `begin nil end` is taken for an empty block
  | [only] => n.kind == "begin" && only.kind == "nil"
  | _ => false

def isReported (n : Node) : Bool :=
  n.named && (n.kind == "parenthesized_statements" || n.kind == "begin") && isEmpty n

def find (c : RuleConfig) (v : View) (nodes : List Node) : List Issue :=
  (nodes.filter isReported).map fun n => Rule.issueAtNode profile c v n message

end EmptyExpression

def emptyExpression {σ : Type} : RuleKind σ where
  profile := EmptyExpression.profile
  detect := Rule.detectNodes EmptyExpression.find
  correct := Rule.neverCorrects

end Lintel.Rules
