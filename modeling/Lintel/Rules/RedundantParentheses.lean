import Lintel.Rule

/-!
# Redundant parentheses

The rule `Style/RedundantParentheses` reports parentheses around the condition of a control
expression, where they add nothing, and drops them.

A condition is reported when its parentheses hold exactly one expression, comments aside. Two
options narrow this. Parenthesised assignments are left alone when `excludeAssignments` is set.
Conditions of the ternary operator are left alone while `excludeTernary` is set; when they are
looked at, assignments and conditions joined by a logical operator are still left alone, because
without parentheses they would mean something else.

Dropping parentheses must not join words: a space is put in their place where neither the text
outside nor the text inside has a blank. A semicolon after them needs no space.
-/

namespace Lintel.Rules

namespace RedundantParentheses

def profile : RuleProfile where
  name := "RedundantParentheses"
  group := "Style"
  description := "Disallows redundant parentheses around control expressions"
  correctable := true
  label := "RedundantParenthesesRule"

def message : String := "Redundant parentheses"

/-- The kinds of the control expressions whose condition fills the field `condition`. -/
def conditionKinds : List String :=
  ["if", "elsif", "unless", "while", "until", "if_modifier", "unless_modifier", "while_modifier",
    "until_modifier"]

def assignmentKinds : List String := ["assignment", "operator_assignment"]

/-- The operators that join conditions. -/
def logicalOperators : List String := ["&&", "||", "and", "or"]

/-- The condition of a control expression, and whether the expression is a ternary operator. -/
def condition? (n : Node) : Option (Node × Bool) :=
  if conditionKinds.contains n.kind then (n.childByField "condition").map (·, false)
  else if n.kind == "case" then (n.childByField "value").map (·, false)
  else if n.kind == "conditional" then (n.childByField "condition").map (·, true)
  else none

/-- A condition that is joined by a logical operator. -/
def isLogical (expression : Node) : Bool :=
  expression.kind == "binary"
    && (match expression.childByField "operator" with
        | some operator => logicalOperators.contains operator.kind
        | none => false)

/-- Whether the parentheses around a condition can be dropped. -/
def isRedundant (excludeTernary excludeAssignments : Bool) (condition : Node) (ternary : Bool) :
    Bool :=
  condition.kind == "parenthesized_statements"
    && (match condition.namedChildren.filter fun c => !c.isComment with
        | [expression] =>
          -- without them an assignment in a ternary operator would take in the whole of it
          !(assignmentKinds.contains expression.kind && (ternary || excludeAssignments))
            && !(ternary && (excludeTernary || isLogical expression))
        -- nothing to unwrap, or more than one expression
        | _ => false)

/-- The values of the two options; a configuration without them has the defaults. -/
def optionsOf (c : RuleConfig) : Bool × Bool :=
  match c.options with
  | .parentheses excludeTernary excludeAssignments => (excludeTernary, excludeAssignments)
  | .none => (true, false)

def reported? (c : RuleConfig) (n : Node) : Option Node :=
  if n.named then
    match condition? n with
    | some (condition, ternary) =>
      if isRedundant (optionsOf c).1 (optionsOf c).2 condition ternary then some condition
      else none
    | none => none
  else none

def find (c : RuleConfig) (v : View) (nodes : List Node) : List Issue :=
  (nodes.filterMap (reported? c)).map fun n => Rule.issueAtNode profile c v n message

def isBlankChar (c : Option Char) : Bool :=
  c.any isBlank

def areBlank (bs : Bytes) : Bool :=
  !bs.isEmpty && bs.all isByteBlank

/-- The text that takes the place of the parenthesised range: what stands between the parentheses,
with a space on a side where words would be joined. -/
def unwrapped (v : View) (start stop : Int) : List Char :=
  let inside := Utf8.decodeLossy (slice v.bytes (start + 1) (stop - 1))
  -- nothing stands before the start of a text, and nothing is as good as a blank
  let before := if 0 < start then slice v.bytes (start - 1) start else [0x20]
  let after := slice v.bytes stop (stop + 1)
  -- blanks are told per octet outside and per character inside
  let left := if !areBlank before && !isBlankChar inside.head? then ' ' :: inside else inside
  if !after.isEmpty && !areBlank after && after != [0x3B] && !isBlankChar left.getLast? then
    left ++ [' ']
  else left

/-- Drop the parentheses at the ends of a range, if they are there. -/
def propose (v : View) (start stop : Int) : Except Fault (Option Edit) :=
  if slice v.bytes start (start + 1) = [0x28] ∧ slice v.bytes (stop - 1) stop = [0x29] then
    Rule.proposeEdit start stop (String.ofList (unwrapped v start stop))
  else .ok none

end RedundantParentheses

def redundantParentheses {σ : Type} : RuleKind σ where
  profile := RedundantParentheses.profile
  defaults := .parentheses true false
  detect := Rule.detectNodes RedundantParentheses.find
  correct _ v issue memory := .ofExcept (RedundantParentheses.propose v issue.start issue.stop) memory

end Lintel.Rules
