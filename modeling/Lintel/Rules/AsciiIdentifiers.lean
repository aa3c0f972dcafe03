import Lintel.Rule

/-!
# Identifiers in ASCII

The rule `Naming/AsciiIdentifiers` reports names with characters outside ASCII where they are
declared: names of classes, modules and methods, parameters, and targets of assignments. A name
that two declarations share a range for is reported once.
-/

namespace Lintel.Rules

namespace AsciiIdentifiers

def profile : RuleProfile where
  name := "AsciiIdentifiers"
  group := "Naming"
  description := "Disallows non-ascii characters in identifiers"
  label := "AsciiIdentifiersRule"

def message : String := "Identifier contains non-ascii characters"

/-- The kinds of declarations that fill the field `name`. -/
def declarationKinds : List String := ["class", "module", "method", "singleton_method"]

def parameterListKinds : List String :=
  ["method_parameters", "block_parameters", "lambda_parameters"]

/-- The kinds of parameters that fill the field `name`. -/
def namedParameterKinds : List String :=
  ["optional_parameter", "keyword_parameter", "splat_parameter", "hash_splat_parameter",
    "block_parameter"]

def assignmentKinds : List String := ["assignment", "operator_assignment"]

def variableKinds : List String :=
  ["identifier", "constant", "instance_variable", "class_variable", "global_variable"]

def targetListKinds : List String :=
  ["left_assignment_list", "destructured_left_assignment", "rest_assignment"]

mutual

def parameterNames : Node → List Node
  | ⟨kind, start, stop, named, missing, field, children⟩ =>
    if kind == "identifier" then [⟨kind, start, stop, named, missing, field, children⟩]
    else if namedParameterKinds.contains kind then
      (children.find? fun c => c.field == some "name").toList
    -- parameters in parentheses, to any depth
    else if kind == "destructured_parameter" then namesOfParameters children
    else []

/-- The names that the named ones among some nodes declare as parameters. -/
def namesOfParameters : List Node → List Node
  | [] => []
  | c :: cs => if c.named then parameterNames c ++ namesOfParameters cs else namesOfParameters cs

end

mutual

def targets : Node → List Node
  | ⟨kind, start, stop, named, missing, field, children⟩ =>
    if variableKinds.contains kind then [⟨kind, start, stop, named, missing, field, children⟩]
    else if targetListKinds.contains kind then targetsOf children
    else []

def targetsOf : List Node → List Node
  | [] => []
  | c :: cs => if c.named then targets c ++ targetsOf cs else targetsOf cs

end

def declaredNames (n : Node) : List Node :=
  if declarationKinds.contains n.kind then (n.childByField "name").toList
  -- the whole list at once: a parameter by itself declares nothing
  else if parameterListKinds.contains n.kind then namesOfParameters n.children
  else if assignmentKinds.contains n.kind then
    match n.childByField "left" with
    | some left => targets left
    | none => []
  else []

/-- The octets of a node in the text a rule sees. -/
def nodeBytes (v : View) (n : Node) : Bytes :=
  (v.bytes.drop n.start).take (n.stop - n.start)

/-- Whether the name of a node has a character outside ASCII. -/
def isForeign (v : View) (n : Node) : Bool :=
  (Utf8.decodeLossy (nodeBytes v n)).any fun c => decide (0x7F < c.toNat)

/-- The nodes whose range did not occur before, given the ranges that did. -/
def firstOfRange : List (Nat × Nat) → List Node → List Node
  | _, [] => []
  | seen, n :: ns =>
    if seen.contains (n.start, n.stop) then firstOfRange seen ns
    else n :: firstOfRange ((n.start, n.stop) :: seen) ns

def reported (v : View) (nodes : List Node) : List Node :=
  -- of two declarations over one range the first in document order counts
  (firstOfRange [] ((nodes.filter (·.named)).flatMap declaredNames)).filter (isForeign v)

def find (c : RuleConfig) (v : View) (nodes : List Node) : List Issue :=
  (reported v nodes).map fun n => Rule.issueAtNode profile c v n message

end AsciiIdentifiers

def asciiIdentifiers {σ : Type} : RuleKind σ where
  profile := AsciiIdentifiers.profile
  detect := Rule.detectNodes AsciiIdentifiers.find
  correct := Rule.neverCorrects

end Lintel.Rules
