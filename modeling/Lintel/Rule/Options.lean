import Lintel.Data.Readers
import Lintel.Rule

/-!
# Configurations of rules as data

The configuration of a rule is read from the section of a configuration file, written back as one,
and changed by giving some of its fields anew. A change goes through the same reading as a section
does: the current values under their plain spellings, with the given entries put over them.

The severity of a rule is read by the program itself: it is null, or a text that names a severity.
-/

namespace Lintel

namespace RuleConfig

def enabledField : Field := ⟨"Enabled", "enabled"⟩

def severityField : Field := ⟨"Severity", "severity"⟩

def excludedField : Field := ⟨"Excluded", "excluded"⟩

def excludeTernaryField : Field := ⟨"ExcludeTernary", "exclude_ternary"⟩

def excludeAssignmentsField : Field := ⟨"ExcludeAssignments", "exclude_assignments"⟩

def commonFields : List Field := [enabledField, severityField, excludedField]

def optionFields : RuleOptions → List Field
  | .none => []
  | .parentheses .. => [excludeTernaryField, excludeAssignmentsField]

/-- The words for data that names no severity. What has no spelling cannot be shown. -/
def noSeverity (d : Data) : String :=
  if d.holdsTooLong then Whole.unwritableMessage else Severity.unknownMessage d.spelling

/-- The name of a severity, or null. -/
def readSeverity (d : Data) : Reading (Option Severity) :=
  match d with
  | .null => .good none
  | .text s =>
    match Severity.parse? s with
    | some v => .good (some v)
    | none => .bad none (.refused (noSeverity d))
  | _ => .bad none (.refused (noSeverity d))

def readOptions (defaults : RuleOptions) (keys : Keys) (v : Validation) : Reading RuleOptions :=
  match defaults with
  | .none => .good .none
  | .parentheses ternary assignments =>
    let t := keys.read excludeTernaryField ternary v.truth
    let a := keys.read excludeAssignmentsField assignments v.truth
    ⟨.parentheses t.value a.value, t.problems ++ a.problems⟩

def ofEntries (defaults : RuleOptions) (entries : List (Data × Data)) (v : Validation) :
    Except (List Problem) RuleConfig :=
  let keys := v.keys (commonFields ++ optionFields defaults) entries
  let enabled := keys.read enabledField true v.truth
  let severity := keys.read severityField none readSeverity
  let excluded := keys.read excludedField none fun d => v.textsOrNull d.listed
  let options := readOptions defaults keys v
  -- the problems come in the order of the fields, keys of no field last
  Reading.result
    ⟨⟨enabled.value, severity.value, excluded.value, options.value⟩,
      enabled.problems ++ severity.problems ++ excluded.problems ++ options.problems
        ++ keys.problems⟩

def textsData (xs : List String) : Data := .list (xs.map .text)

def optionValues : RuleOptions → List (Field × Data)
  | .none => []
  | .parentheses ternary assignments =>
    [(excludeTernaryField, .bool ternary), (excludeAssignmentsField, .bool assignments)]

/-- All fields with their values; what is not set is null. -/
def values (c : RuleConfig) : List (Field × Data) :=
  [(enabledField, .bool c.enabled),
    (severityField, match c.severity with | some s => .text s.name | none => .null),
    (excludedField, match c.excluded with | some xs => textsData xs | none => .null)]
    ++ optionValues c.options

end RuleConfig

namespace Rule

variable {σ : Type}

def ofSection (k : RuleKind σ) (entries : List (Data × Data)) (v : Validation := .builtin) :
    Except (List Problem) (Rule σ) :=
  (RuleConfig.ofEntries k.defaults entries v).map fun c => ⟨k, c⟩

/-- The rule with some fields given anew. -/
def update (r : Rule σ) (given : List (Data × Data)) (v : Validation := .builtin) :
    Except (List Problem) (Rule σ) :=
  -- all fields are read again, the ones that are not given from their present values
  ofSection r.kind (given.foldl (fun es e => Data.put e.1 e.2 es) (v.dump r.config.values)) v

end Rule

end Lintel
