import Lintel.Rules.AsciiIdentifiers
import Lintel.Rules.EmptyExpression
import Lintel.Rules.RedundantParentheses
import Lintel.Rules.TrailingWhitespace
import Lintel.Rules.Unparsable

/-!
# The catalog of rules

A catalog is a list of kinds of rules with different full names. A rule is looked up by its full
name first and then by its bare name, which finds the first rule of the catalog with it.
-/

namespace Lintel

/-- Kinds of rules, in order, with different full names. -/
structure Catalog (σ : Type) where
  kinds : List (RuleKind σ)

namespace Catalog

variable {σ : Type}

/-- Add a kind, unless there is one with its full name. -/
def register (c : Catalog σ) (k : RuleKind σ) : Catalog σ :=
  if c.kinds.any (·.fullName == k.fullName) then c else ⟨c.kinds ++ [k]⟩

/-- The catalog of some kinds; of kinds with one full name the first is kept. -/
def ofKinds (ks : List (RuleKind σ)) : Catalog σ :=
  ks.foldl register ⟨[]⟩

/-- The kind with this full name, or else the first with this bare name. -/
def find? (c : Catalog σ) (name : String) : Option (RuleKind σ) :=
  match c.kinds.find? (·.fullName == name) with
  | some k => some k
  | none => c.kinds.find? (·.profile.name == name)

def groups (c : Catalog σ) : List String :=
  c.kinds.foldl (fun gs k => if gs.contains k.profile.group then gs else gs ++ [k.profile.group]) []

def inGroup (c : Catalog σ) (group : String) : List (RuleKind σ) :=
  c.kinds.filter (·.profile.group == group)

end Catalog

/-- The rules that come with the library. -/
def Rules.shipped {σ : Type} : List (RuleKind σ) :=
  [Rules.unparsable, Rules.emptyExpression, Rules.redundantParentheses, Rules.asciiIdentifiers,
    Rules.trailingWhitespace]

def Catalog.shipped {σ : Type} : Catalog σ :=
  Catalog.ofKinds Rules.shipped

end Lintel
