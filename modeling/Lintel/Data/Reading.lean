import Lintel.Data

/-!
# Reading settings from data

Settings are read from the entries of a mapping. Everything that is wrong is reported together, so
a reading gives a value *and* a list of problems; where there is a problem the value is a stand-in
that nobody looks at. A problem says what is wrong and at which place: the key of the entry as the
document spells it, then the position in a list or the key in a nested mapping.

A field has two spellings, the one of configuration files (`Enabled`) and a plain one (`enabled`).
Either may be used; when both are given the first counts and the second is a key too many.

The reading itself is done by a library that is not part of the program, and a parameter of what
reads settings: `Validation`. The program says which fields there are, of which type each is and
what it is unless set. The library tells the entries of the fields from keys too many, makes of each
entry a value of its type, and writes fields with their values as entries. `Validation.Lawful` is
what its documentation promises and the program relies on: values that are of their type already are
taken as they are, and what is written has one entry for each field. What the library makes of data
of other types is its own affair.
-/

namespace Lintel

/-- A step on the way to a value. -/
inductive Place where
  | key (name : String)
  | index (n : Int)
  deriving DecidableEq, Repr

def Place.text : Place → String
  | key s => s
  | index n => toString n

/-- What is wrong with a value. -/
inductive Trouble where
  | unknownKey
  | keyNotText
  | notTruth
  /-- Data of a kind that cannot be a truth value. -/
  | noTruthKind
  | notText
  /-- Octets that are not those of a text. -/
  | notUnicode
  | notList
  | notWhole
  | tooManyDigits
  | fractional
  | notFinite
  | noWholeKind
  /-- A number below the least one allowed. -/
  | tooSmall
  | notMapping
  /-- A value that is refused with a message. -/
  | refused (message : String)
  deriving DecidableEq, Repr

/-- What is wrong, and where. -/
structure Problem where
  place : List Place
  trouble : Trouble
  deriving DecidableEq, Repr

namespace Problem

def placeText (p : Problem) : List String := p.place.map Place.text

/-- Problems are listed in the order of their places, compared step by step as texts. -/
def sort (ps : List Problem) : List Problem :=
  ps.mergeSort fun a b => !b.placeText.lex a.placeText fun x y => decide (x < y)

end Problem

structure Reading (α : Type) where
  value : α
  problems : List Problem := []

namespace Reading

variable {α β : Type}

def good (a : α) : Reading α := ⟨a, []⟩

/-- A stand-in with one problem at the place itself. -/
def bad (standIn : α) (t : Trouble) : Reading α := ⟨standIn, [⟨[], t⟩]⟩

def below (step : Place) (r : Reading α) : Reading α :=
  ⟨r.value, r.problems.map fun p => { p with place := step :: p.place }⟩

def map (f : α → β) (r : Reading α) : Reading β := ⟨f r.value, r.problems⟩

def result (r : Reading α) : Except (List Problem) α :=
  if r.problems.isEmpty then .ok r.value else .error (Problem.sort r.problems)

end Reading

structure Field where
  /-- The spelling of configuration files. -/
  published : String
  plain : String
  deriving DecidableEq, Repr

namespace Field

/-- The entry of a field with the spelling it uses. -/
def find? (f : Field) (entries : List (Data × Data)) : Option (String × Data) :=
  match Data.get? entries f.published with
  -- the published spelling wins over the plain one
  | some d => some (f.published, d)
  | none => (Data.get? entries f.plain).map fun d => (f.plain, d)

/-- Entries that give values to fields: each key is a spelling of a field, and no field is given in
both spellings. -/
structure Fill (fields : List Field) (entries : List (Data × Data)) : Prop where
  known : ∀ e ∈ entries, ∃ f ∈ fields, e.1 = .text f.published ∨ e.1 = .text f.plain
  once : ∀ f ∈ fields, Data.get? entries f.published = none ∨ Data.get? entries f.plain = none

end Field

/-! ### The library -/

structure Keys where
  given : Field → Option (String × Data)
  /-- What is wrong with the keys themselves. -/
  problems : List Problem := []

/-- Read a field, or take what it is unless set. -/
def Keys.read {α : Type} (k : Keys) (f : Field) (unset : α) (reader : Data → Reading α) :
    Reading α :=
  match k.given f with
  | some (spelling, d) => (reader d).below (.key spelling)
  | none => .good unset

def Data.listed : Data → Data
  | .text s => .list [.text s]
  | d => d

/-- A library that reads and writes settings. -/
structure Validation where
  keys : List Field → List (Data × Data) → Keys
  /-- The entries of settings inside of others. -/
  entries : Data → Reading (List (Data × Data))
  truth : Data → Reading Bool
  text : Data → Reading String
  texts : Data → Reading (List String)
  textsOrNull : Data → Reading (Option (List String))
  count : Data → Reading Int
  dump : List (Field × Data) → List (Data × Data)
  /-- Fields with their values as entries, in the published spelling and without nulls. -/
  dumpPublished : List (Field × Data) → List (Data × Data)

/-- What the documentation of such a library promises. -/
structure Validation.Lawful (v : Validation) : Prop where
  /-- A field may be given in either of its spellings. -/
  keys_given : ∀ {fields entries}, Field.Fill fields entries →
    ∀ f ∈ fields, (v.keys fields entries).given f = f.find? entries
  keys_problems : ∀ {fields entries}, Field.Fill fields entries →
    (v.keys fields entries).problems = []
  /-- Settings inside of others are given as a mapping. -/
  entries_map : ∀ es, v.entries (.map es) = .good es
  /-- What is of the type asked for is taken as it is. -/
  truth_bool : ∀ b, v.truth (.bool b) = .good b
  text_text : ∀ s, v.text (.text s) = .good s
  texts_list : ∀ xs : List String, v.texts (.list (xs.map .text)) = .good xs
  textsOrNull_null : v.textsOrNull .null = .good none
  textsOrNull_list : ∀ xs : List String, v.textsOrNull (.list (xs.map .text)) = .good (some xs)
  count_int : ∀ n, 0 ≤ n → v.count (.int n) = .good n
  /-- A bound that is asked for is kept, whatever the number was given as. -/
  count_nonneg : ∀ d, (v.count d).problems = [] → 0 ≤ (v.count d).value
  /-- Each field is written, under the spelling asked for. -/
  dump_eq : ∀ values, v.dump values = values.map fun e => (.text e.1.plain, e.2)
  /-- Nulls are left out if that is asked for. -/
  dumpPublished_eq : ∀ values, v.dumpPublished values
    = (values.filter fun e => !e.2.isNull).map fun e => (.text e.1.published, e.2)

end Lintel
