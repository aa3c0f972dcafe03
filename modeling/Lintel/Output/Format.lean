/-!
# Formats

The forms in which a report can be written, and their names.
-/

namespace Lintel

/-- The forms in which a report can be written. -/
inductive Format where
  | text
  | progress
  | json
  | flycheck
  | disabled
  | todo
  | silent
  deriving DecidableEq, Repr

namespace Format

def all : List Format := [.text, .progress, .json, .flycheck, .disabled, .todo, .silent]

def name : Format → String
  | .text => "text"
  | .progress => "progress"
  | .json => "json"
  | .flycheck => "flycheck"
  | .disabled => "disabled"
  | .todo => "todo"
  | .silent => "silent"

def names : List String := all.map name

def ofName? (s : String) : Option Format :=
  all.find? fun f => f.name == s

@[simp] theorem ofName?_name (f : Format) : ofName? f.name = some f := by
  cases f <;> decide

end Format

end Lintel
