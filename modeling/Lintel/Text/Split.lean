/-!
# Cutting a text at a character

`splitOnChar` gives the parts between the occurrences of a character, empty parts included; there
is always one part more than there are occurrences. `joinWith` puts the character back.
-/

namespace Lintel

/-- The parts of a list of characters between the occurrences of `sep`. -/
def splitOnChar (sep : Char) : List Char → List (List Char)
  | [] => [[]]
  | c :: cs =>
    if c = sep then [] :: splitOnChar sep cs
    else
      match splitOnChar sep cs with
      | [] => [[c]]
      | part :: parts => (c :: part) :: parts

/-- Parts with `sep` between them. -/
def joinWith (sep : Char) : List (List Char) → List Char
  | [] => []
  | [part] => part
  | part :: parts => part ++ sep :: joinWith sep parts

@[simp] theorem splitOnChar_nil (sep : Char) : splitOnChar sep [] = [[]] := rfl

theorem splitOnChar_ne_nil (sep : Char) (cs : List Char) : splitOnChar sep cs ≠ [] := by
  cases cs with
  | nil => simp
  | cons c cs =>
    unfold splitOnChar
    split
    · simp
    · split <;> simp

/-- **Nothing is lost**: joining the parts gives the text back. -/
theorem joinWith_splitOnChar (sep : Char) (cs : List Char) :
    joinWith sep (splitOnChar sep cs) = cs := by
  induction cs with
  | nil => rfl
  | cons c cs ih =>
    unfold splitOnChar
    have hne := splitOnChar_ne_nil sep cs
    generalize splitOnChar sep cs = parts at *
    cases parts with
    | nil => exact absurd rfl hne
    | cons part parts =>
      by_cases h : c = sep
      · simp [h, joinWith, ih]
      · cases parts <;> simp_all [joinWith]

def splitText (sep : Char) (s : String) : List String :=
  (splitOnChar sep s.toList).map String.ofList

def occursIn (word : List Char) : List Char → Bool
  | [] => word.isEmpty
  | c :: cs => word.isPrefixOf (c :: cs) || occursIn word cs

end Lintel
