import Lintel.Issue
import Lintel.Rules.Unparsable
import Lintel.Text.Blank
import Lintel.Text.Split

/-!
# Suppression comments

A comment silences findings on its own line or on the next one:

    x = 1 # autolint:disable Style/RedundantParentheses, Lint
    # autolint:disable-next-line Naming/AsciiIdentifiers

A **directive** is a `#`, blanks, the word `autolint:` with `disable` or `disable-next-line`, at
least one blank, and names separated by commas with blanks around them. A name is a run of ASCII
letters, digits, underscores and slashes. Each `#` of a line may start a directive; a directive
holds no second `#`, so they do not overlap.

An issue is silenced by a directive for its line that names its rule in full, the part of that
name after the first slash, or its group. The failure of a parse is never silenced.
-/

namespace Lintel

inductive Reach where
  /-- The line the directive stands on. -/
  | sameLine
  | nextLine
  deriving DecidableEq, Repr

structure Directive where
  reach : Reach
  names : List String
  deriving DecidableEq, Repr

namespace Directive

def isNameChar (c : Char) : Bool :=
  c.isAlphanum || c = '_' || c = '/'

/-- What follows `word`, if the text starts with it. -/
def after? (word cs : List Char) : Option (List Char) :=
  if word.isPrefixOf cs then some (cs.drop word.length) else none

theorem length_dropWhile_le {α : Type} (p : α → Bool) (xs : List α) :
    (xs.dropWhile p).length ≤ xs.length := by
  induction xs with
  | nil => simp
  | cons x xs ih =>
    simp only [List.dropWhile_cons]
    split
    · -- a dropped head makes it shorter, a kept one ends the dropping
      simp only [List.length_cons]; omega
    · simp

/-- The names that follow a name: each after a comma, with blanks around it. -/
def moreNames (cs : List Char) : List (List Char) :=
  match _ : cs.dropWhile isBlank with
  | ',' :: rest =>
    let name := (rest.dropWhile isBlank).takeWhile isNameChar
    -- a comma with no name behind it belongs to the comment, not to the list
    if name.isEmpty then []
    else name :: moreNames ((rest.dropWhile isBlank).dropWhile isNameChar)
  | _ => []
termination_by cs.length
decreasing_by
  rename_i h _
  have h₁ := length_dropWhile_le isBlank cs
  have h₂ := length_dropWhile_le isBlank rest
  have h₃ := length_dropWhile_le isNameChar (rest.dropWhile isBlank)
  -- the comma itself is what makes the rest shorter
  rw [h] at h₁
  simp only [List.length_cons] at h₁
  omega

/-- The names at the start of a text: the longest list there is. -/
def names? (cs : List Char) : Option (List String) :=
  let name := cs.takeWhile isNameChar
  if name.isEmpty then none
  else some ((name :: moreNames (cs.dropWhile isNameChar)).map String.ofList)

/-- The directive whose reach has been read: a blank, more blanks, and names. -/
def withReach? (reach : Reach) : List Char → Option Directive
  | [] => none
  | c :: cs =>
    if isBlank c then (names? (cs.dropWhile isBlank)).map fun ns => ⟨reach, ns⟩ else none

def read? (cs : List Char) : Option Directive :=
  match after? "autolint:disable".toList (cs.dropWhile isBlank) with
  | none => none
  | some rest =>
    -- the longer word first: it starts with the shorter one
    match after? "-next-line".toList rest with
    | some rest' => withReach? .nextLine rest'
    | none => withReach? .sameLine rest

def inLine : List Char → List Directive
  | [] => []
  | c :: cs =>
    match if c = '#' then read? cs else none with
    -- a directive holds no second `#`, so the search may go on right behind the first
    | some d => d :: inLine cs
    | none => inLine cs

/-- The line a directive on line `line` is for. -/
def target (line : Nat) (d : Directive) : Nat :=
  match d.reach with
  | .sameLine => line
  | .nextLine => line + 1

end Directive

/-- The names silenced on each line, in the order of the lines. -/
abbrev Suppressions := List (Nat × List String)

namespace Suppressions

def add (line : Nat) (names : List String) : Suppressions → Suppressions
  | [] => [(line, names)]
  | (l, ns) :: more =>
    -- a line may be the target of a comment above and of one on it
    if l = line then (l, ns ++ names) :: more
    else if line < l then (line, names) :: (l, ns) :: more
    else (l, ns) :: add line names more

/-- Add the directives of the lines from number `line` on. -/
def addLines : Nat → List (List Char) → Suppressions → Suppressions
  | _, [], acc => acc
  | line, cs :: more, acc =>
    addLines (line + 1) more
      ((Directive.inLine cs).foldl (fun acc d => add (d.target line) d.names acc) acc)

/-- The names silenced on each line of a text. -/
def ofText (text : String) : Suppressions :=
  addLines 1 (splitLines text.toList) []

def namesAt (s : Suppressions) (line : Int) : List String :=
  match s.find? fun entry => (entry.1 : Int) == line with
  | some (_, names) => names
  | none => []

end Suppressions

/-- The part of a full name after the first slash, or all of a name without one. -/
def shortName (name : String) : String :=
  match name.toList.dropWhile (· ≠ '/') with
  | [] => name
  | _ :: rest => String.ofList rest

def Suppressions.silences (s : Suppressions) (i : Issue) : Bool :=
  i.rule != Rules.parseRuleName
    && (s.namesAt i.location.line).any fun n => n == i.rule || n == shortName i.rule || n == i.group

/-- The suppressions that count for a text. A text without a directive's word is not searched. -/
def Suppressions.inForce (text : String) : Suppressions :=
  if occursIn "autolint:disable".toList text.toList then Suppressions.ofText text else []

def silence (text : String) (issues : List Issue) : List Issue :=
  let s := Suppressions.inForce text
  issues.map fun i => if s.silences i then i.withStatus .disabled else i

end Lintel
