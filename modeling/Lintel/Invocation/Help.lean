import Lintel.Invocation.Switch
import Lintel.Text.Split

/-!
# Help

The help says how the program is called and what each switch is good for. It is laid out for a
screen of eighty columns: words fill a line as long as they fit, and what a switch is good for
begins in a column of its own, on the line of the switch if there is room.
-/

namespace Lintel

namespace Help

/-- The columns that are filled. -/
def width : Nat := 78

/-- The column in which explanations begin. -/
def column : Nat := 24

/-- Put words on lines of at most `room` characters. A word that is longer has a line of its own.
The line so far is given, and the words on it. -/
def fill (room : Nat) : String → List String → List String
  | line, [] => [line]
  | line, w :: ws =>
    if line.length + 1 + w.length ≤ room then fill room (line ++ " " ++ w) ws
    else line :: fill room w ws

def lines (room : Nat) : List String → List String
  | [] => []
  | w :: ws => fill room w ws

def spaces (n : Nat) : String := String.ofList (List.replicate n ' ')

def entry (heading explanation : String) : List String :=
  let head := "  " ++ heading
  let text := lines (width - column) (splitText ' ' explanation)
  -- two blanks at least between a switch and what it is good for
  if head.length + 2 ≤ column then
    match text with
    | [] => [head]
    | first :: more =>
      (head ++ spaces (column - head.length) ++ first) :: more.map (spaces column ++ ·)
  else head :: text.map (spaces column ++ ·)

def withPlaceholder (s : Switch) (name : String) : String :=
  if s.takesValue then name ++ " " ++ s.placeholder else name

/-- The names of a switch: help is better known by its letter. -/
def namesOf (s : Switch) : List String :=
  let letter := s.letter.toList.map fun c => String.ofList ['-', c]
  if s = .help then letter ++ [s.name] else s.name :: letter

def switchEntry (s : Switch) : List String :=
  entry (", ".intercalate ((namesOf s).map (withPlaceholder s))) s.purpose

def usage : String :=
  let start := "usage: " ++ Program.name ++ " "
  let switches := Switch.all.map fun s =>
    "[" ++ withPlaceholder s ((namesOf s).headD s.name) ++ "]"
  let ls := lines (width - start.length + 1) switches ++ ["[paths ...]"]
  start ++ ("\n" ++ spaces start.length).intercalate ls ++ "\n"

def opening : List String :=
  ["", "Rule-based linter and autocorrector for Ruby-family source", "", "positional arguments:"]
    ++ entry "paths" "Files, directories or globs to inspect (default: Globs from the config)"
    ++ ["", "options:"]

/-- Calls of the program that show what it can do. -/
def examples : List String :=
  ["", "Examples:",
    "  " ++ Program.name ++ " app/ --format json",
    "  " ++ Program.name ++ " --only Style/RedundantParentheses --fix",
    "  " ++ Program.name ++ " --except Naming --fail-level warning",
    spaces 8, ""]

def text : String :=
  usage ++ "\n".intercalate (opening ++ Switch.all.flatMap switchEntry ++ examples)

end Help

end Lintel
