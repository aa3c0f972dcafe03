import Lintel.Path
import Lintel.Pattern

/-!
# Exclusion of paths

Two ways in which a path is left out. Some directories are never looked into: those of
dependencies, of build output and of version control. And the user gives patterns.

A pattern may be written against the path as it is given, against its absolute form, or against
its form relative to a root directory. It matches a form that is in its language, a form below
the directory it spells out, and a form below any directory in its language. Slashes at the end
of a pattern are dropped, and what is empty then matches nothing.
-/

namespace Lintel

namespace Path

def skippedDirectories : List String :=
  ["vendor", "node_modules", ".bundle", "tmp", ".crystal", ".git", ".svn", ".hg"]

def isSeparator (c : Char) : Bool :=
  c == '/' || c == '\\'

/-- Whether a name may end before some characters: a separator comes first, or there is nothing but
a line feed at the very end. -/
def endsName : List Char → Bool
  | [] => true
  | ['\n'] => true
  | c :: _ => isSeparator c

/-- Whether some characters begin with the whole name of a directory that is never looked into. -/
def startsSkipped (cs : List Char) : Bool :=
  skippedDirectories.any fun d => d.toList.isPrefixOf cs && endsName (cs.drop d.length)

/-- Whether such a name stands behind one of the separators. -/
def skipsBehind : List Char → Bool
  | [] => false
  | c :: cs => isSeparator c && startsSkipped cs || skipsBehind cs

/-- Whether a path lies in a directory that is never looked into: the name of one stands at its
beginning or behind a separator, and ends there. -/
def isSkipped (p : String) : Bool :=
  startsSkipped p.toList || skipsBehind p.toList

/-- The forms of a path that a pattern may be written against. -/
def forms (cwd root path : String) : List String :=
  let full := absolute cwd (join root path)
  [path, full, relative cwd full root]

/-- Whether a pattern without slashes at its end matches a form of a path. -/
def formMatches (pattern form : String) : Bool :=
  Pattern.covers pattern form
    -- below the directory that the pattern spells out, wildcards read as they are written
    || (pattern ++ "/").toList.isPrefixOf form.toList
    || Pattern.covers (pattern ++ "/*") form

def patternMatches (forms : List String) (pattern : String) : Bool :=
  let p := stripSlashes pattern
  !p.isEmpty && forms.any (formMatches p)

/-- Whether a path matches one of the patterns. A source without a path matches none. -/
def matchesAny (cwd root : String) (path : Option String) (patterns : List String) : Bool :=
  match path with
  | none => false
  | some p => !p.isEmpty && patterns.any (patternMatches (forms cwd root p))

end Path

end Lintel
