import Lintel.Disk.Glob
import Lintel.Path.Exclusion
import Lintel.Text.Sorted

/-!
# Selecting files

A selection is a list of entries. An entry is a glob or a path, relative to a root directory; a
folder stands for the files below it with certain extensions. An entry that begins with `!` takes
out the files it matches, wherever it stands in the list. Files in folders that are never looked
into are left out, and what is left is given in order, each file once.
-/

namespace Lintel

namespace Disk

/-- The pattern of an entry that takes files out. -/
def rejection? (entry : String) : Option String :=
  match entry.toList with
  | '!' :: cs => some (String.ofList cs)
  | _ => none

def expandPaths (d : Disk) (cwd : String) (extensions : List String) (path : String) :
    Except Fault (List String) :=
  -- a folder stands for the files below it, one extension after the other
  if d.isFolder cwd path then
    (extensions.mapM fun e =>
      d.glob cwd (Path.join (Path.join path anyDepth) ("*" ++ e))).map List.flatten
  else d.glob cwd path

def expand (d : Disk) (cwd root : String) (extensions : List String) (entry : String) :
    Except Fault (List String) :=
  (d.expandPaths cwd extensions (Path.join root entry)).map fun found =>
    (found.filter fun f => d.isFile cwd f).map Path.normalize

def isSelected (cwd root : String) (rejected : List String) (file : String) : Bool :=
  !Path.isSkipped (Path.relative cwd file root) && !Path.matchesAny cwd root (some file) rejected

def select (d : Disk) (cwd root : String) (extensions entries : List String) :
    Except Fault (List String) :=
  -- entries that take files out count for all others, also those before them
  let rejected := entries.filterMap rejection?
  let kept := entries.filter fun e => (rejection? e).isNone
  (kept.mapM (d.expand cwd root extensions)).map fun included =>
    (sortedSet included.flatten).filter (isSelected cwd root rejected)

end Disk

end Lintel
