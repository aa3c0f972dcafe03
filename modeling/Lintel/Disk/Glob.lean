import Lintel.Disk
import Lintel.Pattern

/-!
# Globs

A glob is a path whose names may be patterns. It stands for the paths on a disk that it matches,
name by name. A name that begins with a point is matched only by a pattern that does. The name
`**` stands for any number of folders and, at the end of a glob, for everything below them; it
does not enter folders whose names begin with a point.

A glob is worked off from its end: the paths of everything but the last name come first, and then
the last name is looked for in each of them. A path is given in the spelling of the glob.

No name holds the null character. A path with one leads nowhere, which is no fault as long as nobody
asks for the names in a folder with such a path.
-/

namespace Lintel

namespace Disk

/-- Whether a text holds a wildcard or begins a set. -/
def hasWildcards (s : String) : Bool :=
  s.toList.any fun c => c = '*' || c = '?' || c = '['

/-- A name that wildcards pass over. -/
def isHidden (name : String) : Bool :=
  name.toList.head? == some '.'

/-- The name that stands for any number of folders. -/
def anyDepth : String := "**"

/-- One path as seen from another, where either may be empty. -/
def joinParts (a b : String) : String :=
  if a.isEmpty then b else if b.isEmpty then a else Path.join a b

def listKind (d : Disk) (cwd : String) (onlyFolders : Bool) (folder : String) : List String :=
  let names := d.list cwd folder
  if onlyFolders then names.filter fun n => d.isFolder cwd (joinParts folder n) else names

/-- The paths of everything below a folder, as seen from it. -/
def listDeep (d : Disk) (cwd : String) (onlyFolders : Bool) : Nat → String → List String
  | 0, _ => []
  | depth + 1, folder =>
    (d.listKind cwd onlyFolders folder).flatMap fun n =>
      if isHidden n then []
      else n :: (d.listDeep cwd onlyFolders depth (joinParts folder n)).map (joinParts n)

def depth (d : Disk) : Nat :=
  (d.places.map List.length).foldl max 0

def matchNames (d : Disk) (cwd : String) (onlyFolders : Bool) (folder pattern : String) :
    List String :=
  (d.listKind cwd onlyFolders folder).filter fun n =>
    (isHidden pattern || !isHidden n) && Pattern.covers pattern n

/-- The folder itself and the paths of everything below it. -/
def matchDeep (d : Disk) (cwd : String) (onlyFolders : Bool) (folder : String) : List String :=
  -- the names stand for no folder at all as well, which is the folder itself
  (if folder.isEmpty || d.isFolder cwd folder then [""] else [])
    ++ d.listDeep cwd onlyFolders (d.depth + 1) folder

def matchName (d : Disk) (cwd folder name : String) : List String :=
  let isThere :=
    if name.isEmpty then d.isFolder cwd folder else d.exists cwd (joinParts folder name)
  if isThere then [name] else []

/-- Whether the names in a folder can be asked for. -/
def checkFolder (folder : String) : Except Fault Unit :=
  if folder.toList.contains '\x00' then .error (.badValue "embedded null byte")
  else .ok ()

def matchLast (d : Disk) (cwd : String) (onlyFolders : Bool) (folder name : String) :
    Except Fault (List String) :=
  if hasWildcards name then
    (checkFolder folder).map fun _ =>
      if name = anyDepth then d.matchDeep cwd onlyFolders folder
      else d.matchNames cwd onlyFolders folder name
  else .ok (d.matchName cwd folder name)

/-- A path without wildcards. -/
def matchPath (d : Disk) (cwd path : String) : List String :=
  let (folder, name) := Path.split path
  let isThere := if name.isEmpty then d.isFolder cwd folder else d.exists cwd path
  if isThere then [path] else []

/-- The paths of a glob with at most `fuel` names. -/
def globWithin (d : Disk) (cwd : String) : Nat → Bool → String → Except Fault (List String)
  | 0, _, _ => .ok []
  | fuel + 1, onlyFolders, path =>
    let (folder, name) := Path.split path
    -- with no wildcard there is nothing to look up but the path
    if !hasWildcards path then .ok (d.matchPath cwd path)
    else if folder.isEmpty then d.matchLast cwd onlyFolders "" name
    else do
      -- what the last name is looked for in must be folders
      let folders ← if hasWildcards folder then d.globWithin cwd fuel true folder
        else .ok [folder]
      let found ← folders.mapM fun f =>
        (d.matchLast cwd onlyFolders f name).map fun ns => ns.map (Path.join f)
      .ok found.flatten

def glob (d : Disk) (cwd path : String) : Except Fault (List String) :=
  d.globWithin cwd (path.length + 1) false path

end Disk

end Lintel
