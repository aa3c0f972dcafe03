import Lintel.Fault
import Lintel.Path

/-!
# Disks

A disk is the files and folders of a machine, as a value. Every file and every folder is known by
the names that lead to it from the root; there are no links. A folder is there if it is listed, or
if something lies in it.

Paths are texts. `Disk.resolve?` follows one name by name from a working directory: an empty name
or `.` stays, `..` goes up, and every step needs a folder to start from. So `a/../b` leads nowhere
if there is no folder `a`, and a path that ends with a slash never leads to a file.

Files are read as texts: their octets must be those of a text, and the line ends of other systems
are made line feeds.
-/

namespace Lintel

/-- The files and folders of a machine. -/
structure Disk where
  /-- The files, by the names that lead to them, with their octets. -/
  files : List (List String × Bytes)
  /-- The folders that are there even if nothing lies in them. -/
  folders : List (List String) := []
  deriving DecidableEq, Repr

inductive Disk.Entry where
  | file (octets : Bytes)
  | folder
  deriving DecidableEq, Repr

namespace Disk

/-! ### Places -/

/-- The names from a folder to something that lies in it or below it. -/
def below? : List String → List String → Option (List String)
  | [], names => some names
  | _ :: _, [] => none
  | f :: fs, n :: ns => if f = n then below? fs ns else none

def places (d : Disk) : List (List String) :=
  d.files.map (·.1) ++ d.folders

def file? (d : Disk) (place : List String) : Option Bytes :=
  (d.files.find? (·.1 == place)).map (·.2)

def hasFolder (d : Disk) (place : List String) : Bool :=
  -- whatever lies in a folder makes it one, unless a file is in its place
  (d.file? place).isNone && (place.isEmpty || d.folders.contains place
    || d.places.any fun p => (below? place p).isSome)

def entry? (d : Disk) (place : List String) : Option Entry :=
  match d.file? place with
  | some octets => some (.file octets)
  | none => if d.hasFolder place then some .folder else none

def namesIn (d : Disk) (place : List String) : List String :=
  (d.places.filterMap fun p => (below? place p).bind (·.head?)).eraseDups

def put (d : Disk) (place : List String) (octets : Bytes) : Disk :=
  if (d.file? place).isSome then
    { d with files := d.files.map fun f => if f.1 = place then (place, octets) else f }
  else { d with files := d.files ++ [(place, octets)] }

/-! ### Paths -/

def follow (d : Disk) : List String → List String → Option (List String)
  | place, [] => some place
  | place, n :: ns =>
    -- every step needs a folder, the steps that stay or go up as well
    if d.hasFolder place then
      if n = "" || n = "." then d.follow place ns
      else if n = ".." then d.follow place.dropLast ns
      else if (d.entry? (place ++ [n])).isSome then d.follow (place ++ [n]) ns
      else none
    else none

/-- The place a path leads to. An empty path leads nowhere. -/
def resolve? (d : Disk) (cwd path : String) : Option (List String) :=
  if path.isEmpty then none else d.follow [] (Path.components (Path.join cwd path))

def at? (d : Disk) (cwd path : String) : Option Entry :=
  (d.resolve? cwd path).bind d.entry?

def «exists» (d : Disk) (cwd path : String) : Bool :=
  (d.at? cwd path).isSome

def isFile (d : Disk) (cwd path : String) : Bool :=
  match d.at? cwd path with
  | some (.file _) => true
  | _ => false

def isFolder (d : Disk) (cwd path : String) : Bool :=
  d.at? cwd path == some .folder

/-- The names in the folder that a path leads to; an empty path leads to the working directory. -/
def list (d : Disk) (cwd path : String) : List String :=
  match d.resolve? cwd (if path.isEmpty then "." else path) with
  | some place => if d.hasFolder place then d.namesIn place else []
  | none => []

def read? (d : Disk) (cwd path : String) : Option Bytes :=
  match d.at? cwd path with
  | some (.file octets) => some octets
  | _ => none

/-- Write a file into a folder that is there; otherwise nothing is written. A folder cannot be
written over. -/
def write (d : Disk) (cwd path : String) (octets : Bytes) : Except Fault Disk :=
  let (folder, name) := Path.split (Path.join cwd path)
  match d.resolve? cwd folder with
  -- there is no folder to write into
  | none => .ok d
  | some place =>
    if name.isEmpty || d.hasFolder (place ++ [name]) then .error (.inTheWay path)
    else .ok (d.put (place ++ [name]) octets)

/-! ### Texts -/

/-- Make line feeds of carriage returns, with or without a line feed after them. -/
def lineFeeds : List Char → List Char
  | [] => []
  | '\r' :: '\n' :: cs => '\n' :: lineFeeds cs
  | '\r' :: cs => '\n' :: lineFeeds cs
  | c :: cs => c :: lineFeeds cs

def textOf (octets : Bytes) : Except Utf8.BadBytes String :=
  (Utf8.decode octets).map fun cs => String.ofList (lineFeeds cs)

end Disk

end Lintel
