import Lintel.Config
import Lintel.Disk.Selection
import Lintel.Libraries
import Lintel.Program

/-!
# Configurations on a disk

A configuration file is looked for in a directory and in all directories above it, then in the
user's home, and last in the directory for the configurations of programs. A file that is named
explicitly must be there. The document in it is read by one library and the settings by another.

A file may fail to be a configuration in two ways. Mostly the error is one of the configuration,
with a message for the user. But octets that are no text are a fault of the file's content that the
configuration knows nothing about, and so is anything that makes the library for documents fail
otherwise than by calling the document malformed.

`Config.sources` reads the files that a configuration selects. A file that is not a text is passed
over.
-/

namespace Lintel

/-- What a program knows about where it runs. -/
structure Environment where
  cwd : String
  /-- The user's home. -/
  home : String
  configHome : Option String := none
  deriving DecidableEq, Repr

namespace Config

variable {σ : Type}

/-! ### Finding a file -/

/-- A directory, given by its names from the root, and those above it. -/
def ancestors : List String → List (List String)
  | [] => [[]]
  | n :: ns => (ancestors ns).map (n :: ·) ++ [[]]

def directoriesUp (cwd start : String) : List String :=
  let full := Path.absolute cwd start
  let root := String.ofList (List.replicate (Path.leadingSlashes full) '/')
  (ancestors (Path.names full)).map fun ns => root ++ Path.ofComponents ns

/-- The user's home without slashes at its end, unless it is the root. -/
def homeOf (env : Environment) : String :=
  let home := Path.stripSlashes env.home
  if home.isEmpty then "/" else home

def configHome (env : Environment) : String :=
  match env.configHome with
  | some dir => if dir.isEmpty then Path.join (homeOf env) ".config" else dir
  | none => Path.join (homeOf env) ".config"

def userFiles (env : Environment) : List String :=
  [Path.join (homeOf env) Program.configName,
    Path.join (Path.join (configHome env) Program.name) "config.yml"]

def findFile (disk : Disk) (env : Environment) (start : String) : Option String :=
  let candidates := (directoriesUp env.cwd start).map (Path.join · Program.configName)
    ++ userFiles env
  candidates.find? fun p => disk.isFile env.cwd p

/-! ### Loading -/

/-- The data of a text. A document that says nothing stands for an empty mapping. -/
def readText (d : Documents) (text : String) : Except LoadError Data :=
  match d.read text with
  | .ok data => .ok (if data.isNothing then .map [] else data)
  -- the one failure that the library announces; all others go through
  | .error .malformed => .error (.config .badDocument)
  | .error (.fault f) => .error (.fault f)

def readFile (d : Documents) (octets : Bytes) : Except LoadError Data :=
  match Disk.textOf octets with
  | .error bad => .error (.fault (.notText bad))
  | .ok text => readText d text

def ofFile (catalog : Catalog σ) (disk : Disk) (env : Environment) (root : String)
    (path : Option String) (libs : Libraries) : Except LoadError (Config σ) := do
  let data ← match path.bind (disk.read? env.cwd) with
    | some octets => readFile libs.documents octets
    -- without a file everything is as it is by default
    | none => .ok (.map [])
  Config.ofData catalog path root data libs.validation

def load (catalog : Catalog σ) (disk : Disk) (env : Environment) (root : String)
    (path : Option String) (libs : Libraries := .builtin) : Except LoadError (Config σ) :=
  match path with
  | none => ofFile catalog disk env root (findFile disk env root) libs
  | some p =>
    -- a file that was asked for by name has to be there
    if disk.isFile env.cwd p then ofFile catalog disk env root (some p) libs
    else .error (.config (.missingFile p))

/-! ### Sources -/

/-- The extensions of the files that a folder stands for. -/
def extensions : List String := [".rb", ".cr"]

def source? (disk : Disk) (cwd root file : String) : Option Source :=
  match disk.read? cwd file with
  | none => none
  | some octets =>
    match Disk.textOf octets with
    | .ok text => some (Source.ofText text (some (Path.relative cwd file root)))
    -- not a text, so nothing that rules could be asked about
    | .error _ => none

def files (c : Config σ) (disk : Disk) (cwd : String) : Except Fault (List String) :=
  (disk.select cwd c.root extensions c.settings.globs).map fun fs => fs.filter fun f =>
    !Path.matchesAny cwd c.root (some f) c.settings.excluded

def sources (c : Config σ) (disk : Disk) (cwd : String) : Except Fault (List Source) :=
  (c.files disk cwd).map fun fs => fs.filterMap (source? disk cwd c.root)

end Config

end Lintel
