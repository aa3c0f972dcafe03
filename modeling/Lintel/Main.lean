import Lintel.Clock
import Lintel.Scripted
import Lintel.Session
import Std.Time.DateTime.Timestamp

/-!
# The command line

Everything that touches the machine: the part of the disk that a session may look at is read
before the session, and what it changed is written after it. No grammar is built in, so every
text that is a text is taken to be a single node.
-/

namespace Lintel

namespace Terminal

/-- How deep folders are looked into. -/
def depth : Nat := 256

/-- The paths of the files below a folder, as deep as this. -/
def filesBelow : Nat → String → IO (List String)
  | 0, _ => pure []
  | n + 1, folder => do
    let entries ← (← IO.FS.realPath folder).readDir
    let found ← entries.toList.mapM fun e => do
      match (← e.path.symlinkMetadata).type with
      | .dir =>
        if Path.skippedDirectories.contains e.fileName then pure []
        else filesBelow n e.path.toString
      | .file => pure [e.path.toString]
      | _ => pure []
    pure found.flatten

def filesAt (path : String) : IO (List String) :=
  tryCatch (do
    let real ← IO.FS.realPath path
    if ← real.isDir then filesBelow depth path else pure [path]) fun _ => pure []

/-- The paths that a session may look at. -/
def starts (env : Environment) (i : Invocation) : List String :=
  env.cwd :: (i.paths ++ i.config.toOption.toList).map (Path.absolute env.cwd)
    ++ (Config.directoriesUp env.cwd env.cwd).map (Path.join · Program.configName)
    ++ Config.userFiles env

/-- Read the part of the disk that a session may look at. -/
def readDisk (env : Environment) (i : Invocation) : IO Disk := do
  let paths := sortedSet (← (starts env i).mapM filesAt).flatten
  let files ← paths.mapM fun (p : String) => do
    pure (Path.names p, (← IO.FS.readBinFile p).toList)
  pure { files := files, folders := [Path.names env.cwd] }

def writeChanges (before after : Disk) : IO Unit :=
  (after.files.filter fun f => before.file? f.1 != some f.2).forM fun (place, octets) =>
    IO.FS.writeBinFile ("/" ++ Path.ofComponents place) ⟨octets.toArray⟩

/-- The words for an error that ends a session. -/
def errorText : LoadError → String
  | .config e => "Error: " ++ e.message
  | .fault f => f.kind ++ ": " ++ f.message

def environment : IO Environment := do
  pure { cwd := (← IO.currentDir).toString
         home := (← IO.getEnv "HOME").getD "/"
         configHome := ← IO.getEnv "XDG_CONFIG_HOME" }

def run (args : List String) : IO UInt32 := do
  let env ← environment
  let now := Moment.ofSeconds (← Std.Time.Timestamp.now).toSecondsSinceUnixEpoch.val.toNat
  let disk ← match Invocation.ofArguments args with
    | .ok i => readDisk env i
    | .error _ => pure { files := [] }
  let session := Session.run Catalog.shipped Scripted.flatParser env now args disk { memory := () }
  writeChanges disk session.disk
  IO.print session.output
  match session.ending with
  | .failed e => IO.eprintln (errorText e)
  | .stopped .misuse => IO.eprint Help.usage
  | _ => pure ()
  pure (UInt32.ofNat session.ending.exitCode)

end Terminal

end Lintel

def main (args : List String) : IO UInt32 :=
  Lintel.Terminal.run args
