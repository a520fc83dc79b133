import ProbeForge.CommandLine.Actions

/-!
# The program

Gives the command line the arguments, the environment and the files they name, and then does what it
answered. No database client is built in.
-/

namespace ProbeForge.Program

def variableNames : List String :=
  ["PYORION_DSN", "PYORION_SEED", "PYORION_GRAMMAR", "PYORION_UNIVERSE", "PYORION_WORK_DIR",
    Library.pathVariable]

def environment : IO Settings.Environment :=
  variableNames.filterMapM fun name => return (← IO.getEnv name).map ((name, ·))

/-- Every text that may be meant as a path. -/
def paths (args : List String) (environment : Settings.Environment) : List String :=
  args ++ args.filterMap (fun arg => (CommandLine.splitValue arg).2) ++ environment.map (·.2)

def readFile? (path : String) : IO (Option (String × String)) := do
  try return some (path, ← IO.FS.readFile path) catch _ => return none

def isThere (path : String) : IO Bool := do
  try
    let _ ← IO.FS.realPath path
    return true
  catch _ => return false

/-- The files at some paths, and the folders that these or their parents are. -/
def load (paths : List String) : IO Files := do
  let given ← paths.filterMapM readFile?
  let others := paths.filter fun path => (given.lookup path).isNone
  let folders := others ++ paths.map fun path => (Place.ofPath path).parent.path
  let adopt (files : Files) (path : String) : Files :=
    match Files.makeFolders (Place.ofPath path) files with
    | .ok () files | .error _ files => files
  return (← folders.filterM isThere).foldl adopt (Files.ofGiven given)

/-- Makes the folders that are new and writes the files that are not as they were. -/
def store (before after : Files) : IO Unit := do
  (after.folders.filter (!before.folders.contains ·)).forM fun place =>
    IO.FS.createDirAll place.path
  after.texts.toList.forM fun (place, text) => do
    if before.texts.find? place ≠ some text then
      IO.FS.writeFile place.path text

/-- The exit status, after a note on a failure. -/
def finish : CommandLine.Ending → IO UInt32
  | .code n => return UInt32.ofNat n.toNat
  | .usage .help => do
    IO.println ("commands: " ++ ", ".intercalate (CommandLine.Command.all.map (·.name)))
    return 0
  | .usage .wrong => do
    IO.eprintln "these arguments cannot be read"
    return 2
  | .fault fault => do
    IO.eprintln (fault.message?.getD "the request failed")
    return 1

def run (args : List String) : IO UInt32 := do
  let environment ← environment
  let files ← load (paths args environment)
  let done := CommandLine.run args environment files none
  IO.print done.printed
  store files done.files
  finish done.ending

end ProbeForge.Program

def main (args : List String) : IO UInt32 := ProbeForge.Program.run args
