import PinFloor.Program

/-!
# Running the program

The outer layer: it takes a picture of the files that an invocation may read, runs the program on
it, and prints the outcome.
-/

namespace PinFloor.Snapshot

/-- The environment variables that the program knows. -/
def variableNames : List String :=
  ["MINCHECK_CONFIG_FILE", "MINCHECK_NO_CONFIG", "MINCHECK_STRICT", "MINCHECK_OUTPUT_FORMAT",
   "MINCHECK_NO_WRAP", "COLUMNS", "NO_COLOR", "CLICOLOR_FORCE", "RUST_LOG"]

/-- The variables that are set, with their texts. -/
def vars : IO (List (String × String)) :=
  variableNames.filterMapM fun name => do
    return (← IO.getEnv name).map fun text => (name, text)

/-- What is at a place. -/
def probe (place : List String) : IO (Option Node) := do
  try
    let bytes ← IO.FS.readBinFile ("/" ++ Path.joinSegments place)
    match String.fromUTF8? bytes with
    | some text => return some (.text text.toList)
    | none => return some .binary
  catch error =>
    match error with
    | .inappropriateType .. => return some .directory
    | _ => return none

/-- Adds the places that segments of a path lead through. -/
def follow (fs : FileSystem) (place : List String) : List String → IO FileSystem
  | [] => return fs
  | segment :: rest =>
      match Path.partOf? segment with
      | some (.name name) => do
          let next := place ++ [name]
          match fs.node? next with
          | some _ => follow fs next rest
          | none =>
              match ← probe next with
              | none => return fs
              | some node => follow { fs with entries := (next, node) :: fs.entries } next rest
      | some .above => follow fs place.dropLast rest
      | _ => follow fs place rest

/-- Adds the file at a path. -/
def look (fs : FileSystem) (path : Path) : IO FileSystem :=
  follow fs (if path.isAbsolute then [] else fs.current) path.segments

/-- The files that a file includes. -/
def includes (file : Path) (content : List Char) : List Path :=
  (Script.read content).statements.filterMap fun placed =>
    match placed.statement with
    | .include _ name => some (file.sibling name)
    | _ => none

/-- Adds files and those that they include. -/
partial def gather (fs : FileSystem) (seen : List Identity) : List Path → IO FileSystem
  | [] => return fs
  | path :: rest => do
      let fs ← look fs path
      let identity := fs.identity path
      if seen.contains identity then gather fs seen rest
      else
        match fs.read path with
        | .ok content => gather fs (identity :: seen) (includes path content ++ rest)
        | .error _ => gather fs (identity :: seen) rest

/-- Adds the files in which settings may stand. -/
def settingsFiles (fs : FileSystem) (globals : GlobalArguments) : IO FileSystem :=
  match globals.configPath? with
  | some file => look fs file
  | none =>
      (fs.currentPath.ancestors.flatMap fun directory =>
        [directory.join Layer.settingsName, directory.join Layer.projectName]).foldlM look fs

/-- The requirements files and constraints files that an invocation names. -/
def namedFiles (fs : FileSystem) (line : CommandLine) : List Path :=
  match line.command with
  | .listing arguments => arguments.files
  | .check arguments =>
      match (CommandLine.fileLayer fs line.globals).value with
      | .error _ => []
      | .ok file =>
          match ResolvedSettings.ofArguments arguments file with
          | .error _ => []
          | .ok settings => settings.requirements ++ settings.constraints

/-- The files that an invocation may read. -/
def take (fs : FileSystem) (i : Invocation) : IO FileSystem :=
  match CommandLine.parse i.vars i.arguments with
  | .error _ => return fs
  | .ok line => do
      let fs ← settingsFiles fs line.globals
      gather fs [] (namedFiles fs line)

end PinFloor.Snapshot

open PinFloor

/-- Runs the program on its arguments. -/
def main (arguments : List String) : IO UInt32 := do
  let directory := toString (← IO.currentDir)
  let i : Invocation := ⟨arguments, ← Snapshot.vars⟩
  let fs ← Snapshot.take ⟨(directory.splitOn "/").filter (· ≠ ""), []⟩ i
  let outcome := Program.run fs i
  IO.print outcome.stdout
  IO.eprint outcome.stderr
  return UInt32.ofNat outcome.status.code
