import PinFloor.FileSystem
import PinFloor.RequirementsFile.Statement

/-!
# The content of requirements files

What a requirements file and the files it includes hold together: named requirements and
constraints, entries without a name, and global options. Contents are merged part by part, so
merging is associative and the empty content changes nothing.
-/

namespace PinFloor

/-- A named requirement and where it stands. -/
structure Entry where
  requirement : Requirement
  /-- The hashes of its archives. -/
  hashes : List String
  /-- Where it stands. -/
  origin : Origin
  deriving Repr, DecidableEq

/-- An entry that is given by a path or a URL alone. -/
structure Target where
  /-- The path or URL, as it was written. -/
  target : String
  /-- Where it stands. -/
  origin : Origin
  deriving Repr, DecidableEq

/-- The content of a requirements file with its includes. -/
structure RequirementsFile where
  /-- The named requirements. -/
  requirements : List Entry := []
  /-- The named entries that are constraints. -/
  constraints : List Entry := []
  /-- The editable installations. -/
  editables : List Target := []
  /-- The other entries without a name. -/
  unnamed : List Target := []
  /-- The global options. -/
  options : GlobalOptions := {}
  deriving Repr, DecidableEq

/-- Why a requirements file cannot be loaded. -/
inductive LoadError where
  /-- The file cannot be read. -/
  | unreadable (file : Path) (error : ReadError)
  /-- A statement has the wrong form. -/
  | malformed (file : Path) (error : SyntaxError) (position : Position)
  /-- There is no such option. -/
  | unsupportedOption (file : Path) (name : String) (line : Nat)
  /-- The text of a named requirement is no requirement. -/
  | invalidRequirement (file : Path) (line : Nat)
  /-- The file includes one that is being loaded. -/
  | cycle (file target : Path) (line : Nat)
  /-- An included file cannot be loaded. -/
  | included (file : Path) (line : Nat) (cause : LoadError)
  deriving Repr, DecidableEq

namespace Entry

/-- How an entry is written. -/
def text (e : Entry) : String :=
  e.hashes.foldl (fun text hash => text ++ " --hash " ++ hash) e.requirement.text

end Entry

namespace RequirementsFile

/-- The content of an empty file. -/
def empty : RequirementsFile := {}

/-- The content of two files, one after the other. -/
def merge (a b : RequirementsFile) : RequirementsFile where
  requirements := a.requirements ++ b.requirements
  constraints := a.constraints ++ b.constraints
  editables := a.editables ++ b.editables
  unnamed := a.unnamed ++ b.unnamed
  options := a.options.merge b.options

/-- Whether there is no entry of any kind. Options do not count. -/
def isEmpty (f : RequirementsFile) : Bool :=
  f.requirements.isEmpty && f.constraints.isEmpty && f.editables.isEmpty && f.unnamed.isEmpty

/-- What an included file adds to the file that includes it. Of one that is included for its
    constraints, all named entries are constraints, and entries without a name are left out. -/
def included : IncludeKind → RequirementsFile → RequirementsFile
  | .requirements, f => f
  | .constraints, f => { constraints := f.requirements ++ f.constraints, options := f.options }

end RequirementsFile

namespace Fault

/-- The error for a fault in a file. -/
def error (file : Path) : Fault → LoadError
  | malformed error position => .malformed file error position
  | unsupportedOption name line => .unsupportedOption file name line
  | invalidRequirement line => .invalidRequirement file line

end Fault

namespace LoadError

/-- The file in which the error is. -/
def file : LoadError → Path
  | unreadable file _ => file
  | malformed file _ _ => file
  | unsupportedOption file _ _ => file
  | invalidRequirement file _ => file
  | cycle file _ _ => file
  | included file _ _ => file

/-- A place in a file, as messages give it. -/
def placeText (file : Path) (line : Nat) : String :=
  "`" ++ file.text ++ "` at line " ++ Decimal.text line

/-- What is said about an error, without its cause. -/
def message : LoadError → String
  | unreadable file error => error.message file
  | malformed file error position =>
      error.message ++ " in " ++ placeText file position.line ++ ", column "
        ++ Decimal.text position.column
  | unsupportedOption file name line =>
      "Unsupported option `" ++ name ++ "` in " ++ placeText file line
  | invalidRequirement file line => "Couldn't parse requirement in " ++ placeText file line
  | cycle file target line =>
      "`" ++ file.text ++ "` includes `" ++ target.text ++ "` at line " ++ Decimal.text line
        ++ ", which is already being parsed"
  | included file line _ => "Error parsing file included into " ++ placeText file line

/-- The messages of an error and its causes, outermost first. -/
def chain : LoadError → List String
  | included file line cause => message (included file line cause) :: cause.chain
  | error => [error.message]

end LoadError

end PinFloor
