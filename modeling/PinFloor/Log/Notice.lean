import PinFloor.PackageName
import PinFloor.Path

/-!
# Notices

What the program tells about its progress while it works, in the order in which it happens. Most
notices are for the log; a warning is for the user.
-/

namespace PinFloor

/-- How important a notice is, from the least important on. -/
inductive LogLevel where
  /-- Every detail. -/
  | trace
  /-- What is done. -/
  | debug
  /-- What is worth knowing. -/
  | info
  /-- What may be wrong. -/
  | warn
  /-- What is wrong. -/
  | error
  deriving Repr, DecidableEq

inductive Notice where
  /-- A requirements file given by the user is read. -/
  | readingRequirements (path : Path)
  /-- A constraints file given by the user is read. -/
  | readingConstraints (path : Path)
  /-- The text of a requirements file is about to be parsed. -/
  | parsing (path : Path)
  /-- A requirements file has no entries. -/
  | noEntries (path : Path)
  /-- An editable installation is not checked. -/
  | skippingEditable (target : String) (origin : Origin)
  /-- An entry without a name is not checked. -/
  | skippingUnnamed (target : String) (origin : Origin)
  /-- The discovery of settings is switched off. -/
  | noDiscovery
  /-- No constraints files are given. -/
  | noConstraintsFiles
  /-- A check begins with these numbers of requirements, constraints and environments. -/
  | checking (requirements constraints environments : Nat)
  /-- These numbers of entries apply in an environment. -/
  | active (environment : String) (requirements constraints : Nat)
  /-- A package is ignored in an environment. -/
  | ignored (environment : String) (package : PackageName)
  /-- Settings were found in a file. -/
  | foundSettings (path : Path)
  /-- The project file of a directory has no table for tools. -/
  | noToolTable (directory : Path)
  /-- The project file of a directory has no table for this tool. -/
  | noOwnTable (directory : Path)
  /-- A settings file given by the user is read. -/
  | readingSettings (path : Path)
  /-- A project file is passed over because it cannot be understood. -/
  | brokenProject (path : Path) (detail : Option String)
  deriving Repr, DecidableEq

/-- A value, and what is told while it is found. -/
structure Told (α : Type) where
  value : α
  /-- What is told meanwhile. -/
  notices : List Notice
  deriving Repr

/-- A number of things, with the noun in the right form. -/
def countText (n : Nat) (one many : String) : String :=
  Decimal.text n ++ " " ++ (if n = 1 then one else many)

namespace LogLevel

/-- How a level is written. -/
def text : LogLevel → String
  | trace => "TRACE"
  | debug => "DEBUG"
  | info => "INFO"
  | warn => "WARN"
  | error => "ERROR"

/-- The rank of a level. -/
def rank : LogLevel → Nat
  | trace => 0
  | debug => 1
  | info => 2
  | warn => 3
  | error => 4

end LogLevel

namespace Notice

/-- How important a notice is. -/
def level : Notice → LogLevel
  | noEntries _ => .warn
  | brokenProject _ _ => .warn
  | ignored _ _ => .trace
  | _ => .debug

/-- What a notice says. -/
def text : Notice → String
  | readingRequirements path => "Reading requirements from `" ++ path.text ++ "`"
  | readingConstraints path => "Reading constraints from `" ++ path.text ++ "`"
  | parsing path => "Parsing requirements from `" ++ path.text ++ "`"
  | noEntries path =>
      "Requirements file `" ++ path.text ++ "` does not contain any dependencies"
  | skippingEditable target origin => "Skipping editable `" ++ target ++ "` at " ++ origin.text
  | skippingUnnamed target origin =>
      "Skipping unnamed requirement `" ++ target ++ "` at " ++ origin.text
  | noDiscovery => "Skipping configuration discovery (`--no-config`)"
  | noConstraintsFiles => "No constraints files given; only `-c` includes are checked"
  | checking requirements constraints environments =>
      "Checking " ++ countText requirements "requirement" "requirements" ++ " against "
        ++ countText constraints "constraint" "constraints" ++ " in "
        ++ countText environments "environment" "environments"
  | active _ requirements constraints =>
      Decimal.text requirements ++ " active requirements and " ++ Decimal.text constraints
        ++ " active constraints"
  | ignored _ package => "Skipping ignored package `" ++ package.text ++ "`"
  | foundSettings path => "Found configuration at `" ++ path.text ++ "`"
  | noToolTable directory =>
      "Skipping `pyproject.toml` in `" ++ directory.text ++ "` (no `[tool]` section)"
  | noOwnTable directory =>
      "Skipping `pyproject.toml` in `" ++ directory.text ++ "` (no `[tool.mincheck]` section)"
  | readingSettings path => "Reading configuration from: `" ++ path.text ++ "`"
  | brokenProject path _ => "Failed to parse `" ++ path.text ++ "` during settings discovery:"

/-- The part of the program that tells a notice, as log filters name it. -/
def source : Notice → String
  | readingRequirements _ | readingConstraints _ => "mincheck_check::manifest"
  | skippingEditable _ _ | skippingUnnamed _ _ => "mincheck_check::manifest"
  | parsing _ | noEntries _ => "mincheck_requirements_txt"
  | active _ _ _ | ignored _ _ => "mincheck_check::checker"
  | noConstraintsFiles | checking _ _ _ => "mincheck::commands::check"
  | noDiscovery => "mincheck"
  | foundSettings _ | noToolTable _ | noOwnTable _ => "mincheck_settings"
  | readingSettings _ | brokenProject _ _ => "mincheck_settings"

/-- The environment that a notice is about, if it is about one. -/
def environment? : Notice → Option String
  | active environment _ _ => some environment
  | ignored environment _ => some environment
  | _ => none

end Notice

namespace Told

variable {ε α β : Type}

/-- A value without notices. -/
def silent (value : α) : Told α :=
  ⟨value, []⟩

/-- Two steps one after the other. The second is taken only if the first succeeds. -/
def andThen (first : Told (Except ε α)) (second : α → Told (Except ε β)) : Told (Except ε β) :=
  match first.value with
  | .error error => ⟨.error error, first.notices⟩
  | .ok a => ⟨(second a).value, first.notices ++ (second a).notices⟩

/-- The same notices with another value. -/
def map (f : α → β) (told : Told α) : Told β :=
  ⟨f told.value, told.notices⟩

/-- A notice before the others. -/
def saying (notice : Notice) (told : Told α) : Told α :=
  { told with notices := notice :: told.notices }

end Told

end PinFloor
