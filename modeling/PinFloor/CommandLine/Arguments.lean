import PinFloor.CommandLine.Grammar
import PinFloor.Environment
import PinFloor.PackageName
import PinFloor.Path

/-!
# Arguments

The commands of the program, what they are given, and the options that all of them share.
-/

namespace PinFloor

/-- How a result is written. -/
inductive OutputFormat where
  /-- For people. -/
  | text
  /-- As a JSON text. -/
  | json
  deriving Repr, DecidableEq

/-- Whether output is styled. -/
inductive ColorChoice where
  /-- If the environment asks for it. -/
  | auto
  /-- In any case. -/
  | always
  /-- In no case. -/
  | never
  deriving Repr, DecidableEq

/-- The options that all commands share, as one level of the command line gives them. -/
structure GlobalArguments where
  /-- Whether nothing but errors is printed. -/
  quiet : Option (Sourced Bool) := none
  /-- How often more output is asked for. -/
  verbose : Option (Sourced Nat) := none
  /-- Whether output is styled. -/
  color : Option (Sourced ColorChoice) := none
  /-- The settings file. -/
  configFile : Option (Sourced Path) := none
  /-- Whether no settings are looked for. -/
  noConfig : Option (Sourced Bool) := none
  deriving Repr, DecidableEq

/-- What a check is given. -/
structure CheckArguments where
  /-- The requirements files. -/
  requirements : List Path := []
  /-- The constraints files. -/
  constraints : List Path := []
  pythonVersions : List PythonVersion := []
  platforms : List Platform := []
  /-- The packages that are not checked. -/
  ignore : List PackageName := []
  /-- Whether warnings make the check fail. -/
  strict : Bool := false
  /-- Whether warnings do not make the check fail, whatever else is said. -/
  noStrict : Bool := false
  /-- How the report is written. -/
  outputFormat : OutputFormat := .text
  deriving Repr, DecidableEq

/-- What a listing is given. -/
structure ShowArguments where
  /-- The requirements files. -/
  files : List Path := []
  pythonVersion : PythonVersion := ⟨3, 12, none⟩
  platform : Platform := .linux
  /-- How the listing is written. -/
  outputFormat : OutputFormat := .text
  deriving Repr, DecidableEq

/-- A command with its arguments. -/
inductive Command where
  /-- Checks constraints against requirements. -/
  | check (arguments : CheckArguments)
  /-- Lists the entries that apply in an environment. -/
  | listing (arguments : ShowArguments)
  deriving Repr, DecidableEq

/-- A command line that was understood. -/
structure CommandLine where
  /-- The options that all commands share. -/
  globals : GlobalArguments
  command : Command
  deriving Repr, DecidableEq

namespace GlobalArguments

/-- The options of the level of a command, over those of the level above. -/
def onTop (inner outer : GlobalArguments) : GlobalArguments where
  quiet := Sourced.prefer inner.quiet outer.quiet
  verbose := Sourced.prefer inner.verbose outer.verbose
  color := Sourced.prefer inner.color outer.color
  configFile := Sourced.prefer inner.configFile outer.configFile
  noConfig := Sourced.prefer inner.noConfig outer.noConfig

/-- Whether nothing but errors is printed. -/
def isQuiet (g : GlobalArguments) : Bool :=
  (g.quiet.map Sourced.value).getD false

/-- How often more output is asked for. -/
def verbosity (g : GlobalArguments) : Nat :=
  (g.verbose.map Sourced.value).getD 0

/-- Whether output is styled. -/
def colorChoice (g : GlobalArguments) : ColorChoice :=
  (g.color.map Sourced.value).getD .auto

/-- The settings file that is given. -/
def configPath? (g : GlobalArguments) : Option Path :=
  g.configFile.map Sourced.value

/-- Whether no settings are looked for. -/
def skipsConfig (g : GlobalArguments) : Bool :=
  (g.noConfig.map Sourced.value).getD false

end GlobalArguments

end PinFloor
