import PinFloor.CommandLine.Help
import PinFloor.CommandLine.Parser
import PinFloor.Data.Encode
import PinFloor.Data.Json
import PinFloor.Failure
import PinFloor.Listing.Text
import PinFloor.Log.Line
import PinFloor.Report.Text
import PinFloor.Settings.Discovery
import PinFloor.Settings.Resolved

/-!
# The program

What an invocation of the program in a file system prints, and how it ends.
-/

namespace PinFloor

/-- How the program is called. -/
structure Invocation where
  /-- The arguments, without the name of the program. -/
  arguments : List String
  /-- The environment variables. -/
  vars : List (String × String)
  deriving Repr, DecidableEq

/-- How the program ends. -/
inductive ExitStatus where
  /-- All is well. -/
  | success
  /-- The check failed. -/
  | failure
  /-- The work could not be done. -/
  | error
  deriving Repr, DecidableEq

/-- What an invocation leads to. -/
structure Outcome where
  /-- How the program ends. -/
  status : ExitStatus
  /-- What is printed to the standard output. -/
  stdout : String
  /-- What is printed to the standard error. -/
  stderr : String
  deriving Repr, DecidableEq

/-- The result of a command. -/
structure Answer where
  /-- The result itself. -/
  result : String
  /-- A note beside it. -/
  note : String
  /-- Whether the command was successful. -/
  passed : Bool
  deriving Repr, DecidableEq

/-- The work of a command: its result, or the messages of a failure. -/
abbrev Work (α : Type) := Told (Except (List String) α)

namespace ExitStatus

/-- The number that stands for a status. -/
def code : ExitStatus → Nat
  | success => 0
  | failure => 1
  | error => 2

end ExitStatus

namespace Work

/-- Work whose errors are told by a chain of messages. -/
def of {ε α : Type} (chain : ε → List String) (told : Told (Except ε α)) : Work α :=
  told.map (·.mapError chain)

end Work

namespace Invocation

/-- A variable with a text in it. -/
def isSet (i : Invocation) (name : String) : Bool :=
  (i.vars.lookup name).any (· ≠ "")

/-- Whether the environment asks for styled output. -/
def asksForColor (i : Invocation) : Bool :=
  !i.isSet "NO_COLOR" && i.isSet "CLICOLOR_FORCE"

/-- Whether output is styled. -/
def isStyled (i : Invocation) : ColorChoice → Bool
  | .always => true
  | .never => false
  | .auto => i.asksForColor

/-- How messages are wrapped. -/
def wrapping (i : Invocation) : Failure.Wrapping where
  columns := i.vars.lookup "COLUMNS"
  off := (i.vars.lookup "MINCHECK_NO_WRAP").isSome

/-- The filter of the log. Without directives, nothing is logged unless more output is asked for. -/
def filter? (i : Invocation) (verbosity : Nat) : Option LogFilter :=
  LogFilter.read?
    (if verbosity = 0 then { level := none }
      else { source := some "mincheck", level := some .debug })
    (i.vars.lookup "RUST_LOG")

end Invocation

/-- A text with its styles, or without them. -/
def clear (styled : Bool) (text : String) : String :=
  if styled then text else unstyled text

namespace CommandLine

/-- The layer of settings of a file: the one that is given, else the one that is found. -/
def fileLayer (fs : FileSystem) (globals : GlobalArguments) : Work (Option Layer) :=
  match globals.configPath? with
  | some file => Work.of SettingsError.chain ((Layer.fromFile fs file).map (·.map some))
  | none =>
      if globals.skipsConfig then ⟨.ok none, [.noDiscovery]⟩
      else Work.of SettingsError.chain (Layer.find fs fs.currentPath)

/-- What is said if there are no requirements files. -/
def noRequirementsMessage : String :=
  "No requirements files given; pass them as arguments or set `requirements` in `mincheck.toml`"

/-- The report of a check with resolved settings. -/
def report (fs : FileSystem) (settings : ResolvedSettings) : Work Report :=
  if settings.requirements.isEmpty then .silent (.error [noRequirementsMessage])
  else
    let loading := (Work.of LoadError.chain
        (Manifest.ofFiles fs settings.requirements settings.constraints)).andThen fun m =>
      ⟨(Check.attempt settings.check m).mapError fun error => [error.message],
        .checking m.requirements.length m.constraints.length settings.check.matrix.size
          :: Check.notices settings.check m⟩
    if settings.constraints.isEmpty then loading.saying .noConstraintsFiles else loading

/-- A report as the answer to a command. The note keeps the JSON text apart from other text. -/
def reportAnswer (format : OutputFormat) (r : Report) : Answer :=
  match format with
  | .text => ⟨r.text, "", r.isSuccess⟩
  | .json =>
      ⟨Json.text (Encode.report r) ++ "\n", Style.dimmed.paint r.checkedText ++ "\n", r.isSuccess⟩

/-- A listing as the answer to a command. -/
def listingAnswer (format : OutputFormat) (l : Listing) : Answer :=
  match format with
  | .text => ⟨l.text, "", true⟩
  | .json => ⟨Json.text (Encode.listing l) ++ "\n", "", true⟩

/-- The answer to a command. -/
def answer (fs : FileSystem) (line : CommandLine) : Work Answer :=
  match line.command with
  | .check arguments =>
      ((fileLayer fs line.globals).andThen fun file =>
        (Work.of (fun error => [error.message])
          (.silent (ResolvedSettings.ofArguments arguments file))).andThen fun settings =>
            report fs settings).map (·.map (reportAnswer arguments.outputFormat))
  | .listing arguments =>
      ((Work.of LoadError.chain
        (Listing.ofFiles fs arguments.files ⟨arguments.pythonVersion, arguments.platform⟩)).andThen
          fun listing => Work.of (fun error => [error.message]) (.silent listing.confirmed)).map
            (·.map (listingAnswer arguments.outputFormat))

end CommandLine

namespace Program

/-- The outcome of arguments that do not lead to a command. -/
def interrupted : Interruption → Outcome
  | .usage error =>
      ⟨.error, "", "error: " ++ error.message ++ "\n\nFor more information, try '--help'.\n"⟩
  | .nothing => ⟨.error, "", Help.text none⟩
  | .help command => ⟨.success, Help.text command, ""⟩
  | .version command => ⟨.success, Help.versionLine command, ""⟩

/-- The outcome of work, with what is told during it. -/
def finished (i : Invocation) (globals : GlobalArguments) (filter : LogFilter)
    (work : Work Answer) : Outcome :=
  let cleared := clear (i.isStyled globals.colorChoice)
  let teller : Teller :=
    { filter, namesSteps := globals.verbosity = 1, styled := i.asksForColor
      warns := !globals.isQuiet }
  let told := String.join (work.notices.map (teller.tell cleared))
  match work.value with
  | .error messages => ⟨.error, "", told ++ cleared (Failure.text i.wrapping.width? messages)⟩
  | .ok answer =>
      let status : ExitStatus := if answer.passed then .success else .failure
      if globals.isQuiet then ⟨status, "", told⟩
      else ⟨status, cleared answer.result, told ++ cleared answer.note⟩

/-- What is said about a log filter that cannot be read. -/
def invalidFilterMessage : String := "Invalid RUST_LOG directives"

/-- Runs the program. -/
def run (fs : FileSystem) (i : Invocation) : Outcome :=
  match CommandLine.parse i.vars i.arguments with
  | .error stop => interrupted stop
  | .ok line =>
      match i.filter? line.globals.verbosity with
      | none =>
          ⟨.error, "",
            clear i.asksForColor (Failure.text i.wrapping.width? [invalidFilterMessage])⟩
      | some filter => finished i line.globals filter (line.answer fs)

end Program

end PinFloor
