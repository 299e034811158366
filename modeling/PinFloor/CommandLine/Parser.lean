import PinFloor.CommandLine.Arguments

/-!
# Reading the command line

The options of the program and of its commands, and how their values are read.
-/

namespace PinFloor

namespace ValueReader

def path (text : String) : Except ValueFault Path :=
  if text = "" then .error .missing else .ok ⟨text⟩

/-- One of some named values. -/
def choice {α : Type} (ofName? : String → Option α) (text : String) : Except ValueFault α :=
  match ofName? text with
  | some value => .ok value
  | none => .error .notAllowed

def pythonVersion (text : String) : Except ValueFault PythonVersion :=
  (PythonVersion.parse text).mapError fun error => .invalid error.message

def packageName (text : String) : Except ValueFault PackageName :=
  (PackageName.parse text).mapError fun error => .invalid error.message

/-- The words for yes. -/
def yes : List String := ["y", "yes", "t", "true", "on", "1"]

/-- The words for no. -/
def no : List String := ["n", "no", "f", "false", "off", "0"]

/-- A truth value, by a word in any case. -/
def truth (text : String) : Except ValueFault Bool :=
  let word := String.ofList (text.toList.map Char.toLower)
  if yes.contains word then .ok true
  else if no.contains word then .ok false
  else .error (.invalid "value was not a boolean")

end ValueReader

namespace OutputFormat

/-- The format with a name. -/
def ofName? : String → Option OutputFormat
  | "text" => some text
  | "json" => some json
  | _ => none

end OutputFormat

namespace ColorChoice

/-- The choice with a name. -/
def ofName? : String → Option ColorChoice
  | "auto" => some auto
  | "always" => some always
  | "never" => some never
  | _ => none

end ColorChoice

/-- Reads a value and puts it into settings. -/
def storing {σ α : Type} (read : String → Except ValueFault α) (put : Provenance → α → σ → σ)
    (source : Provenance) (text : String) (settings : σ) : Except ValueFault σ :=
  (read text).map fun value => put source value settings

namespace GlobalArguments

/-- The options that all commands share. -/
def specs : List (OptionSpec GlobalArguments) :=
  [{ long := "quiet", short := some 'q', shown := "--quiet", form := .flag
     set := storing ValueReader.truth fun source value g =>
       { g with quiet := some ⟨source, value⟩ } },
   { long := "verbose", short := some 'v', shown := "--verbose...", form := .counter
     set := fun source _ g => .ok { g with verbose := some ⟨source, g.verbosity + 1⟩ } },
   { long := "color", shown := "--color <COLOR>", form := .single
     set := storing (ValueReader.choice ColorChoice.ofName?) fun source value g =>
       { g with color := some ⟨source, value⟩ } },
   { long := "config-file", shown := "--config-file <CONFIG_FILE>", form := .single
     variableName := some "MINCHECK_CONFIG_FILE"
     set := storing ValueReader.path fun source value g =>
       { g with configFile := some ⟨source, value⟩ } },
   { long := "no-config", shown := "--no-config", form := .flag
     variableName := some "MINCHECK_NO_CONFIG"
     set := storing ValueReader.truth fun source value g =>
       { g with noConfig := some ⟨source, value⟩ } },
   { long := "help", short := some 'h', shown := "--help", form := .help
     set := fun _ _ g => .ok g },
   { long := "version", short := some 'V', shown := "--version", form := .version
     set := fun _ _ g => .ok g }]

/-- The options that exclude each other. -/
def conflicts : List (String × String) := [("quiet", "verbose")]

/-- The options that all commands share, beside the arguments of one. -/
def specsBeside {α : Type} : List (OptionSpec (α × GlobalArguments)) :=
  specs.map (·.within Prod.snd fun g pair => (pair.1, g))

end GlobalArguments

/-- The option for how a result is written. -/
def formatSpec {σ : Type} (put : OutputFormat → σ → σ) : OptionSpec σ where
  long := "output-format"
  shown := "--output-format <OUTPUT_FORMAT>"
  form := .single
  variableName := some "MINCHECK_OUTPUT_FORMAT"
  set := storing (ValueReader.choice OutputFormat.ofName?) fun _ => put

/-- The grammar of a command with its own options and those that all commands share. -/
def commandGrammar {α : Type} (options : List (OptionSpec α)) (shown : String) (required : Bool)
    (add : Path → α → α) : Grammar (α × GlobalArguments) where
  options :=
    options.map (·.within Prod.fst fun a pair => (a, pair.2)) ++ GlobalArguments.specsBeside
  positional := some
    { shown, required
      set := fun text pair => (ValueReader.path text).map fun path => (add path pair.1, pair.2) }
  conflicts := GlobalArguments.conflicts

namespace CheckArguments

/-- The options of a check. -/
def specs : List (OptionSpec CheckArguments) :=
  [{ long := "constraints", short := some 'c', shown := "--constraints <CONSTRAINTS>"
     form := .repeated
     set := storing ValueReader.path fun _ value a =>
       { a with constraints := a.constraints ++ [value] } },
   { long := "python-version", shown := "--python-version <VERSION>", form := .repeated
     set := storing ValueReader.pythonVersion fun _ value a =>
       { a with pythonVersions := a.pythonVersions ++ [value] } },
   { long := "platform", shown := "--platform <PLATFORM>", form := .repeated
     set := storing (ValueReader.choice Platform.ofName?) fun _ value a =>
       { a with platforms := a.platforms ++ [value] } },
   { long := "ignore", shown := "--ignore <PACKAGE>", form := .repeated
     set := storing ValueReader.packageName fun _ value a =>
       { a with ignore := a.ignore ++ [value] } },
   { long := "strict", shown := "--strict", form := .flag
     variableName := some "MINCHECK_STRICT"
     set := storing ValueReader.truth fun _ value a => { a with strict := value } },
   { long := "no-strict", shown := "--no-strict", form := .flag
     set := storing ValueReader.truth fun _ value a => { a with noStrict := value } },
   formatSpec fun format a => { a with outputFormat := format }]

/-- The grammar of a check. -/
def grammar : Grammar (CheckArguments × GlobalArguments) :=
  commandGrammar specs "[REQUIREMENTS]..." false fun path a =>
    { a with requirements := a.requirements ++ [path] }

end CheckArguments

namespace ShowArguments

/-- The options of a listing. -/
def specs : List (OptionSpec ShowArguments) :=
  [{ long := "python-version", shown := "--python-version <PYTHON_VERSION>", form := .single
     set := storing ValueReader.pythonVersion fun _ value a => { a with pythonVersion := value } },
   { long := "platform", shown := "--platform <PLATFORM>", form := .single
     set := storing (ValueReader.choice Platform.ofName?) fun _ value a =>
       { a with platform := value } },
   formatSpec fun format a => { a with outputFormat := format }]

/-- The grammar of a listing. -/
def grammar : Grammar (ShowArguments × GlobalArguments) :=
  commandGrammar specs "<FILE>..." true fun path a => { a with files := a.files ++ [path] }

end ShowArguments

namespace CommandLine

/-- The command that checks. -/
def checkName : String := "check"

/-- The command that lists. -/
def showName : String := "show"

/-- The command that helps. -/
def helpName : String := "help"

/-- The grammar of what stands before a command. -/
def grammar : Grammar GlobalArguments where
  options := GlobalArguments.specs
  commands := [checkName, showName, helpName]
  conflicts := GlobalArguments.conflicts

/-- The outcome of asking for help. Only the program itself has commands. -/
def help : List String → Interruption
  | [] => .help none
  | [name] => if name ∈ grammar.commands then .help (some name) else .usage (.unknownCommand name)
  | name :: other :: _ =>
      .usage (.unknownCommand (if name ∈ grammar.commands then other else name))

/-- Reads a command and its arguments. -/
def readCommand (vars : List (String × String)) (name : String) (arguments : List String) :
    Except Interruption (Command × GlobalArguments) :=
  if name = checkName then
    (CheckArguments.grammar.readAll (some name) vars ({}, {}) arguments).map
      fun (own, globals) => (.check own, globals)
  else if name = showName then
    (ShowArguments.grammar.readAll (some name) vars ({}, {}) arguments).map
      fun (own, globals) => (.listing own, globals)
  else .error (help arguments)

/-- Reads a command line. A command is read to its end before what stands before it is looked at
    again. -/
def parse (vars : List (String × String)) (arguments : List String) :
    Except Interruption CommandLine := do
  match ← grammar.read none { settings := {} } arguments with
  | (r, some (name, rest)) =>
      let (command, inner) ← readCommand vars name rest
      let r ← grammar.close none vars r
      let outer ← grammar.validate r
      return ⟨inner.onTop outer, command⟩
  | (r, none) =>
      let r ← grammar.close none vars r
      if r.given.isEmpty then .error .nothing else .error (.usage .missingCommand)

end CommandLine

end PinFloor
