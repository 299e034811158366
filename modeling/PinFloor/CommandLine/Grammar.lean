import PinFloor.CommandLine.UsageError

/-!
# Grammars of command lines

A grammar lists the options of a command, what stands where no option stands, and the commands that
may follow. Arguments are read from left to right. The values of an option are looked at when the
next option or argument begins, so an unknown option is reported before a wrong value that stands
directly before it. What is not given among the arguments is taken from environment variables.
-/

namespace PinFloor

/-- Where a value was given. -/
inductive Provenance where
  /-- In an environment variable. -/
  | environment
  /-- Among the arguments. -/
  | arguments
  deriving Repr, DecidableEq

/-- A value and where it was given. -/
structure Sourced (α : Type) where
  /-- Where it was given. -/
  source : Provenance
  value : α
  deriving Repr, DecidableEq

/-- How an option is used. -/
inductive Form where
  /-- Without a value, at most once. -/
  | flag
  /-- Without a value; how often it is given counts. -/
  | counter
  /-- With a value, at most once. -/
  | single
  /-- With a value, any number of times. -/
  | repeated
  /-- Without a value; it asks for help. -/
  | help
  /-- Without a value; it asks for the version. -/
  | version
  deriving Repr, DecidableEq

/-- An option that changes settings of a type. -/
structure OptionSpec (σ : Type) where
  /-- The name after two dashes. -/
  long : String
  /-- The letter after one dash. -/
  short : Option Char := none
  /-- How the usage text writes it. -/
  shown : String
  /-- How it is used. -/
  form : Form
  /-- The environment variable for it. -/
  variableName : Option String := none
  /-- The settings with a value of the option. A flag has the value `true`. -/
  set : Provenance → String → σ → Except ValueFault σ

/-- The arguments that are no options. -/
structure PositionalSpec (σ : Type) where
  /-- How the usage text writes them. -/
  shown : String
  /-- Whether there must be one. -/
  required : Bool
  /-- The settings with one more. -/
  set : String → σ → Except ValueFault σ

/-- What a command takes. -/
structure Grammar (σ : Type) where
  options : List (OptionSpec σ)
  /-- The arguments that are no options. -/
  positional : Option (PositionalSpec σ) := none
  /-- The commands that may follow. -/
  commands : List String := []
  /-- Options that exclude each other. -/
  conflicts : List (String × String) := []

/-- Why the arguments do not lead to a command. -/
inductive Interruption where
  /-- They are wrong. -/
  | usage (error : UsageError)
  /-- There are none. -/
  | nothing
  /-- They ask for help about a command. -/
  | help (command : Option String)
  /-- They ask for the version of a command. -/
  | version (command : Option String)
  deriving Repr, DecidableEq

/-- What still waits for its values to be looked at. -/
inductive Pending (σ : Type) where
  /-- An option, with its value once that is known. -/
  | option (spec : OptionSpec σ) (value : Option String)
  /-- Arguments that are no options. -/
  | positionals (spec : PositionalSpec σ) (values : List String)

/-- How far reading has come. -/
structure Progress (σ : Type) where
  /-- The settings so far. -/
  settings : σ
  /-- The options that were given, in the order of their use. -/
  given : List String := []
  /-- What was read last. -/
  pending : Option (Pending σ) := none
  /-- Whether all that follows is no option. -/
  afterSeparator : Bool := false

/-- An argument by its form. -/
inductive Token where
  /-- Two dashes. -/
  | separator
  /-- The name of an option, with a value if there is an equals sign. -/
  | long (name : String) (value : Option String)
  /-- The letters of options. -/
  | short (letters : List Char)
  /-- Anything else. -/
  | plain
  deriving Repr, DecidableEq

namespace Sourced

/-- The value of an inner level, unless only the outer one was given among the arguments. -/
def prefer {α : Type} (inner outer : Option (Sourced α)) : Option (Sourced α) :=
  match inner, outer with
  | some a, some b => if a.source = .environment ∧ b.source = .arguments then some b else some a
  | some a, none => some a
  | none, b => b

end Sourced

namespace Form

/-- Whether an option of a form takes a value. -/
def takesValue (form : Form) : Bool :=
  form = single || form = repeated

/-- Whether an option of a form is given at most once. -/
def isUnique (form : Form) : Bool :=
  form = single || form = flag

end Form

namespace Token

/-- The form of an argument. -/
def ofText (text : String) : Token :=
  match text.toList with
  | ['-', '-'] => separator
  | '-' :: '-' :: rest =>
      let name := String.ofList (rest.takeWhile (· ≠ '='))
      match rest.dropWhile (· ≠ '=') with
      | [] => long name none
      | _ :: value => long name (some (String.ofList value))
  | '-' :: letter :: letters => short (letter :: letters)
  | _ => plain

end Token

namespace OptionSpec

variable {σ τ : Type}

/-- The same option for settings that hold others. -/
def within (get : τ → σ) (put : σ → τ → τ) (spec : OptionSpec σ) : OptionSpec τ where
  long := spec.long
  short := spec.short
  shown := spec.shown
  form := spec.form
  variableName := spec.variableName
  set source value settings :=
    (spec.set source value (get settings)).map fun inner => put inner settings

end OptionSpec

namespace Progress

variable {σ : Type}

/-- An error as the outcome of reading. -/
def fail {α : Type} (error : UsageError) : Except Interruption α :=
  .error (.usage error)

/-- Takes a value of an option into account. -/
def apply (command : Option String) (spec : OptionSpec σ) (source : Provenance) (value : String)
    (r : Progress σ) : Except Interruption (Progress σ) :=
  if spec.form = .help then .error (.help command)
  else if spec.form = .version then .error (.version command)
  else if spec.form.isUnique ∧ spec.long ∈ r.given then fail (.repeated spec.shown)
  else
    match spec.set source value r.settings with
    | .error fault => fail (fault.error spec.shown value)
    | .ok settings =>
        let given :=
          if spec.form = .counter then r.given.erase spec.long ++ [spec.long]
          else if spec.long ∈ r.given then r.given
          else r.given ++ [spec.long]
        .ok { r with settings, given }

/-- Takes arguments that are no options into account. -/
def applyPositionals (spec : PositionalSpec σ) (r : Progress σ) :
    List String → Except Interruption (Progress σ)
  | [] => .ok { r with given := if spec.shown ∈ r.given then r.given else r.given ++ [spec.shown] }
  | value :: values =>
      match spec.set value r.settings with
      | .error fault => fail (fault.error spec.shown value)
      | .ok settings => applyPositionals spec { r with settings } values

/-- Looks at what was read last. -/
def settle (command : Option String) (r : Progress σ) : Except Interruption (Progress σ) :=
  match r.pending with
  | none => .ok r
  | some (.option spec none) => fail (.missingValue spec.shown)
  | some (.option spec (some value)) =>
      apply command spec .arguments value { r with pending := none }
  | some (.positionals spec values) => applyPositionals spec { r with pending := none } values

/-- Whether an option waits for its value. -/
def isAwaiting (r : Progress σ) : Bool :=
  match r.pending with
  | some (.option _ none) => true
  | _ => false

/-- Takes an option with its value into account. -/
def act (command : Option String) (spec : OptionSpec σ) (value : String) (r : Progress σ) :
    Except Interruption (Progress σ) :=
  match settle command r with
  | .error stop => .error stop
  | .ok r => apply command spec .arguments value r

/-- Lets an option wait for its value. -/
def await (command : Option String) (spec : OptionSpec σ) (r : Progress σ) :
    Except Interruption (Progress σ) :=
  match settle command r with
  | .error stop => .error stop
  | .ok r => .ok { r with pending := some (.option spec none) }

/-- Adds an argument that is no option. -/
def addPositional (command : Option String) (spec : PositionalSpec σ) (text : String)
    (r : Progress σ) : Except Interruption (Progress σ) :=
  match r.pending with
  | some (.positionals _ values) =>
      .ok { r with pending := some (.positionals spec (values ++ [text])) }
  | _ =>
      match settle command r with
      | .error stop => .error stop
      | .ok r => .ok { r with pending := some (.positionals spec [text]) }

end Progress

namespace Grammar

variable {σ : Type}

/-- Reads an option by its name. -/
def readLong (g : Grammar σ) (command : Option String) (name : String) (value : Option String)
    (r : Progress σ) : Except Interruption (Progress σ) :=
  match g.options.find? (·.long == name) with
  | none => Progress.fail (.unexpectedArgument ("--" ++ name))
  | some spec =>
      match spec.form.takesValue, value with
      | true, some value => r.act command spec value
      | true, none => r.await command spec
      | false, some value => Progress.fail (.unexpectedValue value spec.shown)
      | false, none => r.act command spec "true"

/-- Reads options by their letters. The first one that takes a value takes all that follows. -/
def readShort (g : Grammar σ) (command : Option String) (r : Progress σ) :
    List Char → Except Interruption (Progress σ)
  | [] => .ok r
  | letter :: rest =>
      match g.options.find? (·.short == some letter) with
      | none => Progress.fail (.unexpectedArgument ("-" ++ String.singleton letter))
      | some spec =>
          if spec.form.takesValue then
            match rest with
            | [] => r.await command spec
            | '=' :: value => r.act command spec (String.ofList value)
            | value => r.act command spec (String.ofList value)
          else
            match r.act command spec "true" with
            | .error stop => .error stop
            | .ok r => readShort g command r rest

/-- Reads an argument that is no option. -/
def readPlain (g : Grammar σ) (command : Option String) (text : String) (r : Progress σ) :
    Except Interruption (Progress σ) :=
  match g.positional with
  | some spec => r.addPositional command spec text
  | none =>
      Progress.fail <|
        if r.afterSeparator ∧ text ∈ g.commands then .unexpectedArgument text
        else .unknownCommand text

/-- Reads one argument that is no command. -/
def readOne (g : Grammar σ) (command : Option String) (text : String) (r : Progress σ) :
    Except Interruption (Progress σ) :=
  if r.afterSeparator then g.readPlain command text r
  else
    match Token.ofText text with
    | .separator => .ok { r with afterSeparator := true }
    | .long name value => g.readLong command name value r
    | .short letters => g.readShort command r letters
    | .plain =>
        match r.pending with
        | some (.option spec none) =>
            .ok { r with pending := some (.option spec (some text)) }
        | _ => g.readPlain command text r

/-- Reads arguments up to a command, which is given back with the arguments after it. -/
def read (g : Grammar σ) (command : Option String) (r : Progress σ) :
    List String → Except Interruption (Progress σ × Option (String × List String))
  | [] => .ok (r, none)
  | text :: rest =>
      if !r.afterSeparator && !r.isAwaiting && g.commands.contains text then
        .ok (r, some (text, rest))
      else
        match g.readOne command text r with
        | .error stop => .error stop
        | .ok r => read g command r rest

/-- Takes the environment variables of options that were not given into account. -/
def readVariables (vars : List (String × String)) (r : Progress σ) :
    List (OptionSpec σ) → Except Interruption (Progress σ)
  | [] => .ok r
  | spec :: specs =>
      match spec.variableName.bind fun name => vars.lookup name with
      | none => readVariables vars r specs
      | some value =>
          if spec.long ∈ r.given then readVariables vars r specs
          else
            match r.apply none spec .environment value with
            | .error stop => .error stop
            | .ok r => readVariables vars r specs

/-- Ends the reading of the arguments of a command. -/
def close (g : Grammar σ) (command : Option String) (vars : List (String × String))
    (r : Progress σ) : Except Interruption (Progress σ) :=
  match r.settle command with
  | .error stop => .error stop
  | .ok r => readVariables vars { r with pending := none } g.options

/-- How the usage text writes an option. -/
def shownOf (g : Grammar σ) (name : String) : String :=
  ((g.options.find? (·.long == name)).map OptionSpec.shown).getD name

/-- The first option that was given although another one that was given excludes it. -/
def conflict? (g : Grammar σ) (given : List String) : Option UsageError :=
  given.findSome? fun name =>
    (given.find? fun other =>
      g.conflicts.contains (name, other) || g.conflicts.contains (other, name)).map fun other =>
        .conflict (g.shownOf name) (g.shownOf other)

/-- The required arguments that were not given. -/
def missing (g : Grammar σ) (given : List String) : List String :=
  ((g.positional.toList.filter PositionalSpec.required).map PositionalSpec.shown).filter
    (!given.contains ·)

/-- The settings that were read, if the options go together and nothing is missing. -/
def validate (g : Grammar σ) (r : Progress σ) : Except Interruption σ :=
  match g.conflict? r.given with
  | some error => Progress.fail error
  | none =>
      match g.missing r.given with
      | [] => .ok r.settings
      | arguments => Progress.fail (.missingArguments arguments)

/-- Reads the arguments of a command that no other command follows. -/
def readAll (g : Grammar σ) (command : Option String) (vars : List (String × String))
    (start : σ) (arguments : List String) : Except Interruption σ := do
  let (r, _) ← g.read command { settings := start } arguments
  let r ← g.close command vars r
  g.validate r

end Grammar

end PinFloor
