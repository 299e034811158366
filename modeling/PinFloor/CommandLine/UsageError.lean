/-!
# Usage errors

What can be wrong with the arguments of a command line. Arguments are named as the usage text
writes them, for example `--color <COLOR>`.
-/

namespace PinFloor

/-- Why a command line cannot be understood. -/
inductive UsageError where
  /-- There is no such option, or no place for such an argument. -/
  | unexpectedArgument (given : String)
  /-- An option that takes no value is given one. -/
  | unexpectedValue (value option : String)
  /-- An option or argument has no value. -/
  | missingValue (option : String)
  /-- A value is not one that the option takes. -/
  | invalidValue (value option : String) (reason : Option String)
  /-- An option is given again. -/
  | repeated (option : String)
  /-- Two options exclude each other. -/
  | conflict (option other : String)
  /-- Required arguments are missing. -/
  | missingArguments (arguments : List String)
  /-- No command is given. -/
  | missingCommand
  /-- There is no such command. -/
  | unknownCommand (given : String)
  deriving Repr, DecidableEq

/-- Why a text is no value of an option. -/
inductive ValueFault where
  /-- The text is empty. -/
  | missing
  /-- The text is not among the values of a fixed set. -/
  | notAllowed
  /-- The text cannot be read as a value. -/
  | invalid (reason : String)
  deriving Repr, DecidableEq

namespace UsageError

/-- A text between single quotes. -/
def quote (s : String) : String :=
  "'" ++ s ++ "'"

/-- What is said about an error. -/
def message : UsageError → String
  | unexpectedArgument given => "unexpected argument " ++ quote given ++ " found"
  | unexpectedValue value option =>
      "unexpected value " ++ quote value ++ " for " ++ quote option
        ++ " found; no more were expected"
  | missingValue option => "a value is required for " ++ quote option ++ " but none was supplied"
  | invalidValue value option none => "invalid value " ++ quote value ++ " for " ++ quote option
  | invalidValue value option (some reason) =>
      "invalid value " ++ quote value ++ " for " ++ quote option ++ ": " ++ reason
  | repeated option => "the argument " ++ quote option ++ " cannot be used multiple times"
  | conflict option other =>
      "the argument " ++ quote option ++ " cannot be used with " ++ quote other
  | missingArguments arguments =>
      "the following required arguments were not provided:"
        ++ String.join (arguments.map fun argument => "\n  " ++ argument)
  | missingCommand => "'mincheck' requires a subcommand but one was not provided"
  | unknownCommand given => "unrecognized subcommand " ++ quote given

end UsageError

namespace ValueFault

/-- The error for a text that is no value of an option. -/
def error (option value : String) : ValueFault → UsageError
  | missing => .missingValue option
  | notAllowed => if value = "" then .missingValue option else .invalidValue value option none
  | invalid reason => .invalidValue value option (some reason)

end ValueFault

end PinFloor
