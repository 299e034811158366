import PinFloor.Path
import PinFloor.Requirement.Basic
import PinFloor.RequirementsFile.GlobalOption
import PinFloor.Text.Position
import PinFloor.Text.Shown

/-!
# Statements of a requirements file

A file is a list of statements, each with the line it starts on. Where it cannot be read further, a
fault follows the statements before it.
-/

namespace PinFloor

/-- What the named entries of an included file are. -/
inductive IncludeKind where
  /-- Each is what the included file says it is. -/
  | requirements
  /-- All are constraints. -/
  | constraints
  deriving Repr, DecidableEq

/-- A statement of a requirements file. -/
inductive Statement where
  /-- The inclusion of another file. -/
  | include (kind : IncludeKind) (file : Path)
  /-- A named requirement with its hashes. -/
  | requirement (requirement : Requirement) (hashes : List String)
  /-- An editable installation. -/
  | editable (target : String)
  /-- A path or URL without a package name. -/
  | unnamed (target : String)
  /-- A global option. -/
  | option (option : GlobalOption)
  deriving Repr, DecidableEq

/-- A statement and the line that it starts on. -/
structure PlacedStatement where
  /-- The line, counted from one. -/
  line : Nat
  statement : Statement
  deriving Repr, DecidableEq

/-- What is wrong with the form of a statement. -/
inductive SyntaxError where
  /-- No statement starts with this character. -/
  | unexpectedStart (found : Char)
  /-- Something follows a statement on its line. -/
  | trailing (found : Char)
  /-- No `=` and no blank follows an option that takes a value. -/
  | missingSeparator (found : Option Char)
  /-- No value follows an option that takes one. -/
  | missingValue
  /-- Something that starts with `--` follows a requirement. -/
  | expectedHash (found : String)
  deriving Repr, DecidableEq

/-- Why a file cannot be read further. -/
inductive Fault where
  /-- A statement has the wrong form. -/
  | malformed (error : SyntaxError) (position : Position)
  /-- There is no such option. -/
  | unsupportedOption (name : String) (line : Nat)
  /-- The text of a named requirement is no requirement. -/
  | invalidRequirement (line : Nat)
  deriving Repr, DecidableEq

/-- What a text says as a requirements file. -/
structure Script where
  /-- The statements before the fault, or all of them. -/
  statements : List PlacedStatement
  /-- Why the text cannot be read further. -/
  fault? : Option Fault
  deriving Repr, DecidableEq

namespace SyntaxError

/-- A character that may be missing, as it is shown in a message. -/
def shown : Option Char → String
  | none => "None"
  | some c => "Some(" ++ shownChar c ++ ")"

/-- What is said about a statement of the wrong form. -/
def message : SyntaxError → String
  | unexpectedStart found =>
      "Unexpected '" ++ String.singleton found
        ++ "', expected an option, a path, a URL or the start of a requirement"
  | trailing found =>
      "Expected comment or end-of-line, found '" ++ String.singleton found ++ "'"
  | missingSeparator found => "Expected '=' or whitespace, found " ++ shown found
  | missingValue => "Expected a value after the option"
  | expectedHash found => "Expected '--hash', found '" ++ found ++ "'"

end SyntaxError

end PinFloor
