import PinFloor.Data.Value
import PinFloor.Environment
import PinFloor.PackageName
import PinFloor.Path
import PinFloor.Rule

/-!
# Decoding data values

Reading the library's own types from data values. The fields of a mapping are visited by name, and
the first error is reported. Formats differ in what they say about a value that names no choice.
-/

namespace PinFloor

inductive DataFormat where
  | json
  | toml
  deriving Repr, DecidableEq

/-- Why a value cannot be decoded. -/
inductive DecodeError where
  /-- The value has another type. -/
  | wrongType (found : Value) (expected : String)
  /-- A mapping has a field that is not known. -/
  | unknownField (name : String) (known : List String)
  /-- A text names none of the choices. -/
  | unknownChoice (name : String) (known : List String)
  /-- A list has too few items for a structure. -/
  | tooShort (length : Nat) (structureName : String) (fields : Nat)
  /-- The text is no package name. -/
  | invalidName (error : InvalidName)
  /-- The text is no Python version. -/
  | invalidVersion (error : EnvironmentError)
  /-- The value has a form that the format does not take for a choice. -/
  | notAChoice (message : String)
  deriving Repr

/-- A decoder for a type. -/
abbrev Decoder (α : Type) := Value → Except DecodeError α

namespace DecodeError

/-- Names between backquotes, separated by commas. -/
def nameList (names : List String) : String :=
  String.intercalate ", " (names.map fun name => "`" ++ name ++ "`")

/-- What is said about an error. -/
def message : DecodeError → String
  | wrongType found expected => "invalid type: " ++ found.described ++ ", expected " ++ expected
  | unknownField name known =>
      "unknown field `" ++ name ++ "`, expected one of " ++ nameList known
  | unknownChoice name known =>
      "unknown variant `" ++ name ++ "`, expected one of " ++ nameList known
  | tooShort length structureName fields =>
      "invalid length " ++ Decimal.text length ++ ", expected struct " ++ structureName ++ " with "
        ++ Decimal.text fields ++ (if fields = 1 then " element" else " elements")
  | invalidName error => error.message
  | invalidVersion error => error.message
  | notAChoice message => message

end DecodeError

namespace Decode

def text (expected : String) : Decoder String
  | .string text => .ok text
  | value => .error (.wrongType value expected)

/-- A truth value. -/
def boolean : Decoder Bool
  | .boolean value => .ok value
  | value => .error (.wrongType value "a boolean")

def list {α : Type} (item : Decoder α) : Decoder (List α)
  | .sequence items => items.mapM item
  | value => .error (.wrongType value "a sequence")

def path : Decoder Path := fun value =>
  (text "path string" value).map Path.mk

def packageName : Decoder PackageName := fun value =>
  match text "a string" value with
  | .error error => .error error
  | .ok name => (PackageName.adopt name).mapError .invalidName

def pythonVersion : Decoder PythonVersion := fun value =>
  match text "a string" value with
  | .error error => .error error
  | .ok version => (PythonVersion.parse version).mapError .invalidVersion

/-- The choice with a name. -/
def choiceNamed {α : Type} (choices : List (String × α)) (name : String) :
    Except DecodeError α :=
  match choices.lookup name with
  | some choice => .ok choice
  | none => .error (.unknownChoice name (choices.map Prod.fst))

/-- Refuses what stands at the name of a choice, unless it is empty. -/
def nothing (format : DataFormat) (value : Value) : Except DecodeError Unit :=
  match format, value with
  | .json, .null => .ok ()
  | .json, value => .error (.wrongType value "unit")
  | .toml, .sequence [] => .ok ()
  | .toml, .mapping [] => .ok ()
  | .toml, .sequence _ => .error (.notAChoice "expected empty array")
  | .toml, .mapping _ => .error (.notAChoice "expected empty table")
  | .toml, value => .error (.notAChoice ("expected table, found " ++ value.kind))

/-- What is said about a mapping for a choice that has not exactly one field. -/
def fieldCountMessage (format : DataFormat) (fields : List (String × Value)) : String :=
  match format, fields with
  | .json, _ => "invalid value: map, expected map with a single key"
  | .toml, [] => "wanted exactly 1 element, found 0 elements"
  | .toml, _ => "wanted exactly 1 element, more than 1 element"

/-- One of some named choices: by its name, or by a mapping from its name to nothing. -/
def choice {α : Type} (format : DataFormat) (choices : List (String × α)) : Decoder α
  | .string name => choiceNamed choices name
  | .mapping [(name, value)] =>
      match choiceNamed choices name with
      | .error error => .error error
      | .ok choice => (nothing format value).map fun () => choice
  | .mapping fields => .error (.notAChoice (fieldCountMessage format fields))
  | value =>
      match format with
      | .json => .error (.wrongType value "string or map")
      | .toml => .error (.notAChoice "wanted string or table")

def platform (format : DataFormat) : Decoder Platform :=
  choice format
    [("linux", .linux), ("win32", .windows), ("windows", .windows), ("darwin", .macos),
     ("macos", .macos)]

def rule (format : DataFormat) : Decoder Rule :=
  choice format (Rule.all.map fun rule => (rule.code, rule))

def severity (format : DataFormat) : Decoder Severity :=
  choice format (Severity.all.map fun severity => (severity.text, severity))

/-- A date as the mapping that stands for it. -/
def dateFields (text : String) : List (String × Value) :=
  [("$__toml_private_datetime", .string text)]

/-- The fields of a mapping in the order of their names. -/
def sortedFields (fields : List (String × Value)) : List (String × Value) :=
  fields.mergeSort fun a b => decide (a.1 ≤ b.1)

/-- How one field changes a structure that is being read. -/
abbrev FieldDecoder (σ : Type) := σ → Value → Except DecodeError σ

/-- Reads the items of a list one for each field, in the order of the fields. -/
def items {σ : Type} (structureName : String) (count : Nat) (position : Nat) (s : σ) :
    List (String × FieldDecoder σ) → List Value → Except DecodeError σ
  | [], _ => .ok s
  | _ :: _, [] => .error (.tooShort position structureName count)
  | (_, field) :: fields, value :: values =>
      match field s value with
      | .error error => .error error
      | .ok s => items structureName count (position + 1) s fields values

/-- Reads the fields of a mapping. Those that are not known are refused, or else passed over. -/
def namedFields {σ : Type} (strict : Bool) (known : List (String × FieldDecoder σ)) (s : σ) :
    List (String × Value) → Except DecodeError σ
  | [] => .ok s
  | (name, value) :: rest =>
      match known.lookup name with
      | none =>
          if strict then .error (.unknownField name (known.map Prod.fst))
          else namedFields strict known s rest
      | some field =>
          match field s value with
          | .error error => .error error
          | .ok s => namedFields strict known s rest

/-- A structure, from a mapping or from a list of its fields. -/
def record {σ : Type} (structureName : String) (strict : Bool)
    (known : List (String × FieldDecoder σ)) (start : σ) : Decoder σ
  | .mapping fields => namedFields strict known start (sortedFields fields)
  | .date text => namedFields strict known start (dateFields text)
  | .sequence values => items structureName known.length 0 start known values
  | value => .error (.wrongType value ("struct " ++ structureName))

end Decode

end PinFloor
