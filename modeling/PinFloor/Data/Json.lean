import PinFloor.Data.Value

/-!
# JSON texts

How a value is written as a JSON text: each item and each field on a line of its own, indented by
two blanks for each level. Lists and mappings without content stay on one line.
-/

namespace PinFloor.Json

/-- A number with four hexadecimal digits. -/
def fourDigits (n : Nat) : List Char :=
  let digits := Nat.toDigits 16 n
  List.replicate (4 - digits.length) '0' ++ digits

/-- A character as it stands between quotes. -/
def escape (c : Char) : List Char :=
  if c = '"' then ['\\', '"']
  else if c = '\\' then ['\\', '\\']
  else if c = '\n' then ['\\', 'n']
  else if c = '\r' then ['\\', 'r']
  else if c = '\t' then ['\\', 't']
  else if c = '\x08' then ['\\', 'b']
  else if c = '\x0c' then ['\\', 'f']
  else if c.toNat < 0x20 then '\\' :: 'u' :: fourDigits c.toNat
  else [c]

/-- A text between quotes. -/
def quote (s : String) : List Char :=
  '"' :: s.toList.flatMap escape ++ ['"']

/-- The start of a line at a depth. -/
def newLine (depth : Nat) : List Char :=
  '\n' :: List.replicate (2 * depth) ' '

mutual

/-- A value at a depth. -/
def write (depth : Nat) : Value → List Char
  | .null => "null".toList
  | .boolean value => (if value then "true" else "false").toList
  | .integer value => (Value.integerText value).toList
  | .fraction text => text.toList
  | .string text => quote text
  | .date text => quote text
  | .sequence [] => ['[', ']']
  | .sequence (item :: items) =>
      '[' :: newLine (depth + 1) ++ write (depth + 1) item ++ writeItems (depth + 1) items
        ++ newLine depth ++ [']']
  | .mapping [] => ['\x7b', '\x7d']
  | .mapping ((name, value) :: fields) =>
      '\x7b' :: newLine (depth + 1) ++ quote name ++ [':', ' '] ++ write (depth + 1) value
        ++ writeFields (depth + 1) fields ++ newLine depth ++ ['\x7d']

/-- The items of a list after the first. -/
def writeItems (depth : Nat) : List Value → List Char
  | [] => []
  | item :: items => ',' :: newLine depth ++ write depth item ++ writeItems depth items

/-- The fields of a mapping after the first. -/
def writeFields (depth : Nat) : List (String × Value) → List Char
  | [] => []
  | (name, value) :: fields =>
      ',' :: newLine depth ++ quote name ++ [':', ' '] ++ write depth value
        ++ writeFields depth fields

end

def text (value : Value) : String :=
  String.ofList (write 0 value)

end PinFloor.Json
