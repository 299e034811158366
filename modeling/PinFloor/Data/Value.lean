import PinFloor.Text.Decimal
import PinFloor.Text.Shown

/-!
# Data values

What a text in a data format holds. A number with a fraction and a date are kept by their texts,
since nothing here counts with them.
-/

namespace PinFloor

/-- A data value. -/
inductive Value where
  /-- No value. -/
  | null
  /-- A truth value. -/
  | boolean (value : Bool)
  /-- A whole number. -/
  | integer (value : Int)
  /-- A number with a fraction, by its shortest text. -/
  | fraction (text : String)
  /-- A text. -/
  | string (text : String)
  /-- A date or a time, by its text. -/
  | date (text : String)
  /-- A list of values. -/
  | sequence (items : List Value)
  /-- Named values. -/
  | mapping (fields : List (String × Value))
  deriving Repr, Inhabited

namespace Value

/-- A whole number in decimal digits. -/
def integerText : Int → String
  | .ofNat n => Decimal.text n
  | .negSucc n => "-" ++ Decimal.text (n + 1)

/-- A value as messages about its type name it. -/
def described : Value → String
  | null => "null"
  | boolean value => "boolean `" ++ (if value then "true" else "false") ++ "`"
  | integer value => "integer `" ++ integerText value ++ "`"
  | fraction text => "floating point `" ++ text ++ "`"
  | string text => "string " ++ shownText text
  | date _ => "map"
  | sequence _ => "sequence"
  | mapping _ => "map"

/-- The type of a value. -/
def kind : Value → String
  | null => "null"
  | boolean _ => "boolean"
  | integer _ => "integer"
  | fraction _ => "float"
  | string _ => "string"
  | date _ => "datetime"
  | sequence _ => "array"
  | mapping _ => "table"

end Value

end PinFloor
