import PinFloor.Data.Value
import PinFloor.Text.Decimal
import PinFloor.Text.ShortestDecimal

/-!
# TOML literals

Numbers, truth values and dates are words: runs of letters, digits and a few signs. Strings stand
between quotes of two kinds, single or threefold.
-/

namespace PinFloor.Toml

/-- A space or a tab. -/
def isBlankChar (c : Char) : Bool :=
  c = ' ' || c = '\t'

/-- A control character other than the tab. -/
def isControl (c : Char) : Bool :=
  (c.val < 0x20 && c ≠ '\t') || c.val = 0x7F

/-- Skips spaces and tabs. -/
def skipBlanks (cs : List Char) : List Char :=
  cs.dropWhile isBlankChar

/-- Reads a line end. -/
def lineEnd? : List Char → Option (List Char)
  | '\n' :: rest => some rest
  | '\r' :: '\n' :: rest => some rest
  | _ => none

/-! ## Words -/

/-- A character of a word. -/
def inWord (c : Char) : Bool :=
  c.isAlphanum || c = '_' || c = '-' || c = '+' || c = '.' || c = ':'

/-- Whether each underscore stands between two digits of a class. -/
def underscoresOk (digit : Char → Bool) : List Char → Bool
  | [] => false
  | [c] => digit c
  | c :: '_' :: d :: rest => digit c && digit d && underscoresOk digit (d :: rest)
  | c :: rest => digit c && underscoresOk digit rest

/-- The value of a digit of any base. -/
def digitValue (c : Char) : Nat :=
  if c.isDigit then c.toNat - '0'.toNat else c.toLower.toNat - 'a'.toNat + 10

/-- The number that digits with underscores denote in a base. -/
def valueIn (base : Nat) (cs : List Char) : Nat :=
  (cs.filter (· ≠ '_')).foldl (fun n c => n * base + digitValue c) 0

/-- A number in a base other than ten. -/
def basedNumber? (base : Nat) (cs : List Char) : Option Nat :=
  let digit := fun c : Char => c.isAlphanum && digitValue c < base
  if underscoresOk digit cs then some (valueIn base cs) else none

/-- A number in base ten; it has no needless zero at its start. -/
def decimalNumber? (cs : List Char) : Option Nat :=
  match cs with
  | '0' :: _ :: _ => none
  | _ => if underscoresOk Char.isDigit cs then some (valueIn 10 cs) else none

/-- Splits a sign off. -/
def splitSign : List Char → Option Bool × List Char
  | '-' :: rest => (some true, rest)
  | '+' :: rest => (some false, rest)
  | cs => (none, cs)

/-- The least and the greatest whole number. -/
def inRange (n : Int) : Bool :=
  Int64.minValue.toInt ≤ n && n ≤ Int64.maxValue.toInt

/-- A whole number. -/
def integer? (cs : List Char) : Option Int :=
  let (sign, digits) := splitSign cs
  let n? : Option Int :=
    match sign, digits with
    | none, '0' :: 'x' :: rest => (basedNumber? 16 rest).map Int.ofNat
    | none, '0' :: 'o' :: rest => (basedNumber? 8 rest).map Int.ofNat
    | none, '0' :: 'b' :: rest => (basedNumber? 2 rest).map Int.ofNat
    | some true, digits => (decimalNumber? digits).map fun n => -(n : Int)
    | _, digits => (decimalNumber? digits).map Int.ofNat
  n?.filter inRange

/-- The exponent of a number with a fraction. -/
def exponent? (cs : List Char) : Option Int :=
  let (sign, digits) := splitSign cs
  if underscoresOk Char.isDigit digits then
    let n : Int := valueIn 10 digits
    some (if sign = some true then -n else n)
  else none

/-- The shortest text of a number with a fraction or an exponent. It may not be too large. -/
def fraction? (cs : List Char) : Option String :=
  let (sign, body) := splitSign cs
  let negative := sign = some true
  let isExponentMark := fun c : Char => c = 'e' || c = 'E'
  let mantissa := body.takeWhile (!isExponentMark ·)
  let exponent? : Option Int :=
    match body.dropWhile (!isExponentMark ·) with
    | [] => some 0
    | _ :: rest => exponent? rest
  let whole := mantissa.takeWhile (· ≠ '.')
  let digits? : Option (List Char) :=
    match mantissa.dropWhile (· ≠ '.') with
    | [] => if mantissa.length < body.length then some [] else none
    | _ :: rest => if underscoresOk Char.isDigit rest then some (rest.filter (· ≠ '_')) else none
  match decimalNumber? whole, digits?, exponent? with
  | some n, some digits, some e =>
      ShortestDecimal.text? negative (valueIn 10 (Decimal.digits n ++ digits)) (e - digits.length)
  | _, _, _ =>
      match body with
      | ['i', 'n', 'f'] => some (if negative then "-inf.0" else "inf.0")
      | ['n', 'a', 'n'] => some "NaN.0"
      | _ => none

/-- A number of exactly so many digits between two bounds. -/
def bounded? (count low high : Nat) (cs : List Char) : Option Unit :=
  if cs.length = count ∧ cs.all Char.isDigit ∧ low ≤ valueIn 10 cs ∧ valueIn 10 cs ≤ high then
    some ()
  else none

/-- Whether a year has a 29th of February. -/
def isLeap (year : Nat) : Bool :=
  year % 4 = 0 && (year % 100 ≠ 0 || year % 400 = 0)

/-- The number of days of a month. -/
def daysOf (year month : Nat) : Nat :=
  if month = 2 then (if isLeap year then 29 else 28)
  else if month ∈ [4, 6, 9, 11] then 30
  else 31

/-- Whether a text is a day. -/
def isDay (cs : List Char) : Bool :=
  match cs.splitOn '-' with
  | [year, month, day] =>
      (bounded? 4 0 9999 year).isSome && (bounded? 2 1 12 month).isSome
        && (bounded? 2 1 (daysOf (valueIn 10 year) (valueIn 10 month)) day).isSome
  | _ => false

/-- Whether a text is a time of a day. Seconds may be left out. -/
def isTime (cs : List Char) : Bool :=
  let seconds := fun s : List Char =>
    match s.splitOn '.' with
    | [whole] => (bounded? 2 0 60 whole).isSome
    | [whole, part] =>
        (bounded? 2 0 60 whole).isSome && !part.isEmpty && part.all Char.isDigit
    | _ => false
  match cs.splitOn ':' with
  | [hour, minute] => (bounded? 2 0 23 hour).isSome && (bounded? 2 0 59 minute).isSome
  | [hour, minute, second] =>
      (bounded? 2 0 23 hour).isSome && (bounded? 2 0 59 minute).isSome && seconds second
  | _ => false

/-- Whether a text is a time of a day with an offset. -/
def isOffsetTime (cs : List Char) : Bool :=
  let last := cs.getLast?
  if last = some 'Z' ∨ last = some 'z' then isTime cs.dropLast
  else
    let time := cs.takeWhile fun c => c ≠ '+' && c ≠ '-'
    let offset := cs.drop (time.length + 1)
    isTime time && time.length < cs.length && offset.length = 5 && isTime offset

/-- Whether a text is a date, a time, or both. -/
def isDate (cs : List Char) : Bool :=
  isDay cs || isTime cs
    || (isDay (cs.take 10)
        && (match cs.drop 10 with
            | c :: time =>
                (c = 'T' || c = 't' || c = ' ') && (isTime time || isOffsetTime time)
            | [] => false))

def word? (cs : List Char) : Option Value :=
  match cs with
  | ['t', 'r', 'u', 'e'] => some (.boolean true)
  | ['f', 'a', 'l', 's', 'e'] => some (.boolean false)
  | _ =>
      match integer? cs, fraction? cs with
      | some n, _ => some (.integer n)
      | none, some text => some (.fraction text)
      | none, none => if isDate cs then some (.date (String.ofList cs)) else none

/-- Reads a word. A day and a time may be separated by a space. -/
def word (cs : List Char) : Option (Value × List Char) :=
  let first := cs.takeWhile inWord
  let rest := cs.dropWhile inWord
  match rest with
  | ' ' :: d :: after =>
      if isDay first && d.isDigit then
        let second := (d :: after).takeWhile inWord
        (word? (first ++ ' ' :: second)).map fun v => (v, (d :: after).dropWhile inWord)
      else (word? first).map fun v => (v, rest)
  | _ => (word? first).map fun v => (v, rest)

/-! ## Strings -/

/-- The value of a hexadecimal digit. -/
def hexValue? (c : Char) : Option Nat :=
  if c.isDigit || ('a' ≤ c && c ≤ 'f') || ('A' ≤ c && c ≤ 'F') then some (digitValue c) else none

/-- The character with a number in `count` hexadecimal digits. -/
def numbered? (count : Nat) (cs : List Char) : Option (Char × List Char) := do
  let digits := cs.take count
  let n ← digits.foldlM (fun n c => (hexValue? c).map (n * 16 + ·)) 0
  if digits.length = count ∧ n.isValidChar then some (Char.ofNat n, cs.drop count) else none

/-- Reads what follows a backslash. -/
def escape? : List Char → Option (Char × List Char)
  | 'b' :: rest => some ('\x08', rest)
  | 't' :: rest => some ('\t', rest)
  | 'n' :: rest => some ('\n', rest)
  | 'f' :: rest => some ('\x0c', rest)
  | 'r' :: rest => some ('\r', rest)
  | 'e' :: rest => some ('\x1b', rest)
  | '"' :: rest => some ('"', rest)
  | '\\' :: rest => some ('\\', rest)
  | 'x' :: rest => numbered? 2 rest
  | 'u' :: rest => numbered? 4 rest
  | 'U' :: rest => numbered? 8 rest
  | _ => none

/-- Skips blanks and line ends. -/
def skipSpace : List Char → List Char
  | ' ' :: rest => skipSpace rest
  | '\t' :: rest => skipSpace rest
  | '\n' :: rest => skipSpace rest
  | '\r' :: '\n' :: rest => skipSpace rest
  | cs => cs

/-- Reads the rest of a string between double quotes. -/
def basic (fuel : Nat) (cs : List Char) : Option (List Char × List Char) :=
  match fuel, cs with
  | _, '"' :: rest => some ([], rest)
  | fuel + 1, '\\' :: rest => do
      let (c, rest) ← escape? rest
      let (text, rest) ← basic fuel rest
      some (c :: text, rest)
  | fuel + 1, c :: rest =>
      if isControl c then none
      else (basic fuel rest).map fun (text, rest) => (c :: text, rest)
  | _, _ => none

/-- Reads the rest of a string between threefold double quotes. Up to two quotes may stand directly
    before the closing ones. -/
def longBasic (fuel : Nat) (cs : List Char) : Option (List Char × List Char) :=
  match fuel, cs with
  | _, '"' :: '"' :: '"' :: '"' :: '"' :: rest => some (['"', '"'], rest)
  | _, '"' :: '"' :: '"' :: '"' :: rest => some (['"'], rest)
  | _, '"' :: '"' :: '"' :: rest => some ([], rest)
  | fuel + 1, '\\' :: rest =>
      match escape? rest with
      | some (c, rest) => (longBasic fuel rest).map fun (text, rest) => (c :: text, rest)
      | none =>
          match lineEnd? (skipBlanks rest) with
          | some rest => longBasic fuel (skipSpace rest)
          | none => none
  | fuel + 1, '\r' :: '\n' :: rest =>
      (longBasic fuel rest).map fun (text, rest) => ('\n' :: text, rest)
  | fuel + 1, c :: rest =>
      if isControl c && c ≠ '\n' then none
      else (longBasic fuel rest).map fun (text, rest) => (c :: text, rest)
  | _, _ => none

/-- Reads the rest of a string between single quotes, which has no escapes. -/
def literal : List Char → Option (List Char × List Char)
  | '\'' :: rest => some ([], rest)
  | c :: rest =>
      if isControl c then none else (literal rest).map fun (text, rest) => (c :: text, rest)
  | [] => none

/-- Reads the rest of a string between threefold single quotes. -/
def longLiteral : List Char → Option (List Char × List Char)
  | '\'' :: '\'' :: '\'' :: '\'' :: '\'' :: rest => some (['\'', '\''], rest)
  | '\'' :: '\'' :: '\'' :: '\'' :: rest => some (['\''], rest)
  | '\'' :: '\'' :: '\'' :: rest => some ([], rest)
  | '\r' :: '\n' :: rest => (longLiteral rest).map fun (text, rest) => ('\n' :: text, rest)
  | c :: rest =>
      if isControl c && c ≠ '\n' then none
      else (longLiteral rest).map fun (text, rest) => (c :: text, rest)
  | [] => none

/-- The text after a line end that a long string may start with. -/
def afterFirstBreak (cs : List Char) : List Char :=
  (lineEnd? cs).getD cs

/-- Reads a string of one line. -/
def shortString : List Char → Option (String × List Char)
  | '"' :: rest => (basic rest.length rest).map fun (text, rest) => (String.ofList text, rest)
  | '\'' :: rest => (literal rest).map fun (text, rest) => (String.ofList text, rest)
  | _ => none

/-- Reads a string of any kind. -/
def string : List Char → Option (String × List Char)
  | '"' :: '"' :: '"' :: rest =>
      (longBasic rest.length (afterFirstBreak rest)).map fun (text, rest) =>
        (String.ofList text, rest)
  | '\'' :: '\'' :: '\'' :: rest =>
      (longLiteral (afterFirstBreak rest)).map fun (text, rest) => (String.ofList text, rest)
  | cs => shortString cs

end PinFloor.Toml
