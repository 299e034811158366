/-!
# Showing texts in messages

A text is shown between quotes, with quotes, backslashes and invisible characters escaped.
-/

namespace PinFloor

/-- A number in lower-case hexadecimal digits. -/
def hexText (n : Nat) : String :=
  String.ofList (Nat.toDigits 16 n)

/-- Characters without a shape of their own: controls, blanks other than the space, combining and
    format characters, and places for private use. -/
def isHidden (c : Char) : Bool :=
  let n := c.toNat
  n < 0x20 || (0x7F ≤ n && n ≤ 0xA0) || n = 0xAD || (0x300 ≤ n && n ≤ 0x36F) || n = 0x1680
    || (0x2000 ≤ n && n ≤ 0x200F) || (0x2028 ≤ n && n ≤ 0x202F) || (0x205F ≤ n && n ≤ 0x206F)
    || n = 0x3000 || (0xE000 ≤ n && n ≤ 0xF8FF) || (0xFE00 ≤ n && n ≤ 0xFE0F) || n = 0xFEFF
    || (0xFFF0 ≤ n && n ≤ 0xFFFB)

/-- A character as it is shown between quotes of a kind. -/
def shownIn (quote : Char) (c : Char) : String :=
  if c = '\n' then "\\n"
  else if c = '\t' then "\\t"
  else if c = '\r' then "\\r"
  else if c = '\x00' then "\\0"
  else if c = '\\' then "\\\\"
  else if c = quote then String.ofList ['\\', c]
  else if isHidden c then "\\u\x7b" ++ hexText c.toNat ++ "\x7d"
  else String.singleton c

/-- A character between single quotes. -/
def shownChar (c : Char) : String :=
  "'" ++ shownIn '\'' c ++ "'"

/-- A text between double quotes. -/
def shownText (s : String) : String :=
  "\"" ++ String.join (s.toList.map (shownIn '"')) ++ "\""

end PinFloor
