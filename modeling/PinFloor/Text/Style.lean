/-!
# Styled text

Styles are switched on and off by control sequences within the text. Where a terminal is not to be
expected, the sequences are taken out again, and with them all other controls but blanks.
-/

namespace PinFloor

/-- How a piece of text is shown. -/
inductive Style where
  /-- In bold letters. -/
  | bold
  /-- With less light. -/
  | dimmed
  | red
  | green
  | yellow
  | blue
  | purple
  | cyan
  deriving Repr, DecidableEq

/-- Where a text stands with respect to control sequences. -/
inductive Sequence where
  | outside
  /-- After the character that starts one. -/
  | started
  /-- After a character between the start and the end of a short one. -/
  | short
  /-- Among the parameters of one. -/
  | parameters
  /-- In a text for the terminal, which a bell may end. -/
  | message (bell : Bool)
  deriving Repr, DecidableEq

namespace Style

/-- A control sequence with a number. -/
def sequence (number : String) : String :=
  "\x1b[" ++ number ++ "m"

/-- What switches a style on. -/
def on : Style → String
  | bold => sequence "1"
  | dimmed => sequence "2"
  | red => sequence "31"
  | green => sequence "32"
  | yellow => sequence "33"
  | blue => sequence "34"
  | purple => sequence "35"
  | cyan => sequence "36"

/-- What switches a style off. The end of a colour leaves bold letters bold. -/
def off : Style → String
  | bold => sequence "0"
  | dimmed => sequence "0"
  | _ => sequence "39"

/-- A text in a style. -/
def paint (style : Style) (text : String) : String :=
  style.on ++ text ++ style.off

end Style

namespace Sequence

/-- Whether a control is a blank, which ends a sequence. -/
def isBreak (c : Char) : Bool :=
  c = '\t' || c = '\n' || c = '\x0c' || c = '\r'

/-- Whether a character may stand outside of a sequence. -/
def isShown (c : Char) : Bool :=
  isBreak c || (c.toNat ≥ 0x20 && c.toNat ≠ 0x7F)

/-- Where a text stands after a character within a sequence. -/
def next (c : Char) : Sequence → Sequence
  | outside => outside
  | started =>
      if c = '[' then parameters
      else if c = ']' then message true
      else if c = 'P' || c = 'X' || c = '^' || c = '_' then message false
      else if 0x30 ≤ c.toNat && c.toNat ≤ 0x7E then outside
      else if 0x20 ≤ c.toNat && c.toNat ≤ 0x2F then short
      else started
  | short => if 0x30 ≤ c.toNat && c.toNat ≤ 0x7E then outside else short
  | parameters => if 0x40 ≤ c.toNat && c.toNat ≤ 0x7E then outside else parameters
  | message bell => if bell && c = '\x07' then outside else message bell

/-- Whether blanks end a sequence. -/
def breaks : Sequence → Bool
  | message _ => false
  | _ => true

/-- A text without control sequences and controls, from a place on. -/
def strip (place : Sequence) : List Char → List Char
  | [] => []
  | c :: rest =>
      if c = '\x1b' then strip started rest
      else if c = '\x18' || c = '\x1a' then strip outside rest
      else if place = outside then
        if isShown c then c :: strip outside rest else strip outside rest
      else if isBreak c && place.breaks then c :: strip outside rest
      else strip (place.next c) rest

end Sequence

/-- A text without control sequences and controls. -/
def unstyled (s : String) : String :=
  String.ofList (Sequence.strip .outside s.toList)

end PinFloor
