/-!
# Positions in a text

Lines and columns are counted from one, columns in characters. `\n`, `\r\n` and a lone `\r` each
end a line.
-/

namespace PinFloor

/-- A line and a column, both counted from one. -/
structure Position where
  /-- The number of line ends before this place, plus one. -/
  line : Nat
  /-- The number of characters since the last line end, plus one. -/
  column : Nat
  deriving Repr, DecidableEq

namespace Position

/-- The first place of a text. -/
def start : Position := ⟨1, 1⟩

/-- The place reached from `p` after reading a text. -/
def advance (p : Position) : List Char → Position
  | [] => p
  | '\r' :: '\n' :: rest => advance ⟨p.line + 1, 1⟩ rest
  | '\r' :: rest => advance ⟨p.line + 1, 1⟩ rest
  | '\n' :: rest => advance ⟨p.line + 1, 1⟩ rest
  | _ :: rest => advance ⟨p.line, p.column + 1⟩ rest

/-- The place at the end of `before`. -/
def after (before : List Char) : Position :=
  start.advance before

/-- The place in `content` at which its tail `rest` begins. -/
def ofRest (content rest : List Char) : Position :=
  after (content.take (content.length - rest.length))

end Position

end PinFloor
