import PinFloor.Text.Decimal
import PinFloor.Text.Style
import PinFloor.Text.Wrap

/-!
# Messages about failures

A failure is told by its own message and those of its causes, each cause on a line of its own. The
words of the messages are never lost; only blanks between them may change.
-/

namespace PinFloor.Failure

/-- The variables that decide how messages are wrapped. -/
structure Wrapping where
  /-- The width of the terminal, as a text. -/
  columns : Option String
  /-- Whether wrapping is switched off. -/
  off : Bool

/-- The width at which messages are wrapped, if they are. -/
def Wrapping.width? (w : Wrapping) : Option Nat :=
  if w.off then none
  else w.columns.bind fun columns => Decimal.signedWord? columns.toList

/-- What stands before the message of a cause. -/
def causeLabel : String := "Caused by"

/-- The indent of the rows of a cause after its first. -/
def causeIndent : Nat := 13

/-- The first line of a failure. -/
def head (width : Option Nat) (message : String) : String :=
  Style.bold.paint (Style.red.paint "error") ++ Style.bold.paint ":" ++ " "
    ++ String.ofList (trim (Wrap.layout width 0 message.toList)) ++ "\n"

/-- The lines of a cause. A cause without rows has none. -/
def cause (width : Option Nat) (message : String) : String :=
  match Wrap.endedLines (Wrap.layout width causeIndent message.toList) with
  | [] => ""
  | first :: rest =>
      "  " ++ Style.bold.paint (Style.red.paint causeLabel) ++ ": "
        ++ String.ofList (trim first) ++ "\n"
        ++ String.join (rest.map fun row => String.ofList (trimEnd row) ++ "\n")

/-- The text of a failure, given its message and those of its causes, outermost first. -/
def text (width : Option Nat) : List String → String
  | [] => ""
  | message :: causes => head width message ++ String.join (causes.map (cause width))

end PinFloor.Failure
