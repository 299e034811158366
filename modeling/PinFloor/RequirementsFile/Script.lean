import PinFloor.RequirementsFile.Scanner

/-!
# Reading the statements of a requirements file

A text is read statement by statement up to its end or the first fault. Lines and columns are those
of the whole text.
-/

namespace PinFloor

/-- The fault that a refusal at a rest of `content` stands for. -/
def Scanner.Refusal.fault (content : List Char) : Scanner.Refusal → Fault
  | .malformed error rest => .malformed error (Position.ofRest content rest)
  | .unsupportedOption name rest => .unsupportedOption name (Position.ofRest content rest).line
  | .invalidRequirement rest => .invalidRequirement (Position.ofRest content rest).line

namespace Script

/-- A script with one more statement at its start. -/
def cons (first : PlacedStatement) (script : Script) : Script :=
  { script with statements := first :: script.statements }

/-- Reads the statements of the rest `cs` of `content`. -/
def readFrom (content cs : List Char) : Script :=
  let start := Scanner.skipTrivia cs
  match _h : Scanner.statement? start with
  | none => ⟨[], none⟩
  | some (.error refusal) => ⟨[], some (refusal.fault content)⟩
  | some (.ok (statement, rest)) =>
      cons ⟨(Position.ofRest content start).line, statement⟩ (readFrom content rest)
termination_by cs.length
decreasing_by
  exact Nat.lt_of_lt_of_le (Scanner.length_lt_of_statement? _h) (Scanner.length_skipTrivia_le cs)

/-- Reads a text. -/
def read (content : List Char) : Script :=
  readFrom content content

end Script

end PinFloor
