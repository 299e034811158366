/-!
# Decimal numbers

Writing natural numbers in base ten, and reading those that fit a machine word.
-/

namespace PinFloor.Decimal

/-- The decimal digits of a number, without leading zeros. -/
def digits (n : Nat) : List Char :=
  if n < 10 then [Nat.digitChar n] else digits (n / 10) ++ [Nat.digitChar (n % 10)]
termination_by n
decreasing_by omega

/-- A number in decimal notation. -/
def text (n : Nat) : String :=
  String.ofList (digits n)

def digitValue (c : Char) : Nat :=
  c.toNat - '0'.toNat

/-- The number that a run of digits denotes. -/
def value (cs : List Char) : Nat :=
  cs.foldl (fun n c => n * 10 + digitValue c) 0

/-- Reads a number: one ASCII digit or more, and nothing else. -/
def read? (cs : List Char) : Option Nat :=
  if cs.isEmpty || !cs.all Char.isDigit then none else some (value cs)

/-- The number of values of a machine word. -/
def wordSize : Nat := UInt64.size

/-- Reads a number that fits a machine word. -/
def word? (cs : List Char) : Option Nat :=
  (read? cs).filter (· < wordSize)

/-- Reads a number that fits a machine word; one plus sign may stand before it. -/
def signedWord? : List Char → Option Nat
  | '+' :: rest => word? rest
  | cs => word? cs

end PinFloor.Decimal
