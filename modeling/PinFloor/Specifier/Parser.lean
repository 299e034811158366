import PinFloor.Specifier.Basic
import PinFloor.Version.Parser

/-!
# Reading specifiers

A specifier is an operator and a version, with blanks around each; a list of them is separated by
commas. Operators are read as the longest run of their characters.
-/

namespace PinFloor

namespace Operator

/-- A character of an operator's sign. -/
def isSignChar (c : Char) : Bool :=
  c = '=' || c = '!' || c = '~' || c = '<' || c = '>'

/-- The operator with a sign. -/
def ofSign? (sign : List Char) : Option Operator :=
  [equal, identical, notEqual, compatible, less, atMost, greater, atLeast].find?
    fun operator => operator.sign.toList == sign

end Operator

namespace Specifier

/-- A specifier for a version that `.*` may follow. -/
def ofPattern? (operator : Operator) (pattern : VersionPattern) : Option Specifier :=
  if pattern.wildcard then operator.wildcard?.bind (make? · pattern.version)
  else make? operator pattern.version

/-- Reads one specifier. -/
def parse? (cs : List Char) : Option Specifier := do
  let cs := trimStart cs
  let operator ← Operator.ofSign? (cs.takeWhile Operator.isSignChar)
  let cs := trimStart (cs.dropWhile Operator.isSignChar)
  let word := cs.takeWhile (!isBlank ·)
  if !(cs.dropWhile (!isBlank ·)).all isBlank then none
  else ofPattern? operator (← Version.pattern? word)

/-- Reads specifiers separated by commas, and sorts them. -/
def parseList? (cs : List Char) : Option (List Specifier) :=
  ((cs.splitOn ',').mapM parse?).map sorted

end Specifier

end PinFloor
