import PinFloor.Marker.Basic
import PinFloor.Specifier.Parser

/-!
# Comparisons in markers

A comparison relates a variable to a quoted text, in either order. Versions are compared by their
release numbers alone, so that a comparison and its negation leave no version out. A comparison
without a sound meaning is dropped: it takes no part in the marker.
-/

namespace PinFloor

/-- One side of a comparison. -/
inductive Operand where
  /-- A variable whose values are versions. -/
  | version (key : VersionVariable)
  /-- A variable whose values are texts. -/
  | text (key : TextVariable)
  /-- The variable `extra`. -/
  | extra
  /-- A quoted text. -/
  | quoted (value : List Char)
  deriving Repr, DecidableEq

/-- How the two sides of a comparison are related. -/
inductive Relation where
  /-- By the order of versions or texts. -/
  | compare (operator : Operator)
  /-- The left side is one of the right side's versions, or a part of its text. -/
  | isIn
  /-- The negation of `isIn`. -/
  | isNotIn
  deriving Repr, DecidableEq

/-- The operator that relates the two sides when they are exchanged. -/
def Operator.mirrored : Operator → Operator
  | less => greater
  | greater => less
  | atMost => atLeast
  | atLeast => atMost
  | operator => operator

namespace Marker

/-- Release numbers without the zeros at the end; those that are all zero are left as they are. -/
def trimRelease (release : List Nat) : List Nat :=
  match trimZeros release with
  | [] => release
  | trimmed => trimmed

/-- The release numbers with one added to the last. -/
def nextRelease (release : List Nat) : List Nat :=
  match release.getLast? with
  | none => []
  | some last => release.dropLast ++ [last + 1]

/-- The marker of a comparison on a line of values. `upper` gives the end of the values that a
    `~=` or `.*` comparison starts from. -/
def onLine {α : Type} (question : Cut α → Question) (upper : α → α) (value : α) :
    Operator → Marker
  | .equal | .identical => point question value
  | .notEqual => (point question value).not
  | .less => between question none (some (.before value))
  | .atMost => between question none (some (.after value))
  | .greater => between question (some (.after value)) none
  | .atLeast => between question (some (.before value)) none
  | .matching | .compatible =>
      between question (some (.before value)) (some (.before (upper value)))
  | .notMatching =>
      (between question (some (.before value)) (some (.before (upper value)))).not

/-- The marker of a version comparison. Trailing zeros count only before `.*`. -/
def ofRelease (key : VersionVariable) (operator : Operator) (release : List Nat) : Marker :=
  let value := if operator.isWildcard then release else trimRelease release
  let upper := fun numbers : List Nat =>
    if operator.isWildcard then nextRelease numbers else nextRelease numbers.dropLast
  onLine (Question.version key) upper value operator

/-- The marker of a comparison of `python_version`, which has two release numbers, as one of
    `python_full_version`. A single number stands for itself and a zero, except before `.*`. A
    comparison with more than two numbers never finds them equal. -/
def ofPythonVersion (operator : Operator) : List Nat → Marker
  | major :: minor :: _ :: _ =>
      match operator with
      | .equal | .identical | .matching | .compatible => leaf false
      | .notEqual | .notMatching => leaf true
      | .less | .atMost => ofRelease .pythonFullVersion .less [major, minor + 1]
      | .greater | .atLeast => ofRelease .pythonFullVersion .atLeast [major, minor + 1]
  | [major, minor] => ofPair [major, minor] major minor
  | [major] => ofPair [major] major 0
  | [] => leaf false
where
  /-- The comparison with two release numbers, of which the second need not be `given`. -/
  ofPair (given : List Nat) (major minor : Nat) : Marker :=
    match operator with
    | .equal => ofRelease .pythonFullVersion .matching [major, minor]
    | .notEqual => ofRelease .pythonFullVersion .notMatching [major, minor]
    | .greater => ofRelease .pythonFullVersion .atLeast [major, minor + 1]
    | .atMost => ofRelease .pythonFullVersion .less [major, minor + 1]
    | _ => ofRelease .pythonFullVersion operator given

/-- The marker of a comparison with a version. -/
def ofVersion (key : VersionVariable) (operator : Operator) (version : Version) : Marker :=
  match key with
  | .pythonVersion =>
      ofPythonVersion operator
        (if operator.isWildcard then version.release else trimRelease version.release)
  | _ => ofRelease key operator version.release

/-- The marker that holds if the variable is one of some versions. If `python_version` is compared
    with more than two release numbers, the whole comparison is false, negated or not. -/
def ofVersions (key : VersionVariable) (negated : Bool) (versions : List Version) : Marker :=
  let one := fun version : Version =>
    match key with
    | .pythonVersion => ofPythonVersion .equal version.release
    | _ => ofRelease key .equal version.release
  if key = .pythonVersion ∧ versions.any (·.release.length > 2) then leaf false
  else
    let union := versions.foldl (fun marker version => marker.or (one version)) (leaf false)
    if negated then union.not else union

/-- The marker of a comparison of texts. They have no `~=`. -/
def ofText? (key : TextVariable) (operator : Operator) (value : String) : Option Marker :=
  if operator = .compatible then none
  else some (onLine (Question.text key) id value operator)

/-- The marker of a comparison with `extra`. What is no package name is never an extra. -/
def ofExtra? (relation : Relation) (value : String) : Option Marker :=
  let is := match PackageName.parse value with
    | .ok name => some (ofQuestion (.extra name))
    | .error _ => none
  match relation with
  | .compare .equal => some (is.getD (leaf false))
  | .compare .notEqual => some ((is.map not).getD (leaf false))
  | _ => none

/-- The marker of a comparison, if it has a sound meaning. -/
def ofComparison? : Operand → Relation → Operand → Option Marker
  | .version key, .compare operator, .quoted value => do
      let specifier ← Specifier.ofPattern? operator (← Version.pattern? value)
      some (ofVersion key specifier.operator specifier.version)
  | .version key, .isIn, .quoted value =>
      ((words value).mapM Version.parse?).map (ofVersions key false)
  | .version key, .isNotIn, .quoted value =>
      ((words value).mapM Version.parse?).map (ofVersions key true)
  | .quoted value, .compare operator, .version key => do
      let specifier ← Specifier.make? operator.mirrored (← Version.parse? value)
      some (ofVersion key specifier.operator specifier.version)
  | .text key, .compare operator, .quoted value => ofText? key operator (String.ofList value)
  | .text key, .isIn, .quoted value => some (ofQuestion (.within key (String.ofList value)))
  | .text key, .isNotIn, .quoted value =>
      some (ofQuestion (.within key (String.ofList value))).not
  | .quoted value, .compare operator, .text key =>
      ofText? key operator.mirrored (String.ofList value)
  | .quoted value, .isIn, .text key => some (ofQuestion (.holding key (String.ofList value)))
  | .quoted value, .isNotIn, .text key =>
      some (ofQuestion (.holding key (String.ofList value))).not
  | .extra, relation, .quoted value => ofExtra? relation (String.ofList value)
  | .quoted value, relation, .extra => ofExtra? relation (String.ofList value)
  | _, _, _ => none

end Marker

end PinFloor
