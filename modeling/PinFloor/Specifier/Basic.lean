import PinFloor.Version.Basic

/-!
# Version specifiers

A specifier is an operator and a version, and allows some versions. A list of specifiers allows
what each of them allows.
-/

namespace PinFloor

/-- How a specifier compares. -/
inductive Operator where
  /-- `==` -/
  | equal
  /-- `== V.*` -/
  | matching
  /-- `===`, a comparison of texts -/
  | identical
  /-- `!=` -/
  | notEqual
  /-- `!= V.*` -/
  | notMatching
  /-- `~=` -/
  | compatible
  /-- `<` -/
  | less
  /-- `<=` -/
  | atMost
  /-- `>` -/
  | greater
  /-- `>=` -/
  | atLeast
  deriving Repr, DecidableEq

/-- An operator and the version it compares with. -/
structure Specifier where
  /-- How versions are compared. -/
  operator : Operator
  /-- What they are compared with. -/
  version : Version
  deriving Repr, DecidableEq

namespace Operator

/-- The sign of an operator, without the `.*` that follows the version. -/
def sign : Operator → String
  | equal => "=="
  | matching => "=="
  | identical => "==="
  | notEqual => "!="
  | notMatching => "!="
  | compatible => "~="
  | less => "<"
  | atMost => "<="
  | greater => ">"
  | atLeast => ">="

/-- Whether the version is followed by `.*`. -/
def isWildcard : Operator → Bool
  | matching => true
  | notMatching => true
  | _ => false

/-- The operator that takes a version followed by `.*`. -/
def wildcard? : Operator → Option Operator
  | equal => some matching
  | notEqual => some notMatching
  | _ => none

/-- Whether the version may have a local label. -/
def takesLabel : Operator → Bool
  | equal => true
  | notEqual => true
  | identical => true
  | _ => false

/-- The operator that allows what this one refuses, if there is one. -/
def complement? : Operator → Option Operator
  | equal => some notEqual
  | notEqual => some equal
  | matching => some notMatching
  | notMatching => some matching
  | less => some atLeast
  | atLeast => some less
  | greater => some atMost
  | atMost => some greater
  | compatible => none
  | identical => none

end Operator

/-- Whether two releases agree as far as both go. -/
def agree (a b : List Nat) : Bool :=
  (a.zip b).all fun (x, y) => x == y

namespace Specifier

/-- A specifier for this operator and version, if the operator takes the version. -/
def make? (operator : Operator) (version : Version) : Option Specifier :=
  if !version.label.isEmpty && !operator.takesLabel then none
  else if operator = .compatible ∧ version.release.length < 2 then none
  else some ⟨operator, version⟩

/-- The canonical text of a specifier. -/
def text (s : Specifier) : String :=
  s.operator.sign ++ s.version.text ++ (if s.operator.isWildcard then ".*" else "")

/-- Whether `v` lies above `bound`. A post-release or a locally labelled version of the bound's own
    release does not, unless the bound is a post-release itself. -/
def isAbove (bound v : Version) : Bool :=
  if bound.epoch < v.epoch then true
  else if bound.sameRelease v && ((bound.post.isNone && v.post.isSome) || !v.label.isEmpty) then
    false
  else bound.before v

/-- Whether `v` lies below `bound`. A pre-release of the bound's own release does not, unless the
    bound is an early release itself. -/
def isBelow (bound v : Version) : Bool :=
  if v.epoch < bound.epoch then true
  else if !bound.isEarly && v.pre.isSome && bound.sameRelease v then false
  else v.before bound

/-- Whether `v` has the bound's epoch and starts with its release numbers, as far as both go. -/
def startsWith (bound v : Version) : Bool :=
  bound.epoch == v.epoch && agree bound.release v.release

/-- Whether a specifier allows a version. The version's local label counts only if the specifier
    has one, or compares texts. -/
def allows (s : Specifier) (candidate : Version) : Bool :=
  let bound := s.version
  let v := if bound.label.isEmpty then candidate.withoutLabel else candidate
  match s.operator with
  | .equal => v.same bound
  | .notEqual => !v.same bound
  | .identical => bound.text == candidate.text
  | .matching => startsWith bound v
  | .notMatching => !startsWith bound v
  | .compatible =>
      bound.epoch == v.epoch && agree bound.release.dropLast v.release && bound.atMost v
  | .greater => isAbove bound v
  | .atLeast => isAbove bound v || bound.atMost v
  | .less => isBelow bound v && !(bound.sameRelease v && v.isEarly)
  | .atMost => isBelow bound v || v.atMost bound

/-- Whether each specifier of a list allows a version. -/
def allAllow (specifiers : List Specifier) (v : Version) : Bool :=
  specifiers.all (·.allows v)

/-- Specifiers in the order of their versions; those of one version keep their order. -/
def sorted (specifiers : List Specifier) : List Specifier :=
  specifiers.mergeSort fun a b => a.version.atMost b.version

/-- The text of a list of specifiers. -/
def listText (specifiers : List Specifier) : String :=
  String.intercalate ", " (specifiers.map text)

end Specifier

end PinFloor
