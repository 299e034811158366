import PinFloor.Specifier.Basic

/-!
# Floors and pins

The floor of a list of specifiers is the strongest of their lower bounds. A pin is the version that
a single `==`, `===` or `>=` specifier fixes.
-/

namespace PinFloor

/-- A lower bound on versions. -/
structure Floor where
  /-- The version at the bound. -/
  version : Version
  /-- Whether that version is admitted. -/
  inclusive : Bool
  deriving Repr, DecidableEq

namespace Floor

/-- The lower bound that a specifier sets, if any. -/
def ofSpecifier? (s : Specifier) : Option Floor :=
  match s.operator with
  | .atLeast | .equal | .identical | .compatible | .matching => some ⟨s.version, true⟩
  | .greater => some ⟨s.version, false⟩
  | .less | .atMost | .notEqual | .notMatching => none

/-- Whether `a` is a weaker bound than `b` or as strong. Of two bounds at one version the exclusive
    one is the stronger. -/
def weakerOrEqual (a b : Floor) : Bool :=
  a.version.before b.version || (a.version.same b.version && (a.inclusive || !b.inclusive))

/-- The stronger of two bounds, and of two equally strong ones the second. -/
def stronger (a b : Floor) : Floor :=
  if a.weakerOrEqual b then b else a

/-- The strongest of some bounds. -/
def strongest? : List Floor → Option Floor
  | [] => none
  | first :: rest => some (rest.foldl stronger first)

/-- The floor of a list of specifiers, if any of them sets a lower bound. -/
def ofSpecifiers? (specifiers : List Specifier) : Option Floor :=
  strongest? (specifiers.filterMap ofSpecifier?)

/-- Whether a version is at or above the floor. -/
def admits (floor : Floor) (v : Version) : Bool :=
  if floor.inclusive then floor.version.atMost v else floor.version.before v

/-- How a floor is written. -/
def text (floor : Floor) : String :=
  (if floor.inclusive then ">=" else ">") ++ floor.version.text

end Floor

/-- The version that a constraint fixes. -/
inductive Pin where
  /-- A single `==` or `===` specifier. -/
  | exact (version : Version)
  /-- A single `>=` specifier. -/
  | minimum (version : Version)
  /-- Anything else. -/
  | unpinned
  deriving Repr, DecidableEq

namespace Pin

/-- The pin of a list of specifiers. -/
def ofSpecifiers : List Specifier → Pin
  | [⟨.equal, version⟩] => exact version
  | [⟨.identical, version⟩] => exact version
  | [⟨.atLeast, version⟩] => minimum version
  | _ => unpinned

/-- The version of a pin, if it has one. -/
def version? : Pin → Option Version
  | exact version => some version
  | minimum version => some version
  | unpinned => none

/-- Whether this pins a version. -/
def isPinned (pin : Pin) : Bool :=
  pin.version?.isSome

/-- Whether two pins are of one kind and of one version. -/
def same : Pin → Pin → Bool
  | exact a, exact b => a.same b
  | minimum a, minimum b => a.same b
  | unpinned, unpinned => true
  | _, _ => false

/-- How a pin is written. -/
def text : Pin → String
  | exact version => "==" ++ version.text
  | minimum version => ">=" ++ version.text
  | unpinned => "(unpinned)"

end Pin

end PinFloor
