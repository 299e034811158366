/-!
# Rules

The rules that tie constraints to requirements, and how severely the findings of each are taken.
-/

namespace PinFloor

inductive Rule where
  /-- A pin is lower than the floor of a requirement. -/
  | belowFloor
  /-- An exact pin is not allowed by a requirement. -/
  | excludedPin
  /-- A requirement with a floor has no constraint. -/
  | missingPin
  /-- A package is pinned to more than one version. -/
  | conflictingPins
  /-- A constraint pins no version. -/
  | unpinnedConstraint
  /-- A package is constrained that no requirement names. -/
  | unusedPin
  deriving Repr, DecidableEq

/-- How severely findings are taken. -/
inductive Severity where
  /-- There are none. -/
  | ignore
  /-- They are reported. -/
  | warning
  /-- They make the check fail. -/
  | error
  deriving Repr, DecidableEq

/-- The severity of each rule. -/
structure Severities where
  /-- The severity of a rule. -/
  get : Rule → Severity

namespace Severity

/-- All severities, from the least on. -/
def all : List Severity := [ignore, warning, error]

/-- How a severity is written. -/
def text : Severity → String
  | ignore => "ignore"
  | warning => "warning"
  | error => "error"

/-- The rank of a severity. -/
def rank : Severity → Nat
  | ignore => 0
  | warning => 1
  | error => 2

/-- The severity that is taken where none is said. -/
def standard : Severity := warning

end Severity

namespace Rule

/-- All rules, in their order. -/
def all : List Rule :=
  [belowFloor, excludedPin, missingPin, conflictingPins, unpinnedConstraint, unusedPin]

/-- The name of a rule. -/
def code : Rule → String
  | belowFloor => "below-floor"
  | excludedPin => "excluded-pin"
  | missingPin => "missing-pin"
  | conflictingPins => "conflicting-pins"
  | unpinnedConstraint => "unpinned-constraint"
  | unusedPin => "unused-pin"

/-- The place of a rule in the order. -/
def rank (rule : Rule) : Nat :=
  all.idxOf rule

/-- The severity of a rule that is not set. -/
def standardSeverity : Rule → Severity
  | belowFloor | excludedPin | conflictingPins => .error
  | missingPin | unpinnedConstraint => .warning
  | unusedPin => .ignore

/-- The rule with a name. -/
def ofCode? (code : String) : Option Rule :=
  all.find? (·.code == code)

/-- What is said about a name that no rule has. -/
def unknownMessage (code : String) : String :=
  "Unknown rule `" ++ code ++ "`"

end Rule

namespace Severities

/-- The severities that are taken where none are set. -/
def standard : Severities := ⟨Rule.standardSeverity⟩

/-- The table with the severity of one rule changed. -/
def set (table : Severities) (rule : Rule) (severity : Severity) : Severities :=
  ⟨fun r => if r = rule then severity else table.get r⟩

/-- Whether a rule has findings. -/
def isEnabled (table : Severities) (rule : Rule) : Bool :=
  table.get rule ≠ .ignore

end Severities

end PinFloor
