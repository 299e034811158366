import PinFloor.Environment
import PinFloor.PackageName
import PinFloor.Path
import PinFloor.Rule

/-!
# Reports

A finding says that a rule is broken for a package. A diagnostic is a finding with its severity and
the environments in which it was made. A report lists diagnostics from the most severe on.
-/

namespace PinFloor

/-- What a rule finds for a package in an environment. -/
structure Finding where
  rule : Rule
  package : PackageName
  /-- What is said about it. -/
  message : String
  /-- The requirement that the finding is about, if it is about one. -/
  requirement : Option Origin
  /-- The constraints involved, in file order. -/
  constraints : List Origin
  deriving Repr, DecidableEq

/-- A finding with its severity and environments. -/
structure Diagnostic where
  finding : Finding
  /-- How severely it is taken. -/
  severity : Severity
  /-- The environments in which it was made. -/
  environments : List TargetEnvironment
  deriving Repr, DecidableEq

/-- The outcome of a check. -/
structure Report where
  /-- The diagnostics, in their order. -/
  diagnostics : List Diagnostic
  /-- The environments of the check. -/
  environments : List TargetEnvironment
  /-- The number of requirements. -/
  requirements : Nat
  /-- The number of constraints. -/
  constraints : Nat
  /-- Whether warnings make the check fail. -/
  strict : Bool
  deriving Repr, DecidableEq

/-- Whether two lists agree place by place. -/
def sameList {α : Type} (same : α → α → Bool) : List α → List α → Bool
  | [], [] => true
  | a :: as, b :: bs => same a b && sameList same as bs
  | _, _ => false

namespace Finding

/-- Whether two findings are one, with their origins compared as places. -/
def same (a b : Finding) : Bool :=
  a.rule == b.rule && a.package == b.package && a.message == b.message
    && sameList Origin.same a.requirement.toList b.requirement.toList
    && sameList Origin.same a.constraints b.constraints

/-- The first place that a finding points at. -/
def origin? (f : Finding) : Option Origin :=
  f.requirement.or f.constraints.head?

end Finding

namespace Diagnostic

/-- The order of origins that may be missing; a missing one comes first. -/
def compareOrigins : Option Origin → Option Origin → Ordering
  | none, none => .eq
  | none, some _ => .lt
  | some _, none => .gt
  | some a, some b => a.compare b

/-- The order of diagnostics: the most severe first, then by package, rule, origin and message. -/
def compare (a b : Diagnostic) : Ordering :=
  (Ord.compare b.severity.rank a.severity.rank)
    |>.then (Ord.compare a.finding.package.text b.finding.package.text)
    |>.then (Ord.compare a.finding.rule.rank b.finding.rule.rank)
    |>.then (compareOrigins a.finding.origin? b.finding.origin?)
    |>.then (Ord.compare a.finding.message b.finding.message)

/-- Whether one diagnostic may stand before another. -/
def le (a b : Diagnostic) : Bool :=
  a.compare b != .gt

/-- A diagnostic whose finding is made in an environment more. -/
def alsoIn (d : Diagnostic) (environment : TargetEnvironment) : Diagnostic :=
  { d with environments := d.environments ++ [environment] }

section

variable (d : Diagnostic) (environment : TargetEnvironment)

@[simp] theorem alsoIn_finding : (d.alsoIn environment).finding = d.finding := rfl

@[simp] theorem alsoIn_severity : (d.alsoIn environment).severity = d.severity := rfl

@[simp] theorem alsoIn_environments :
    (d.alsoIn environment).environments = d.environments ++ [environment] := rfl

end

end Diagnostic

namespace Report

/-- The number of errors. -/
def errors (r : Report) : Nat :=
  r.diagnostics.countP (·.severity = .error)

/-- The number of warnings. -/
def warnings (r : Report) : Nat :=
  r.diagnostics.countP (·.severity = .warning)

/-- Whether the check passes: without errors and, if it is strict, without warnings. -/
def isSuccess (r : Report) : Bool :=
  r.errors = 0 && !(r.strict && 0 < r.warnings)

end Report

end PinFloor
