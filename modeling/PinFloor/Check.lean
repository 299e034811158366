import PinFloor.Manifest
import PinFloor.Report

/-!
# Checking constraints against requirements

In each environment the entries that apply are brought together by package, and each package is
checked on its own. Findings that are made in several environments are reported once.
-/

namespace PinFloor

/-- What decides the outcome of a check. -/
structure CheckSettings where
  /-- The environments. -/
  matrix : Matrix
  /-- The severity of each rule. -/
  severities : Severities
  /-- Packages that are not checked. -/
  ignore : List PackageName
  /-- Whether warnings make the check fail. -/
  strict : Bool

namespace Pin

/-- The pins of a list, each once. -/
def distinct : List Pin → List Pin
  | [] => []
  | pin :: rest => pin :: (distinct rest).filter (!pin.same ·)

/-- The distinct pins of some constraints that pin a version. -/
def ofConstraints (constraints : List Entry) : List Pin :=
  distinct ((constraints.map Entry.pin).filter isPinned)

end Pin

/-- Diagnostics in the order in which they are first found, with an index of the findings that were
    made. -/
structure Findings where
  diagnostics : List Diagnostic
  /-- The findings that were made, each with the place of its diagnostic. -/
  index : List (Finding × Nat)
  /-- There is a diagnostic at each place. -/
  bounded : ∀ known ∈ index, known.2 < diagnostics.length

namespace Findings

/-- Nothing is found yet. -/
def empty : Findings := ⟨[], [], nofun⟩

/-- The place of the diagnostic of a finding, if it was made before. -/
def place? (fs : Findings) (finding : Finding) : Option Nat :=
  (fs.index.find? (·.1.same finding)).map (·.2)

theorem place_lt {fs : Findings} {finding : Finding} {place : Nat}
    (known : fs.place? finding = some place) : place < fs.diagnostics.length := by
  obtain ⟨entry, found, rfl⟩ := Option.map_eq_some_iff.mp known
  exact fs.bounded entry (List.mem_of_find?_eq_some found)

/-- Adds a finding made in an environment: to the diagnostic of the same finding, if there is one,
    else at the end. -/
def add (fs : Findings) (environment : TargetEnvironment) (severity : Severity)
    (finding : Finding) : Findings :=
  match known : fs.place? finding with
  | some place =>
      have inside := place_lt known
      { fs with
        diagnostics := fs.diagnostics.set place (fs.diagnostics[place].alsoIn environment)
        bounded := by simpa using fs.bounded }
  | none =>
      { diagnostics := fs.diagnostics ++ [⟨finding, severity, [environment]⟩]
        index := (finding, fs.diagnostics.length) :: fs.index
        bounded := by
          intro entry member
          rw [List.length_append]
          rcases List.mem_cons.mp member with rfl | member
          · exact Nat.lt_succ_self _
          · exact Nat.lt_succ_of_lt (fs.bounded entry member) }

end Findings

namespace Check

/-- A text between backquotes. -/
def quoted (s : String) : String :=
  "`" ++ s ++ "`"

/-- A constraint pins no version. -/
def unpinned (constraint : Entry) : Finding where
  rule := .unpinnedConstraint
  package := constraint.name
  message := quoted constraint.specification ++ " does not pin a version with `==` or `>=`"
  requirement := none
  constraints := [constraint.origin]

/-- A constraint is for a package that no requirement names. -/
def unused (constraint : Entry) : Finding where
  rule := .unusedPin
  package := constraint.name
  message := quoted constraint.name.text ++ " is constrained, but no requirements file names it"
  requirement := none
  constraints := [constraint.origin]

/-- A requirement with this floor has no constraint. -/
def missing (requirement : Entry) (floor : Floor) : Finding where
  rule := .missingPin
  package := requirement.name
  message := quoted requirement.name.text ++ " has floor " ++ quoted floor.text ++ " in "
    ++ quoted requirement.specification ++ ", but no constraint pins it"
  requirement := some requirement.origin
  constraints := []

/-- Constraints pin a package to these versions, which are more than one. -/
def conflicting (name : PackageName) (constraints : List Entry) (pins : List Pin) : Finding where
  rule := .conflictingPins
  package := name
  message := quoted name.text ++ " is pinned to more than one version: "
    ++ String.intercalate ", " (pins.map fun pin => quoted pin.text)
  requirement := none
  constraints := (constraints.filter (·.pin.isPinned)).map Entry.origin

/-- The pin lies below the floor of a requirement. -/
def below (pinned : List Entry) (pin : Pin) (requirement : Entry) (floor : Floor) : Finding where
  rule := .belowFloor
  package := requirement.name
  message := quoted (requirement.name.text ++ pin.text) ++ " is below the minimum version "
    ++ quoted floor.text ++ " of " ++ quoted requirement.specification
  requirement := some requirement.origin
  constraints := pinned.map Entry.origin

/-- The pin is not allowed by a requirement. -/
def excluded (pinned : List Entry) (pin : Pin) (requirement : Entry) : Finding where
  rule := .excludedPin
  package := requirement.name
  message := quoted (requirement.name.text ++ pin.text) ++ " is not allowed by "
    ++ quoted requirement.specification
  requirement := some requirement.origin
  constraints := pinned.map Entry.origin

/-- What is found about a constraint alone. -/
def ofConstraint (required : Bool) (constraint : Entry) : List Finding :=
  (if constraint.pin.isPinned then [] else [unpinned constraint])
    ++ (if required then [] else [unused constraint])

/-- What is found about a requirement without constraints. -/
def ofUnconstrained (requirement : Entry) : Option Finding :=
  requirement.floor?.map (missing requirement)

/-- What is found about a requirement of a package with one pin. Its floor is looked at first; the
    rest of its specifiers matters only for an exact pin. -/
def ofPinned (pinned : List Entry) (pin : Pin) (version : Version) (requirement : Entry) :
    Option Finding :=
  match requirement.floor?.filter (!·.admits version) with
  | some floor => some (below pinned pin requirement floor)
  | none =>
      match pin, requirement.specifiers? with
      | .exact version, some specifiers =>
          if Specifier.allAllow specifiers version then none
          else some (excluded pinned pin requirement)
      | _, _ => none

/-- What is found about the requirements and constraints of a package together. -/
def ofBoth (name : PackageName) (requirements constraints : List Entry) : List Finding :=
  match Pin.ofConstraints constraints with
  | [] => []
  | [pin] =>
      match pin.version? with
      | none => []
      | some version =>
          requirements.filterMap
            (ofPinned (constraints.filter (·.pin.same pin)) pin version)
  | pins => [conflicting name constraints pins]

/-- What is found about a package, given its requirements and constraints that apply. -/
def ofPackage (required : Bool) (name : PackageName) (requirements constraints : List Entry) :
    List Finding :=
  constraints.flatMap (ofConstraint required)
    ++ (if requirements.isEmpty then []
        else if constraints.isEmpty then requirements.filterMap ofUnconstrained
        else ofBoth name requirements constraints)

/-- The findings among the entries that apply, by package. -/
def ofActive (settings : CheckSettings) (m active : Manifest) : List Finding :=
  active.packages.flatMap fun name =>
    if settings.ignore.contains name then []
    else
      (ofPackage (m.isRequired name) name (active.requirements.filter (·.name == name))
        (active.constraints.filter (·.name == name))).filter
          fun finding => settings.severities.isEnabled finding.rule

/-- The findings in an environment. -/
def ofEnvironment (settings : CheckSettings) (m : Manifest) (environment : TargetEnvironment) :
    List Finding :=
  ofActive settings m (m.active environment)

/-- Adds what is found in an environment to what was found before. -/
def addFound (settings : CheckSettings) (environment : TargetEnvironment) (fs : Findings)
    (found : List Finding) : Findings :=
  found.foldl
    (fun fs finding => fs.add environment (settings.severities.get finding.rule) finding) fs

/-- Adds the findings in an environment to those made before. -/
def addEnvironment (settings : CheckSettings) (m : Manifest) (fs : Findings)
    (environment : TargetEnvironment) : Findings :=
  addFound settings environment fs (ofEnvironment settings m environment)

/-- The findings in all environments. -/
def findings (settings : CheckSettings) (m : Manifest) : Findings :=
  settings.matrix.environments.foldl (addEnvironment settings m) .empty

/-- The diagnostics of a check, in the order in which they are first found. -/
def diagnostics (settings : CheckSettings) (m : Manifest) : List Diagnostic :=
  (findings settings m).diagnostics

/-- The report of a check in which some diagnostics are made. -/
def reportOf (settings : CheckSettings) (m : Manifest) (diagnostics : List Diagnostic) :
    Report where
  diagnostics := diagnostics.mergeSort Diagnostic.le
  environments := settings.matrix.environments
  requirements := m.requirements.length
  constraints := m.constraints.length
  strict := settings.strict

/-- The report of a check. -/
def run (settings : CheckSettings) (m : Manifest) : Report :=
  reportOf settings m (diagnostics settings m)

/-- Adds the findings in an environment, if the variables of markers have values there. -/
def tryEnvironment (settings : CheckSettings) (m : Manifest) (fs : Findings)
    (environment : TargetEnvironment) : Except MarkersError Findings :=
  (m.readActive environment).map fun active =>
    addFound settings environment fs (ofActive settings m active)

/-- The report of a check that ends at the first environment where the variables of markers have no
    values. -/
def attempt (settings : CheckSettings) (m : Manifest) : Except MarkersError Report :=
  (settings.matrix.environments.foldlM (tryEnvironment settings m) .empty).map fun found =>
    reportOf settings m found.diagnostics

/-- What is told during a check. -/
def notices (settings : CheckSettings) (m : Manifest) : List Notice :=
  settings.matrix.environments.flatMap fun environment =>
    let active := m.active environment
    .active environment.text active.requirements.length active.constraints.length
      :: (active.packages.filter settings.ignore.contains).map (.ignored environment.text ·)

end Check

end PinFloor
