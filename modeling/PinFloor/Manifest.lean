import PinFloor.Environment
import PinFloor.RequirementsFile.Loader

/-!
# Manifests

The named requirements and constraints of all files that are given, with the includes followed.
-/

namespace PinFloor

/-- How a file given by the user is read. -/
inductive Role where
  /-- Named entries are requirements, unless they are reached through an include of constraints. -/
  | requirements
  /-- All named entries are constraints. -/
  | constraints
  deriving Repr, DecidableEq

/-- Requirements and constraints. -/
structure Manifest where
  /-- The requirements, in the order of the files. -/
  requirements : List Entry := []
  /-- The constraints, in the order of the files. -/
  constraints : List Entry := []
  deriving Repr, DecidableEq

namespace Entry

/-- The package that an entry is about. -/
def name (e : Entry) : PackageName :=
  e.requirement.name

/-- The specifiers of an entry, if it has any. -/
def specifiers? (e : Entry) : Option (List Specifier) :=
  e.requirement.source.specifiers?

/-- The floor that an entry sets. -/
def floor? (e : Entry) : Option Floor :=
  e.requirement.floor?

/-- The pin that an entry sets. -/
def pin (e : Entry) : Pin :=
  e.requirement.pin

/-- The text of the marker, unless the entry always applies. -/
def markerText? (e : Entry) : Option String :=
  e.requirement.marker.text?

/-- The name of an entry with its specifiers or URL. -/
def specification (e : Entry) : String :=
  match e.requirement.source with
  | .any => e.name.text
  | .specifiers list => e.name.text ++ Specifier.listText list
  | .url target => e.name.text ++ " @ " ++ target.text

/-- Whether an entry applies in an environment. -/
def isActive (environment : TargetEnvironment) (e : Entry) : Bool :=
  e.requirement.marker.holds environment.markers

end Entry

namespace Manifest

/-- A manifest without entries. -/
def empty : Manifest := {}

/-- Adds the content of a file in a role. -/
def add (m : Manifest) (role : Role) (file : RequirementsFile) : Manifest :=
  match role with
  | .requirements =>
      { requirements := m.requirements ++ file.requirements
        constraints := m.constraints ++ file.constraints }
  | .constraints =>
      { m with constraints := m.constraints ++ file.requirements ++ file.constraints }

/-- What is told when the content of a file is added: the entries that are not checked. -/
def addNotices (file : RequirementsFile) : List Notice :=
  file.editables.map (fun t => .skippingEditable t.target t.origin)
    ++ file.unnamed.map fun t => .skippingUnnamed t.target t.origin

/-- What is told before a file given by the user is read. -/
def readingNotice (role : Role) (path : Path) : Notice :=
  match role with
  | .requirements => .readingRequirements path
  | .constraints => .readingConstraints path

/-- Loads files and adds them in their roles, up to the first error. -/
def addFiles (fs : FileSystem) (m : Manifest) :
    List (Role × Path) → Told (Except LoadError Manifest)
  | [] => .silent (.ok m)
  | (role, path) :: rest =>
      ((RequirementsFile.load fs path).andThen fun file =>
        let next := addFiles fs (m.add role file) rest
        ⟨next.value, addNotices file ++ next.notices⟩).saying (readingNotice role path)

/-- The manifest of requirements files and constraints files. -/
def ofFiles (fs : FileSystem) (requirements constraints : List Path) :
    Told (Except LoadError Manifest) :=
  addFiles fs empty
    (requirements.map (.requirements, ·) ++ constraints.map (.constraints, ·))

/-- Whether a requirement names a package, in whatever environment. -/
def isRequired (m : Manifest) (name : PackageName) : Bool :=
  m.requirements.any (·.name == name)

/-- The entries that apply in an environment. -/
def active (m : Manifest) (environment : TargetEnvironment) : Manifest where
  requirements := m.requirements.filter (·.isActive environment)
  constraints := m.constraints.filter (·.isActive environment)

/-- The entries that apply where the variables of markers have some values. -/
def activeFor (m : Manifest) (markers : MarkerEnvironment) : Manifest where
  requirements := m.requirements.filter (·.requirement.marker.holds markers)
  constraints := m.constraints.filter (·.requirement.marker.holds markers)

/-- The entries that apply in an environment, if the variables of markers have values there. -/
def readActive (m : Manifest) (environment : TargetEnvironment) : Except MarkersError Manifest :=
  environment.readMarkers.map m.activeFor

/-- The packages that entries are about, in ascending order, each once. -/
def packages (m : Manifest) : List PackageName :=
  PackageName.sorted ((m.requirements ++ m.constraints).map Entry.name)

end Manifest

end PinFloor
