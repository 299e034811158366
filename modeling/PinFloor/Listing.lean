import PinFloor.Manifest

/-!
# Listings

What requirements files hold for one environment: the named entries that apply in it, and the
entries without a name and the options whatever the environment.
-/

namespace PinFloor

/-- The content of requirements files in an environment. -/
structure Listing where
  environment : TargetEnvironment
  /-- What applies in it. -/
  content : RequirementsFile
  deriving Repr, DecidableEq

namespace RequirementsFile

/-- The content with those of the named entries that apply in an environment. -/
def activeIn (f : RequirementsFile) (environment : TargetEnvironment) : RequirementsFile :=
  { f with
    requirements := f.requirements.filter (·.isActive environment)
    constraints := f.constraints.filter (·.isActive environment) }

/-- Loads files one after the other after some content, up to the first error. -/
def loadAll (fs : FileSystem) (start : RequirementsFile) : List Path → Loading
  | [] => .silent (.ok start)
  | path :: rest =>
      (load fs path).andThen fun file =>
        let next := loadAll fs (start.merge file) rest
        ⟨next.value, Manifest.addNotices file ++ next.notices⟩

end RequirementsFile

namespace Listing

/-- The listing of files in an environment. -/
def ofFiles (fs : FileSystem) (files : List Path) (environment : TargetEnvironment) :
    Told (Except LoadError Listing) :=
  (RequirementsFile.loadAll fs .empty files).map
    (·.map fun content => ⟨environment, content.activeIn environment⟩)

/-- The listing, if the variables of markers have values in its environment. -/
def confirmed (listing : Listing) : Except MarkersError Listing :=
  listing.environment.readMarkers.map fun _ => listing

end Listing

end PinFloor
