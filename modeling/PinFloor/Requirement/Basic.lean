import PinFloor.Bound
import PinFloor.Marker.Canonical
import PinFloor.Url

/-!
# Requirements

A requirement names a package, says which of its extras and versions are wanted, or where it is
fetched from, and in which environments it applies.
-/

namespace PinFloor

/-- Where the versions of a package come from. -/
inductive Source where
  /-- Any version. -/
  | any
  /-- The versions that a list of specifiers allows. -/
  | specifiers (list : List Specifier)
  /-- The one found at a URL. -/
  | url (target : Url)
  deriving Repr, DecidableEq

/-- A named requirement. -/
structure Requirement where
  /-- The package. -/
  name : PackageName
  /-- The wanted extras, in the order given. -/
  extras : List PackageName
  /-- The wanted versions. -/
  source : Source
  /-- The environments in which the requirement applies. -/
  marker : Marker
  deriving Repr, DecidableEq

namespace Source

/-- The specifiers, if versions are chosen by specifiers. -/
def specifiers? : Source → Option (List Specifier)
  | specifiers list => some list
  | _ => none

/-- How a source is written after the name and the extras. -/
def text : Source → String
  | any => ""
  | specifiers list => String.intercalate "," (list.map Specifier.text)
  | url target => " @ " ++ target.text

end Source

namespace Requirement

/-- The floor that a requirement sets. A URL and a bare name set none. -/
def floor? (r : Requirement) : Option Floor :=
  r.source.specifiers?.bind Floor.ofSpecifiers?

/-- The pin that a requirement sets. -/
def pin (r : Requirement) : Pin :=
  match r.source with
  | .specifiers list => Pin.ofSpecifiers list
  | _ => .unpinned

/-- The text of a requirement before its marker. -/
def coreText (r : Requirement) : String :=
  r.name.text
    ++ (if r.extras.isEmpty then ""
        else "[" ++ String.intercalate "," (r.extras.map PackageName.text) ++ "]")
    ++ r.source.text

/-- How a requirement is written. -/
def text (r : Requirement) : String :=
  match r.marker.text? with
  | none => r.coreText
  | some marker => r.coreText ++ " ; " ++ marker

end Requirement

end PinFloor
