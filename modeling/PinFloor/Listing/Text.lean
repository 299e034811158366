import PinFloor.Listing
import PinFloor.Text.Style

/-!
# Listings for people

Named entries with their places, then entries that are not checked, then the places where packages
are looked for.
-/

namespace PinFloor

/-- A place in brackets, with less light. -/
def placeNote (origin : Origin) : String :=
  Style.dimmed.paint ("(" ++ origin.text ++ ")")

namespace Entry

/-- The line of a named entry. -/
def listedText (e : Entry) : String :=
  let marker := match e.markerText? with
    | some marker => " ; " ++ Style.dimmed.paint marker
    | none => ""
  "  " ++ e.specification ++ marker ++ " " ++ placeNote e.origin ++ "\n"

end Entry

namespace Target

/-- The line of an entry without a name. -/
def listedText (t : Target) : String :=
  "  " ++ t.target ++ " " ++ placeNote t.origin ++ "\n"

end Target

namespace Listing

/-- Named entries under a title. -/
def named (l : Listing) (title : String) (entries : List Entry) : String :=
  Style.bold.paint title ++ " for " ++ Style.cyan.paint l.environment.text ++ " ("
    ++ countText entries.length "entry" "entries" ++ "):\n"
    ++ String.join (entries.map Entry.listedText)

/-- Entries without a name under a title, if there are any. -/
def unchecked (title : String) (targets : List Target) : String :=
  if targets.isEmpty then ""
  else
    Style.bold.paint title ++ " (not checked):\n" ++ String.join (targets.map Target.listedText)

/-- A line for each place where packages are looked for. -/
def places (label : String) (values : List String) : String :=
  String.join (values.map fun value => Style.bold.paint (label ++ ":") ++ " " ++ value ++ "\n")

/-- A listing for people. -/
def text (l : Listing) : String :=
  l.named "Requirements" l.content.requirements
    ++ l.named "Constraints" l.content.constraints
    ++ unchecked "Editables" l.content.editables
    ++ unchecked "Unnamed requirements" l.content.unnamed
    ++ places "Index URL" l.content.options.indexUrl.toList
    ++ places "Extra index URL" l.content.options.extraIndexUrls
    ++ places "Find links" l.content.options.findLinks

end Listing

end PinFloor
