/-!
# Searching a text
-/

namespace PinFloor

/-- Whether `part` occurs in `whole`. -/
def occursIn (part : List Char) : (whole : List Char) → Bool
  | [] => part.isEmpty
  | c :: whole => part.isPrefixOf (c :: whole) || occursIn part whole

end PinFloor
