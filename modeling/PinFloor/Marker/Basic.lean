import PinFloor.Marker.Variable
import PinFloor.PackageName
import PinFloor.Text.Search

/-!
# Markers as decision diagrams

A marker is a binary decision diagram. Each inner node asks one question; questions stand in a fixed
order on every path, so conjunction and disjunction combine two diagrams node by node. The values of
a version or text key lie on a line, and a question about it asks whether the value lies below
a cut of that line.
-/

namespace PinFloor

/-- A cut of a line, directly before or directly after a value. -/
inductive Cut (α : Type) where
  /-- Below the cut lie the values less than this one. -/
  | before (value : α)
  /-- Below the cut lie this value and those less than it. -/
  | after (value : α)
  deriving Repr, DecidableEq

/-- A question that a node of a marker asks. -/
inductive Question where
  /-- Does the version lie below the cut? -/
  | version (key : VersionVariable) (cut : Cut (List Nat))
  /-- Does the text lie below the cut? -/
  | text (key : TextVariable) (cut : Cut String)
  /-- Is the variable a part of this text? -/
  | within (key : TextVariable) (whole : String)
  /-- Is this text a part of the variable? -/
  | holding (key : TextVariable) (part : String)
  /-- Is the extra asked for? -/
  | extra (name : PackageName)
  deriving Repr, DecidableEq

/-- A decision diagram over questions. -/
inductive Marker where
  /-- The answer is known. -/
  | leaf (value : Bool)
  /-- The answer is that of one of two diagrams. -/
  | node (question : Question) (yes no : Marker)
  deriving Repr, DecidableEq

/-- The characters of a text as numbers. -/
def codes (s : String) : List Nat :=
  s.toList.map Char.toNat

namespace Question

/-- The rank of a cut: first the value's, then before or after it. -/
def cutRank {α : Type} (rank : α → List Nat) : Cut α → List (List Nat)
  | .before value => [rank value, [0]]
  | .after value => [rank value, [1]]

/-- The rank of a question in the order of a diagram: versions, texts, parts of a text, texts with
    a part, extras. -/
def rank : Question → List (List Nat)
  | version key cut => [0, key.index] :: cutRank trimZeros cut
  | text key cut => [1, key.index] :: cutRank codes cut
  | within key whole => [[2, key.index], codes whole]
  | holding key part => [[3, key.index], codes part]
  | extra name => [[4], codes name.text]

/-- Whether two questions are about cuts of one line. -/
def sameLine : Question → Question → Bool
  | version a _, version b _ => a == b
  | text a _, text b _ => a == b
  | _, _ => false

/-- Whether a value whose rank is given lies below a cut. -/
def isBelow {α : Type} (rank : α → List Nat) (value : List Nat) : Cut α → Bool
  | .before bound => compare value (rank bound) == .lt
  | .after bound => compare value (rank bound) != .gt

/-- The answer to a question in an environment where no extra is asked for. -/
def holds (environment : MarkerEnvironment) : Question → Bool
  | version key cut => isBelow trimZeros (trimZeros (key.value environment)) cut
  | text key cut => isBelow codes (codes (key.value environment)) cut
  | within key whole => occursIn (key.value environment).toList whole.toList
  | holding key part => occursIn part.toList (key.value environment).toList
  | extra _ => false

end Question

namespace Marker

/-- Whether a marker holds in an environment where no extra is asked for. -/
def holds (environment : MarkerEnvironment) : Marker → Bool
  | leaf value => value
  | node question yes no =>
      if question.holds environment then yes.holds environment else no.holds environment

/-- The number of inner nodes of a diagram. -/
def size : Marker → Nat
  | leaf _ => 0
  | node _ yes no => yes.size + no.size + 1

/-- A node, unless its question makes no difference: because the branches are equal, or because
    both sides of the cut lead to one diagram. -/
def ask (question : Question) (yes no : Marker) : Marker :=
  if yes = no then yes
  else
    match no with
    | node next yes' _ => if question.sameLine next && yes = yes' then no else node question yes no
    | leaf _ => node question yes no

/-- What is left of a diagram below a cut that comes before all its own cuts of that line. -/
def under (cut : Question) : Marker → Marker
  | leaf value => leaf value
  | node question yes no => if cut.sameLine question then yes.under cut else node question yes no

/-- A diagram does not grow by what is known. -/
theorem size_under_le (cut : Question) (m : Marker) : (m.under cut).size ≤ m.size := by
  induction m with
  | leaf value => exact Nat.le_refl _
  | node question yes no yesIh noIh =>
    unfold under
    split
    · simp only [size]; omega
    · exact Nat.le_refl _

/-- Combines the answers of two diagrams. -/
def combine (op : Bool → Bool → Bool) : Marker → Marker → Marker
  | leaf a, leaf b => leaf (op a b)
  | leaf a, node t yes no => ask t (combine op (leaf a) yes) (combine op (leaf a) no)
  | node s yes no, leaf b => ask s (combine op yes (leaf b)) (combine op no (leaf b))
  | node s yes no, node t yes' no' =>
      match compare s.rank t.rank with
      | .lt => ask s (combine op yes ((node t yes' no').under s)) (combine op no (node t yes' no'))
      | .eq => ask s (combine op yes yes') (combine op no no')
      | .gt => ask t (combine op ((node s yes no).under t) yes') (combine op (node s yes no) no')
termination_by a b => a.size + b.size
decreasing_by
  all_goals simp only [size]
  all_goals
    first
    | omega
    | (have h := size_under_le s (node t yes' no'); simp only [size] at h; omega)
    | (have h := size_under_le t (node s yes no); simp only [size] at h; omega)

/-- The marker that holds where both do. -/
def and (a b : Marker) : Marker :=
  combine Bool.and a b

/-- The marker that holds where one of the two does. -/
def or (a b : Marker) : Marker :=
  combine Bool.or a b

/-- The marker that holds where this one does not. -/
def not : Marker → Marker
  | leaf value => leaf (!value)
  | node question yes no => node question yes.not no.not

/-- A question as a marker. -/
def ofQuestion (question : Question) : Marker :=
  node question (leaf true) (leaf false)

/-- The marker that holds between two cuts of a line. -/
def between {α : Type} (question : Cut α → Question) :
    (lower upper : Option (Cut α)) → Marker
  | none, none => leaf true
  | some lower, none => node (question lower) (leaf false) (leaf true)
  | none, some upper => node (question upper) (leaf true) (leaf false)
  | some lower, some upper =>
      node (question lower) (leaf false) (node (question upper) (leaf true) (leaf false))

/-- The marker that holds at one value of a line. -/
def point {α : Type} (question : Cut α → Question) (value : α) : Marker :=
  between question (some (.before value)) (some (.after value))

end Marker

end PinFloor
