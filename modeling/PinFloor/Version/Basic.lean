import PinFloor.Text.Decimal

/-!
# Versions

A version has an epoch, release numbers, and optionally a pre-release, a post-release, a
development release and a local label. Versions are ordered by their rank, a list of lists of
numbers compared lexicographically, so the order is total, and two versions are the same exactly if
they differ at most in trailing zeros of the release.
-/

namespace PinFloor

/-- The stages before a final release, from the earliest on. -/
inductive Stage where
  /-- An alpha release. -/
  | alpha
  /-- A beta release. -/
  | beta
  /-- A release candidate. -/
  | candidate
  deriving Repr, DecidableEq

/-- One part of a local label. -/
inductive LabelPart where
  /-- A part of digits that fits a machine word. -/
  | number (value : Nat)
  /-- Any other part, in lower case. -/
  | word (text : String)
  deriving Repr, DecidableEq

/-- A version, with the numbers as they were given. -/
structure Version where
  /-- The epoch; zero if none was given. -/
  epoch : Nat
  /-- The release numbers, as many as were given. -/
  release : List Nat
  /-- The pre-release and its number. -/
  pre : Option (Stage × Nat)
  /-- The number of the post-release. -/
  post : Option Nat
  /-- The number of the development release. -/
  dev : Option Nat
  /-- The local label; empty if there is none. -/
  label : List LabelPart
  deriving Repr, DecidableEq

/-- The numbers without the zeros at the end. -/
def trimZeros (release : List Nat) : List Nat :=
  release.foldr (fun n rest => if n = 0 ∧ rest = [] then [] else n :: rest) []

namespace Stage

/-- How a stage is written. -/
def text : Stage → String
  | alpha => "a"
  | beta => "b"
  | candidate => "rc"

/-- The place of a stage among the phases of a release. -/
def phase : Stage → Nat
  | alpha => 2
  | beta => 3
  | candidate => 4

end Stage

namespace LabelPart

/-- How a part of a label is written. -/
def text : LabelPart → String
  | number value => Decimal.text value
  | word text => text

/-- The rank of a part: words come before numbers. -/
def rank : LabelPart → List Nat
  | word text => 0 :: text.toList.map Char.toNat
  | number value => [1, value]

end LabelPart

namespace Version

/-- The version with these release numbers and nothing else. -/
def ofRelease (release : List Nat) : Version :=
  { epoch := 0, release, pre := none, post := none, dev := none, label := [] }

/-- Release numbers joined by points. -/
def releaseText (release : List Nat) : String :=
  String.intercalate "." (release.map Decimal.text)

/-- The canonical text of a version. -/
def text (v : Version) : String :=
  (if v.epoch = 0 then "" else Decimal.text v.epoch ++ "!")
    ++ releaseText v.release
    ++ (match v.pre with | none => "" | some (stage, n) => stage.text ++ Decimal.text n)
    ++ (match v.post with | none => "" | some n => ".post" ++ Decimal.text n)
    ++ (match v.dev with | none => "" | some n => ".dev" ++ Decimal.text n)
    ++ (match v.label with
        | [] => ""
        | parts => "+" ++ String.intercalate "." (parts.map LabelPart.text))

/-- The phase of a version among those with its epoch and release, and the pre-release's number:
    development releases come first, then pre-releases by stage, then the final release, and
    post-releases last. -/
def phase (v : Version) : List Nat :=
  match v.pre, v.post, v.dev with
  | some (stage, n), _, _ => [stage.phase, n]
  | none, some _, _ => [6, 0]
  | none, none, some _ => [1, 0]
  | none, none, none => [5, 0]

/-- The rank of a version. A version without a post-release comes before those with one, one
    without a development release after those with one, and one without a label before those with
    one. -/
def rank (v : Version) : List (List Nat) :=
  [v.epoch] :: trimZeros v.release :: v.phase :: v.post.toList
    :: [v.dev.getD (Decimal.wordSize - 1)] :: v.label.map LabelPart.rank

/-- The order of versions. -/
def compare (a b : Version) : Ordering :=
  Ord.compare a.rank b.rank

/-- Whether two texts denote one version: they may differ in trailing zeros of the release. -/
def same (a b : Version) : Bool :=
  a.compare b == .eq

/-- Whether `a` comes before `b`. -/
def before (a b : Version) : Bool :=
  a.compare b == .lt

/-- Whether `a` comes before `b` or is the same version. -/
def atMost (a b : Version) : Bool :=
  a.compare b != .gt

/-- Whether two versions have the same release numbers, up to trailing zeros. -/
def sameRelease (a b : Version) : Bool :=
  trimZeros a.release == trimZeros b.release

/-- Whether the version is a pre-release or a development release. -/
def isEarly (v : Version) : Bool :=
  v.pre.isSome || v.dev.isSome

/-- The version without its local label. -/
def withoutLabel (v : Version) : Version :=
  { v with label := [] }

end Version

end PinFloor
