import PinFloor.Text.Blank
import PinFloor.Version.Basic

/-!
# Reading versions

The accepted spellings: blanks around, a leading `v`, an epoch before `!`, release numbers joined
by points, then a pre-, a post- and a development release and a local label, each optional and in
this order. Letters may be in any case, and parts may be set apart by `.`, `-` or `_`. Numbers fit
a machine word.
-/

namespace PinFloor

/-- A version, or with a final `.*` all versions that start with its release numbers. -/
structure VersionPattern where
  /-- The version before the `.*`. -/
  version : Version
  /-- Whether `.*` follows. -/
  wildcard : Bool
  deriving Repr, DecidableEq

namespace Version

/-- What a part of a version reads: a value and the text after it. A number that fits no machine
    word makes the whole text unreadable. -/
abbrev Part (α : Type) := List Char → Option (α × List Char)

/-- A character that may set two parts apart. -/
def isJoint (c : Char) : Bool :=
  c = '.' || c = '-' || c = '_'

/-- Skips one joint, if there is one. -/
def skipJoint : List Char → List Char
  | [] => []
  | c :: rest => if isJoint c then rest else c :: rest

/-- The text after `word`, if the text starts with it in any case; `word` is in lower case. -/
def afterWord? : (word : List Char) → List Char → Option (List Char)
  | [], cs => some cs
  | w :: word, c :: cs => if c.toLower = w then afterWord? word cs else none
  | _ :: _, [] => none

/-- The text after the first of the words it starts with, and what that word stands for. -/
def afterOneOf? {α : Type} (words : List (String × α)) (cs : List Char) :
    Option (α × List Char) :=
  words.findSome? fun (word, meaning) =>
    (afterWord? word.toList cs).map fun rest => (meaning, rest)

/-- A number, if the text starts with one. -/
def number? : Part (Option Nat) := fun cs =>
  match cs.takeWhile Char.isDigit with
  | [] => some (none, cs)
  | ds => (Decimal.word? ds).map fun n => (some n, cs.dropWhile Char.isDigit)

/-- A number that may be left out and counts as zero then; a joint may stand before it. -/
def counter : Part Nat := fun cs =>
  (number? (skipJoint cs)).map fun (n, rest) => (n.getD 0, rest)

/-- A part that is introduced by one of some words, with a joint before it if `cs` has one. -/
def wordPart {α β : Type} (words : List (String × α)) (make : α → Nat → β) : Part (Option β) :=
  fun cs =>
    match afterOneOf? words (skipJoint cs) with
    | none => some (none, cs)
    | some (meaning, rest) => (counter rest).map fun (n, rest) => (some (make meaning n), rest)

/-- The spellings of the stages of a pre-release. -/
def stageWords : List (String × Stage) :=
  [("alpha", .alpha), ("beta", .beta), ("preview", .candidate), ("pre", .candidate),
   ("rc", .candidate), ("a", .alpha), ("b", .beta), ("c", .candidate)]

/-- A pre-release. -/
def prePart : Part (Option (Stage × Nat)) :=
  wordPart stageWords Prod.mk

/-- A post-release: `-` and a number, or one of its words. -/
def postPart : Part (Option Nat) := fun cs =>
  match cs with
  | '-' :: rest =>
      match number? rest with
      | none => none
      | some (some n, rest) => some (some n, rest)
      | some (none, _) => named cs
  | _ => named cs
where
  /-- A post-release introduced by a word. -/
  named : Part (Option Nat) :=
    wordPart [("post", ()), ("rev", ()), ("r", ())] fun _ n => n

/-- A development release. -/
def devPart : Part (Option Nat) :=
  wordPart [("dev", ())] fun _ n => n

/-- One part of a local label. -/
def labelWord (cs : List Char) : LabelPart :=
  match Decimal.word? cs with
  | some n => .number n
  | none => .word (String.ofList (cs.map Char.toLower))

/-- Splits a text at the joints. -/
def splitJoints : List Char → List (List Char)
  | [] => [[]]
  | c :: rest =>
      if isJoint c then [] :: splitJoints rest
      else
        match splitJoints rest with
        | first :: others => (c :: first) :: others
        | [] => [[c]]

/-- A local label, up to the first character that none may hold. -/
def labelPart : Part (List LabelPart) := fun cs =>
  match cs with
  | '+' :: rest =>
      let inLabel := fun c : Char => c.isAlphanum || isJoint c
      let words := splitJoints (rest.takeWhile inLabel)
      if words.any List.isEmpty then none
      else some (words.map labelWord, rest.dropWhile inLabel)
  | _ => some ([], cs)

/-- The release numbers after the first: each after a point. A point that no number follows ends
    them and is left. -/
def releasePart (cs : List Char) : Option (List Nat × List Char) :=
  match cs with
  | '.' :: rest =>
      match rest.takeWhile Char.isDigit with
      | [] => some ([], '.' :: rest)
      | ds =>
          match Decimal.word? ds with
          | none => none
          | some n =>
              (releasePart (rest.dropWhile Char.isDigit)).map fun (ns, rest) => (n :: ns, rest)
  | _ => some ([], cs)
termination_by cs.length
decreasing_by
  have := congrArg List.length (List.takeWhile_append_dropWhile (p := Char.isDigit) (l := rest))
  simp only [List.length_append, List.length_cons] at this ⊢
  omega

/-- The epoch and the release numbers. -/
def leadPart : Part (Nat × List Nat) := fun cs =>
  match number? cs with
  | some (some n, '!' :: rest) =>
      match number? rest with
      | some (some first, rest) => (releasePart rest).map fun (ns, rest) => ((n, first :: ns), rest)
      | _ => none
  | some (some n, rest) => (releasePart rest).map fun (ns, rest) => ((0, n :: ns), rest)
  | _ => none

/-- Skips the `v` that may stand before a version. -/
def skipMark : List Char → List Char
  | 'v' :: rest => rest
  | 'V' :: rest => rest
  | cs => cs

/-- What may follow a plain release. -/
def suffixes (epoch : Nat) (release : List Nat) (cs : List Char) : Option Version := do
  let (pre, cs) ← prePart cs
  let (post, cs) ← postPart cs
  let (dev, cs) ← devPart cs
  let (label, cs) ← labelPart cs
  if cs.all isAsciiBlank then some { epoch, release, pre, post, dev, label } else none

/-- Reads a version that `.*` may follow. -/
def pattern? (cs : List Char) : Option VersionPattern :=
  match leadPart (skipMark (cs.dropWhile isAsciiBlank)) with
  | none => none
  | some ((epoch, release), rest) =>
      if rest = ['.', '*'] then
        some ⟨{ Version.ofRelease release with epoch }, true⟩
      else (suffixes epoch release rest).map fun version => ⟨version, false⟩

/-- Reads a version. -/
def parse? (cs : List Char) : Option Version :=
  (pattern? cs).bind fun p => if p.wildcard then none else some p.version

end Version

end PinFloor
