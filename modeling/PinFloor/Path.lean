import PinFloor.Text.Decimal

/-!
# Paths

A path is kept as it was written. It is compared by its parts, so that repeated slashes and a `.`
inside make no difference; a `..` is a part of its own.
-/

namespace PinFloor

/-- A path, as it was written. -/
structure Path where
  /-- The text of the path. -/
  text : String
  deriving Repr, DecidableEq, Inhabited

inductive PathPart where
  /-- The root directory, at the start of an absolute path. -/
  | root
  /-- A `.` at the start of a relative path. -/
  | here
  /-- The directory above. -/
  | above
  | name (text : String)
  deriving Repr, DecidableEq

namespace PathPart

/-- The rank of a part. -/
def rank : PathPart → List Nat
  | root => [0]
  | here => [1]
  | above => [2]
  | name text => 3 :: text.toList.map Char.toNat

end PathPart

namespace Path

/-- What stands between the slashes of a path. -/
def segments (p : Path) : List String :=
  (p.text.toList.splitOn '/').map String.ofList

/-- Whether a path starts at the root directory. -/
def isAbsolute (p : Path) : Bool :=
  p.text.toList.head? == some '/'

/-- The part that a segment stands for; an empty one and a `.` stand for none. -/
def partOf? (segment : String) : Option PathPart :=
  if segment = "" ∨ segment = "." then none
  else if segment = ".." then some .above
  else some (.name segment)

/-- The parts of a path. -/
def parts (p : Path) : List PathPart :=
  (if p.isAbsolute then [PathPart.root]
    else if p.segments.head? = some "." then [PathPart.here] else [])
    ++ p.segments.filterMap partOf?

/-- The order of paths. -/
def compare (a b : Path) : Ordering :=
  Ord.compare (a.parts.map PathPart.rank) (b.parts.map PathPart.rank)

/-- Whether two paths have the same parts. -/
def same (a b : Path) : Bool :=
  a.parts == b.parts

/-- Segments without those at the end that stand for no part. -/
def trimSegments (segments : List String) : List String :=
  (segments.reverse.dropWhile fun s => (partOf? s).isNone).reverse

/-- Segments joined by slashes. -/
def joinSegments (segments : List String) : String :=
  String.intercalate "/" segments

/-- The path without its last part, if it has a part besides the root. -/
def parent? (p : Path) : Option Path :=
  if p.isAbsolute then
    match trimSegments p.segments.tail with
    | [] => none
    | body => some ⟨"/" ++ joinSegments (trimSegments body.dropLast)⟩
  else if p.segments.head? = some "." then
    match trimSegments p.segments.tail with
    | [] => some ⟨""⟩
    | body => some ⟨joinSegments ("." :: trimSegments body.dropLast)⟩
  else
    match trimSegments p.segments with
    | [] => none
    | body => some ⟨joinSegments (trimSegments body.dropLast)⟩

/-- Whether a path ends with a slash. -/
def endsWithSlash (p : Path) : Bool :=
  p.text.toList.getLast? == some '/'

/-- The path of `q` seen from `p`. An absolute path stays as it is. -/
def join (p q : Path) : Path :=
  if q.isAbsolute ∨ p.text = "" then q
  else if p.endsWithSlash then ⟨p.text ++ q.text⟩
  else ⟨p.text ++ "/" ++ q.text⟩

/-- The path of a file that is named in the file at `p`. -/
def sibling (p q : Path) : Path :=
  match p.parent? with
  | some directory => directory.join q
  | none => q

/-- The path itself and the directories above it. -/
def ancestors (p : Path) : List Path :=
  go p.text.length p
where
  /-- At most `n` steps up. -/
  go (n : Nat) (p : Path) : List Path :=
    match n, p.parent? with
    | n + 1, some q => p :: go n q
    | _, _ => [p]

/-- How a part other than the root is written. -/
def partText : PathPart → String
  | .root => ""
  | .here => "."
  | .above => ".."
  | .name text => text

/-- The absolute form of a path, seen from the directory `current`: redundant slashes and each `.`
    are left out, a `..` and a slash at the end stay. An empty path has none. -/
def absolute? (p current : Path) : Option Path :=
  if p.text = "" then none
  else
    let names := (p.parts.filter fun part => part ≠ .root ∧ part ≠ .here).map partText
    let slashes := p.text.toList.takeWhile (· = '/')
    let base : Path :=
      if slashes.length = 2 then ⟨"//"⟩ else if p.isAbsolute then ⟨"/"⟩ else current
    let full := if names.isEmpty then base else base.join ⟨joinSegments names⟩
    some (if p.endsWithSlash ∧ !full.endsWithSlash then ⟨full.text ++ "/"⟩ else full)

end Path

/-- The place of an entry in a requirements file. -/
structure Origin where
  /-- The file, as it was reached. -/
  path : Path
  /-- The line that the entry starts on, counted from one. -/
  line : Nat
  deriving Repr, DecidableEq

namespace Origin

/-- How an origin is written. -/
def text (o : Origin) : String :=
  o.path.text ++ ":" ++ Decimal.text o.line

/-- The order of origins: by path, then by line. -/
def compare (a b : Origin) : Ordering :=
  (a.path.compare b.path).then (Ord.compare a.line b.line)

/-- Whether two origins are one place. -/
def same (a b : Origin) : Bool :=
  a.path.same b.path && a.line == b.line

end Origin

end PinFloor
