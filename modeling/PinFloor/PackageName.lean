/-!
# Package names

A name is written with ASCII letters, digits, `-`, `_` and `.`, and starts and ends with a letter
or a digit. Its normal form has lower-case letters and one `-` in place of each run of separators,
so two spellings denote one package exactly if their normal forms are equal.
-/

namespace PinFloor

/-- The normal form of a package name. -/
structure PackageName where
  /-- The name in its normal form. -/
  text : String
  deriving Repr, DecidableEq, Hashable, Inhabited

/-- A text that is no package name. -/
structure InvalidName where
  /-- The text as it was given. -/
  given : String
  deriving Repr, DecidableEq

/-- What is said about a text that is no package name. -/
def InvalidName.message (error : InvalidName) : String :=
  "Not a valid package name: \"" ++ error.given
    ++ "\". Names must start and end with a letter or digit and may only contain "
    ++ "-, _, ., and alphanumeric characters."

namespace PackageName

/-- The characters that separate the words of a name. -/
def isSeparator (c : Char) : Bool :=
  c = '-' || c = '_' || c = '.'

/-- Normalizes the rest of a name. `gap` says that a separator stands directly before it, whose
    `-` is written once a letter or digit follows. -/
def normalizeFrom (gap : Bool) : List Char → Option (List Char)
  | [] => if gap then none else some []
  | c :: rest =>
      if isSeparator c then normalizeFrom true rest
      else if c.isAlphanum then
        (normalizeFrom false rest).map fun tail =>
          if gap then '-' :: c.toLower :: tail else c.toLower :: tail
      else none

/-- The normal form of a name, if it is one. -/
def normalize? : List Char → Option (List Char)
  | [] => none
  | c :: rest =>
      if c.isAlphanum then (normalizeFrom false rest).map (c.toLower :: ·) else none

/-- A lower-case letter or a digit. -/
def isLowerOrDigit (c : Char) : Bool :=
  c.isLower || c.isDigit

/-- Whether the rest of a name is in normal form. `gap` says that a `-` stands directly before. -/
def isNormalizedFrom (gap : Bool) : List Char → Bool
  | [] => !gap
  | c :: rest =>
      if c = '-' then !gap && isNormalizedFrom true rest
      else isLowerOrDigit c && isNormalizedFrom false rest

/-- Whether a text is a name in normal form. -/
def isNormalized (cs : List Char) : Bool :=
  isNormalizedFrom true cs

/-- Reads a package name. -/
def parse (name : String) : Except InvalidName PackageName :=
  match normalize? name.toList with
  | some normal => .ok ⟨String.ofList normal⟩
  | none => .error ⟨name⟩

/-- Reads a package name; one in normal form is taken as it stands. -/
def adopt (name : String) : Except InvalidName PackageName :=
  if isNormalized name.toList then .ok ⟨name⟩ else parse name

/-- Names are ordered by their characters. -/
def le (a b : PackageName) : Bool :=
  decide (a.text ≤ b.text)

/-- The names in ascending order, each once. -/
def sorted (names : List PackageName) : List PackageName :=
  (names.mergeSort le).eraseDups

end PackageName

end PinFloor
