import PinFloor.Marker.Parser
import PinFloor.Requirement.Basic

/-!
# Reading requirements

A requirement is a name, optionally extras in brackets, then `@` and a URL or specifiers, which may
stand in parentheses, and optionally `;` and a marker. Blanks may stand between these parts.
-/

namespace PinFloor.Requirement

/-- A character of a name. -/
def inName (c : Char) : Bool :=
  c.isAlphanum || c = '.' || c = '-' || c = '_'

/-- Reads a name: it starts and ends with a letter or a digit. -/
def name? (cs : List Char) : Option (PackageName × List Char) :=
  match PackageName.parse (String.ofList (cs.takeWhile inName)) with
  | .ok name => some (name, cs.dropWhile inName)
  | .error _ => none

/-- Reads the names of extras up to the closing bracket. Commas stand between them only. -/
def extrasUpTo? (cs : List Char) : Option (List PackageName × List Char) :=
  match name? (trimStart cs) with
  | none => none
  | some (name, rest) =>
      match trimStart rest with
      | ']' :: rest => some ([name], rest)
      | ',' :: rest' =>
          if _h : rest'.length < cs.length then
            (extrasUpTo? rest').map fun (names, rest) => (name :: names, rest)
          else none
      | _ => none
termination_by cs.length

/-- Reads extras in brackets, if there are any. -/
def extras? (cs : List Char) : Option (List PackageName × List Char) :=
  match cs with
  | '[' :: rest =>
      match trimStart rest with
      | ']' :: rest => some ([], rest)
      | _ => extrasUpTo? rest
  | _ => some ([], cs)

/-- Whether a text is over for a URL that stands before it: only blanks are left, or blanks and
    then a marker or a comment. -/
def endsUrl (cs : List Char) : Bool :=
  match trimStart cs with
  | [] => true
  | c :: _ => c = ';' || c = '#'

/-- Splits a text at the end of the URL that it starts with. A `;` or `#` before a blank is
    refused: it might belong to the URL or not. So is a line end within the URL. -/
def splitUrl? : List Char → Option (List Char × List Char)
  | [] => some ([], [])
  | [c] => some ([c], [])
  | c :: d :: rest =>
      if isBlank d && (c = ';' || c = '#') then none
      else if isBlank d && endsUrl (d :: rest) then some ([c], d :: rest)
      else if d = '\n' || d = '\r' then none
      else (splitUrl? (d :: rest)).map fun (url, rest) => (c :: url, rest)

/-- The endings of names that look like archives. -/
def archiveEndings : List String :=
  [".whl", ".tbz", ".txz", ".tlz", ".zip", ".tgz", ".tar",
   ".tar.bz2", ".tar.xz", ".tar.lz", ".tar.lzma", ".tar.gz"]

/-- Whether a text looks like the file name of an archive. -/
def looksLikeArchive (cs : List Char) : Bool :=
  archiveEndings.any fun ending => ending.toList.isSuffixOf cs

/-- Reads a source up to the marker. -/
def source? (cs : List Char) : Option (Source × List Char) :=
  match cs with
  | [] => some (.any, cs)
  | ';' :: _ => some (.any, cs)
  | '@' :: rest => do
      let (text, rest) ← splitUrl? (trimStart rest)
      if text.isEmpty then none else some (.url (← Url.parse? text), rest)
  | '(' :: rest =>
      match rest.dropWhile (· ≠ ')') with
      | _ :: after =>
          (Specifier.parseList? (rest.takeWhile (· ≠ ')'))).map fun list =>
            (.specifiers list, after)
      | [] => none
  | c :: _ =>
      if Operator.isSignChar c then
        (Specifier.parseList? (cs.takeWhile (· ≠ ';'))).map fun list =>
          (.specifiers list, cs.dropWhile (· ≠ ';'))
      else none

/-- Reads a marker, if there is one, up to the end of the text. A comment may stand in place of a
    marker. -/
def marker? (cs : List Char) : Option Marker :=
  match trimStart cs with
  | [] => some (.leaf true)
  | '#' :: _ => some (.leaf true)
  | ';' :: rest => Marker.parse? rest
  | _ => none

/-- Reads a requirement. A bare name that looks like an archive is refused. -/
def parse? (cs : List Char) : Option Requirement := do
  let start := trimStart cs
  let (name, rest) ← name? start
  let (extras, rest) ← extras? (trimStart rest)
  let (source, rest) ← source? (trimStart rest)
  if source = .any ∧ looksLikeArchive (start.takeWhile inName) then none
  else
    let marker ← marker? rest
    some { name, extras, source, marker }

end PinFloor.Requirement
