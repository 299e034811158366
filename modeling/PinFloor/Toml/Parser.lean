import PinFloor.Toml.Literal

/-!
# Reading TOML

A document is a list of lines, each a table header or a key with its value, or neither. Reading it
gives these lines in their order; what they define together is for `Toml.Document`.
-/

namespace PinFloor.Toml

/-- A key: names joined by points. -/
abbrev Key := List String

/-- A line of a document. -/
inductive Line where
  /-- The header of a table. -/
  | table (key : Key)
  /-- The header of the next table of a list. -/
  | item (key : Key)
  /-- A value for a key. -/
  | assign (key : Key) (value : Value)
  deriving Repr

/-- Skips a comment, if the text starts with one. It holds no control characters. -/
def skipComment? : List Char → Option (List Char)
  | '#' :: rest =>
      let comment := rest.takeWhile fun c => c ≠ '\n' && c ≠ '\r'
      if comment.any isControl then none else some (rest.drop comment.length)
  | cs => some cs

/-- Skips blanks, comments and line ends between the parts of a value. -/
def skipFiller? (fuel : Nat) (cs : List Char) : Option (List Char) :=
  match fuel with
  | 0 => some cs
  | fuel + 1 => do
      let rest ← skipComment? (skipBlanks cs)
      match lineEnd? rest with
      | some rest => skipFiller? fuel rest
      | none => some rest

/-- A character of a name without quotes. -/
def inBareName (c : Char) : Bool :=
  c.isAlphanum || c = '_' || c = '-'

/-- Reads one name of a key. -/
def name (cs : List Char) : Option (String × List Char) :=
  match cs with
  | '"' :: _ | '\'' :: _ => shortString cs
  | _ =>
      match cs.takeWhile inBareName with
      | [] => none
      | bare => some (String.ofList bare, cs.dropWhile inBareName)

/-- Reads a key, with blanks around its names. -/
def key (fuel : Nat) (cs : List Char) : Option (Key × List Char) :=
  match fuel with
  | 0 => none
  | fuel + 1 => do
      let (first, rest) ← name (skipBlanks cs)
      match skipBlanks rest with
      | '.' :: rest => (key fuel rest).map fun (names, rest) => (first :: names, rest)
      | rest => some ([first], rest)

/-- The fields of a table in braces with one more. A name that has a value takes no other, and only
    names that keys have introduced are extended. `dotted` holds the keys that are introduced by
    longer ones. -/
def addField (fields : List (String × Value)) (dotted : List Key) (above : Key) (value : Value) :
    Key → Option (List (String × Value))
  | [] => none
  | [last] => if (fields.lookup last).isSome then none else some (fields ++ [(last, value)])
  | first :: rest =>
      match fields.lookup first with
      | none =>
          (addField [] dotted (above ++ [first]) value rest).map fun inner =>
            fields ++ [(first, .mapping inner)]
      | some (.mapping inner) =>
          if dotted.contains (above ++ [first]) then
            (addField inner dotted (above ++ [first]) value rest).map fun inner =>
              fields.map fun field => if field.1 = first then (first, .mapping inner) else field
          else none
      | some _ => none

/-- The keys that a key introduces: all of its beginnings but itself. -/
def introduced (key : Key) : List Key :=
  (List.range (key.length - 1)).map fun n => key.take (n + 1)

mutual

/-- Reads a value. -/
def value (fuel : Nat) (cs : List Char) : Option (Value × List Char) :=
  match fuel, cs with
  | 0, _ => none
  | fuel + 1, '[' :: rest => (items fuel rest).map fun (vs, rest) => (.sequence vs, rest)
  | fuel + 1, '\x7b' :: rest => (fields fuel [] [] rest).map fun (fs, rest) => (.mapping fs, rest)
  | _, '"' :: _ | _, '\'' :: _ => (string cs).map fun (text, rest) => (.string text, rest)
  | _, _ => word cs

/-- Reads the items of a list up to the closing bracket. -/
def items (fuel : Nat) (cs : List Char) : Option (List Value × List Char) :=
  match fuel with
  | 0 => none
  | fuel + 1 => do
      match ← skipFiller? cs.length cs with
      | ']' :: rest => some ([], rest)
      | cs =>
          let (first, rest) ← value fuel cs
          match ← skipFiller? rest.length rest with
          | ',' :: rest => (items fuel rest).map fun (vs, rest) => (first :: vs, rest)
          | ']' :: rest => some ([first], rest)
          | _ => none

/-- Reads the fields of a table in braces up to the closing one. -/
def fields (fuel : Nat) (found : List (String × Value)) (dotted : List Key) (cs : List Char) :
    Option (List (String × Value) × List Char) :=
  match fuel with
  | 0 => none
  | fuel + 1 => do
      match ← skipFiller? cs.length cs with
      | '\x7d' :: rest => some (found, rest)
      | cs =>
          let (key, rest) ← key cs.length cs
          match rest with
          | '=' :: rest =>
              let (v, rest) ← value fuel (skipBlanks rest)
              let found ← addField found dotted [] v key
              match ← skipFiller? rest.length rest with
              | ',' :: rest => fields fuel found (dotted ++ introduced key) rest
              | '\x7d' :: rest => some (found, rest)
              | _ => none
          | _ => none

end

/-- Reads the end of a line, with blanks and a comment before it. -/
def endLine? (cs : List Char) : Option (List Char) := do
  match ← skipComment? (skipBlanks cs) with
  | [] => some []
  | rest => lineEnd? rest

/-- Reads a line that is not empty. -/
def line (cs : List Char) : Option (Line × List Char) :=
  match cs with
  | '[' :: '[' :: rest => do
      let (key, rest) ← key rest.length rest
      match rest with
      | ']' :: ']' :: rest => some (.item key, rest)
      | _ => none
  | '[' :: rest => do
      let (key, rest) ← key rest.length rest
      match rest with
      | ']' :: rest => some (.table key, rest)
      | _ => none
  | _ => do
      let (key, rest) ← key cs.length cs
      match rest with
      | '=' :: rest => do
          let (value, rest) ← value rest.length (skipBlanks rest)
          some (.assign key value, rest)
      | _ => none

/-- Reads the lines of a document. -/
def lines (fuel : Nat) (cs : List Char) : Option (List Line) :=
  match fuel with
  | 0 => if cs.isEmpty then some [] else none
  | fuel + 1 => do
      match ← skipFiller? cs.length cs with
      | [] => some []
      | cs =>
          let (first, rest) ← line cs
          let rest ← endLine? rest
          (lines fuel rest).map (first :: ·)

/-- The text after the mark that a document may start with. -/
def skipMark : List Char → List Char
  | '\ufeff' :: rest => rest
  | cs => cs

/-- The lines of a document. -/
def lines? (cs : List Char) : Option (List Line) :=
  lines cs.length (skipMark cs)

end PinFloor.Toml
