import PinFloor.Path

/-!
# File systems

A finite tree of text files, files that are no text, and directories, without links, and the
current directory in it. Paths are resolved part by part, so that a `..` needs the directory before
it to exist.
-/

namespace PinFloor

/-- What is found at a place of a file system. -/
inductive Node where
  /-- A file whose bytes are a text. -/
  | text (content : List Char)
  /-- A file whose bytes are no text. -/
  | binary
  | directory
  deriving Repr, DecidableEq

/-- A file system. A place is given by the names that lead to it from the root. -/
structure FileSystem where
  /-- The current directory. -/
  current : List String
  /-- Files and directories; the directories above them exist too. -/
  entries : List (List String × Node)
  deriving Repr

/-- Why no text can be read from a path. -/
inductive ReadError where
  /-- There is nothing at the path. -/
  | notFound
  /-- Something before the end of the path is not a directory. -/
  | notDirectory
  /-- A name or the whole path is too long. -/
  | nameTooLong
  /-- The path holds the character zero. -/
  | zeroInName
  /-- There is a directory at the path. -/
  | isDirectory
  /-- The bytes of the file are no text. -/
  | notText
  deriving Repr, DecidableEq

/-- What identifies a file: the names that lead to it, if it exists, else the parts of its
    absolute path. -/
abbrev Identity := List PathPart

namespace ReadError

/-- What is said about a path that cannot be read. -/
def message (path : Path) : ReadError → String
  | notFound => opening ++ "No such file or directory (os error 2)"
  | notDirectory => opening ++ "Not a directory (os error 20)"
  | nameTooLong => opening ++ "File name too long (os error 36)"
  | zeroInName => opening ++ "file name contained an unexpected NUL byte"
  | isDirectory => reading ++ "Is a directory (os error 21)"
  | notText => reading ++ "stream did not contain valid UTF-8"
where
  /-- The start of a message about opening the file. -/
  opening := "failed to open file `" ++ path.text ++ "`: "
  /-- The start of a message about reading the file. -/
  reading := "failed to read from file `" ++ path.text ++ "`: "

end ReadError

namespace FileSystem

/-- What is at a place, if anything. -/
def node? (fs : FileSystem) (place : List String) : Option Node :=
  match fs.entries.lookup place with
  | some node => some node
  | none =>
      if fs.current.take place.length = place
          ∨ fs.entries.any (fun entry => entry.1.take place.length == place) then
        some .directory
      else none

/-- The greatest number of bytes of a name. -/
def maxName : Nat := 255

/-- The number of bytes that no path reaches. -/
def maxPath : Nat := 4096

/-- Follows the segments of a path from a place. Each of them needs a directory to start from. -/
def walk (fs : FileSystem) (place : List String) : List String → Except ReadError (List String)
  | [] => .ok place
  | segment :: rest =>
      if fs.node? place ≠ some .directory then .error .notDirectory
      else
        match Path.partOf? segment with
        | some (.name name) =>
            if maxName < name.utf8ByteSize then .error .nameTooLong
            else if (fs.node? (place ++ [name])).isNone then .error .notFound
            else walk fs (place ++ [name]) rest
        | some .above => walk fs place.dropLast rest
        | _ => walk fs place rest

/-- The place that a path leads to. -/
def resolve (fs : FileSystem) (path : Path) : Except ReadError (List String) :=
  if path.text.toList.contains '\x00' then .error .zeroInName
  else if path.text = "" then .error .notFound
  else if maxPath ≤ path.text.utf8ByteSize then .error .nameTooLong
  else fs.walk (if path.isAbsolute then [] else fs.current) path.segments

/-- The text of the file at a path. -/
def read (fs : FileSystem) (path : Path) : Except ReadError (List Char) :=
  match fs.resolve path with
  | .error error => .error error
  | .ok place =>
      match fs.node? place with
      | some (.text content) => .ok content
      | some .binary => .error .notText
      | some .directory => .error .isDirectory
      | none => .error .notFound

/-- The current directory as a path. -/
def currentPath (fs : FileSystem) : Path :=
  ⟨"/" ++ Path.joinSegments fs.current⟩

/-- The absolute form of a path. An empty path has none. -/
def absolute? (fs : FileSystem) (path : Path) : Option Path :=
  path.absolute? fs.currentPath

/-- The identity of the file at a place. -/
def identityOf (place : List String) : Identity :=
  .root :: place.map .name

/-- The identity of the file at a path, however the path is spelled. -/
def identity (fs : FileSystem) (path : Path) : Identity :=
  match fs.resolve path with
  | .ok place => identityOf place
  | .error _ => ((fs.absolute? path).getD path).parts

/-- The text files that are not among some identities. -/
def textFilesBut (fs : FileSystem) (opened : List Identity) : List (List String × Node) :=
  fs.entries.filter fun entry =>
    match entry.2 with
    | .text _ => !opened.contains (identityOf entry.1)
    | _ => false

end FileSystem

end PinFloor
