import PinFloor.FileSystem
import PinFloor.Log.Notice
import PinFloor.Settings.Layer
import PinFloor.Toml.Document

/-!
# Discovery of settings

Settings stand in a file `mincheck.toml`, or in a table of a file `pyproject.toml`. They are looked
for in a directory and then in the directories above it, and the first directory that has any
decides. A `pyproject.toml` that cannot be understood is passed over with a warning.
-/

namespace PinFloor

/-- Why there are no settings in a file. -/
inductive SettingsError where
  /-- The file cannot be read. -/
  | unreadable (file : Path) (error : ReadError)
  /-- The path of the directory is empty. -/
  | emptyPath
  /-- The project file cannot be understood. Nothing more is known if it is no TOML document. -/
  | brokenProject (file : Path) (cause : Option DecodeError)
  /-- The settings file cannot be understood. Nothing more is known if it is no TOML document. -/
  | brokenSettings (file : Path) (cause : Option DecodeError)
  deriving Repr

namespace SettingsError

/-- What is said about a file that cannot be understood. -/
def parseMessage (file : Path) : String :=
  "Failed to parse: `" ++ file.text ++ "`"

/-- What is said about an error. -/
def message : SettingsError → String
  | unreadable file error => error.message file
  | emptyPath => "cannot make an empty path absolute"
  | brokenProject file _ => parseMessage file
  | brokenSettings file _ => parseMessage file

/-- What is said about the cause of an error, where that is known. -/
def detail? : SettingsError → Option String
  | brokenProject _ cause => cause.map DecodeError.message
  | brokenSettings _ cause => cause.map DecodeError.message
  | _ => none

/-- The messages of an error and its cause. -/
def chain (error : SettingsError) : List String :=
  error.message :: error.detail?.toList

end SettingsError

namespace Layer

/-- The name of a settings file. -/
def settingsName : Path := ⟨"mincheck.toml"⟩

/-- The name of a project file. -/
def projectName : Path := ⟨"pyproject.toml"⟩

/-- Reads a TOML document. Without a cause, the error is that it is none. -/
def document {α : Type} (decode : Decoder α) (content : List Char) :
    Except (Option DecodeError) α :=
  match Toml.read? content with
  | none => .error none
  | some value => (decode value).mapError some

/-- The layer in a settings file, as it stands there. -/
def ofSettings (file : Path) (content : List Char) : Except SettingsError Layer :=
  (document (decode .toml) content).mapError (.brokenSettings file)

/-- The layer in a project file, as it stands there, if the file has the tables for it. -/
def ofProject (file : Path) (content : List Char) : Except SettingsError (Option (Option Layer)) :=
  (document (decodeProject .toml) content).mapError (.brokenProject file)

/-- The layer of a file in a directory, with its files seen from there. -/
def placed (fs : FileSystem) (directory : Path) (layer : Layer) : Except SettingsError Layer :=
  match fs.absolute? directory with
  | none => .error .emptyPath
  | some base => .ok (layer.relativeTo base)

/-- The layer of a file that was found in a directory. -/
def found (fs : FileSystem) (directory file : Path) (layer : Layer) :
    Told (Except SettingsError (Option Layer)) :=
  match placed fs directory layer with
  | .error error => .silent (.error error)
  | .ok layer => ⟨.ok (some layer), [.foundSettings file]⟩

/-- The text of a file in a directory, if there is such a file. -/
def contentOf? (fs : FileSystem) (file : Path) : Except SettingsError (Option (List Char)) :=
  match fs.read file with
  | .ok content => .ok (some content)
  | .error .notFound => .ok none
  | .error error => .error (.unreadable file error)

/-- The layer that the project file of a directory holds. -/
def fromProject (fs : FileSystem) (directory : Path) :
    Told (Except SettingsError (Option Layer)) :=
  let file := directory.join projectName
  match contentOf? fs file with
  | .error error => .silent (.error error)
  | .ok none => .silent (.ok none)
  | .ok (some content) =>
      match ofProject file content with
      | .error error => .silent (.error error)
      | .ok none => ⟨.ok none, [.noToolTable directory]⟩
      | .ok (some none) => ⟨.ok none, [.noOwnTable directory]⟩
      | .ok (some (some layer)) => found fs directory file layer

/-- The layer that a directory holds: that of its settings file, else that of its project file. -/
def fromDirectory (fs : FileSystem) (directory : Path) :
    Told (Except SettingsError (Option Layer)) :=
  let file := directory.join settingsName
  match contentOf? fs file with
  | .error error => .silent (.error error)
  | .ok none => fromProject fs directory
  | .ok (some content) =>
      match ofSettings file content with
      | .error error => .silent (.error error)
      | .ok layer => found fs directory file layer

/-- The layer of the first directory that holds one. -/
def findIn (fs : FileSystem) : List Path → Told (Except SettingsError (Option Layer))
  | [] => .silent (.ok none)
  | directory :: rest =>
      let here := fromDirectory fs directory
      match here.value with
      | .ok (some layer) => ⟨.ok (some layer), here.notices⟩
      | .ok none => let above := findIn fs rest; ⟨above.value, here.notices ++ above.notices⟩
      | .error (.brokenProject file cause) =>
          let above := findIn fs rest
          ⟨above.value,
            here.notices ++ .brokenProject file (cause.map DecodeError.message) :: above.notices⟩
      | .error error => ⟨.error error, here.notices⟩

/-- The layer of a directory or of the nearest directory above it that holds one. -/
def find (fs : FileSystem) (directory : Path) : Told (Except SettingsError (Option Layer)) :=
  findIn fs directory.ancestors

/-- The directory of a file, as an absolute path. -/
def directoryOf? (fs : FileSystem) (file : Path) : Except SettingsError (Option Path) :=
  match fs.absolute? file with
  | none => .error .emptyPath
  | some path => .ok path.parent?

/-- The layer of a settings file given by the user. -/
def fromFile (fs : FileSystem) (file : Path) : Told (Except SettingsError Layer) :=
  .saying (.readingSettings file) <| .silent <|
    match fs.read file with
    | .error error => .error (.unreadable file error)
    | .ok content =>
        match ofSettings file content with
        | .error error => .error error
        | .ok layer =>
            match directoryOf? fs file with
            | .error error => .error error
            | .ok none => .ok layer
            | .ok (some directory) => .ok (layer.relativeTo directory)

end Layer

end PinFloor
