import Mathlib
import PinFloor.Proofs.Path
import PinFloor.Settings.Discovery

/-! # The directory that decides

Settings are looked for in a directory and in the directories above it. The nearest one that has a
settings file, or a project file with a table for this tool, decides alone: what is further up, and
what the directories on the way hold besides, makes no difference.
-/

namespace PinFloor.Layer

open PinFloor.Path

variable {fs fs' : FileSystem} {d : Path} {names nearest place : List String}

/-- A configuration file of a directory that cannot be read does not exist. -/
def Regular (fs : FileSystem) (d : Path) : Prop :=
  ∀ file ∈ [settingsName, projectName], ∀ error,
    fs.read (d.join file) = .error error → error = .notFound

/-- A directory has a settings file, or a project file that can be understood and has the table of
    this tool. -/
def Decides (fs : FileSystem) (d : Path) : Prop :=
  (∃ content, fs.read (d.join settingsName) = .ok content) ∨
    ∃ content layer, fs.read (d.join projectName) = .ok content ∧
      document (decodeProject .toml) content = .ok (some (some layer))

/-- What the configuration files of a directory give: the settings file alone, if there is one, and
    else the table in the project file. Files named there are seen from the directory. -/
inductive Gives (fs : FileSystem) (d : Path) : Except SettingsError (Option Layer) → Prop where
  | broken {content : List Char} {cause : Option DecodeError} :
      fs.read (d.join settingsName) = .ok content →
      document (decode .toml) content = .error cause →
      Gives fs d (.error (.brokenSettings (d.join settingsName) cause))
  | settings {content : List Char} {layer : Layer} :
      fs.read (d.join settingsName) = .ok content →
      document (decode .toml) content = .ok layer → Gives fs d (.ok (some (layer.relativeTo d)))
  | project {content : List Char} {layer : Layer} :
      fs.read (d.join settingsName) = .error .notFound →
      fs.read (d.join projectName) = .ok content →
      document (decodeProject .toml) content = .ok (some (some layer)) →
      Gives fs d (.ok (some (layer.relativeTo d)))

/-- The search goes on above a directory without settings and above a broken project file. -/
def IsPassed (result : Except SettingsError (Option Layer)) : Prop :=
  result = .ok none ∨ ∃ file cause, result = .error (.brokenProject file cause)

/-- Two file systems have the same configuration files in a directory. The project file is left out
    where there is a settings file. -/
def Agrees (fs fs' : FileSystem) (d : Path) : Prop :=
  fs'.read (d.join settingsName) = fs.read (d.join settingsName) ∧
    (fs.read (d.join settingsName) = .error .notFound →
      fs'.read (d.join projectName) = fs.read (d.join projectName))

/-- Of the directories from one on up, this is the first that decides. -/
structure IsNearest (fs : FileSystem) (names nearest : List String) : Prop where
  above : nearest <+: names
  decides : Decides fs (ofNames nearest)
  first : ∀ below, nearest <+: below → below <+: names → below ≠ nearest →
    ¬ Decides fs (ofNames below)

/-! ## One directory -/

theorem contentOf?_of_ok {file : Path} {content : List Char}
    (readable : fs.read file = .ok content) : contentOf? fs file = .ok (some content) := by
  rw [contentOf?, readable]

theorem contentOf?_of_notFound {file : Path} (absent : fs.read file = .error .notFound) :
    contentOf? fs file = .ok none := by
  rw [contentOf?, absent]

theorem found_value (base : fs.absolute? d = some d) (file : Path) (layer : Layer) :
    (found fs d file layer).value = .ok (some (layer.relativeTo d)) := by
  rw [found, placed, base]

theorem fromDirectory_of_settings {content : List Char} (base : fs.absolute? d = some d)
    (readable : fs.read (d.join settingsName) = .ok content) :
    Gives fs d (fromDirectory fs d).value := by
  rw [fromDirectory, contentOf?_of_ok readable]
  simp only [ofSettings]
  cases decoded : document (decode .toml) content with
  | error cause => exact .broken readable decoded
  | ok layer =>
      simp only [Except.mapError, found_value base]
      exact .settings readable decoded

theorem fromDirectory_of_bare (absent : fs.read (d.join settingsName) = .error .notFound) :
    fromDirectory fs d = fromProject fs d := by
  rw [fromDirectory, contentOf?_of_notFound absent]

theorem fromProject_of_table {content : List Char} {layer : Layer} (base : fs.absolute? d = some d)
    (absent : fs.read (d.join settingsName) = .error .notFound)
    (readable : fs.read (d.join projectName) = .ok content)
    (decoded : document (decodeProject .toml) content = .ok (some (some layer))) :
    Gives fs d (fromProject fs d).value := by
  rw [fromProject, contentOf?_of_ok readable]
  simp only [ofProject, decoded, Except.mapError, found_value base]
  exact .project absent readable decoded

theorem passed_of_project {content : List Char}
    (readable : fs.read (d.join projectName) = .ok content)
    (undecided : ∀ layer, document (decodeProject .toml) content ≠ .ok (some (some layer))) :
    IsPassed (fromProject fs d).value := by
  rw [fromProject, contentOf?_of_ok readable]
  simp only [ofProject]
  match decoded : document (decodeProject .toml) content with
  | .error cause => exact .inr ⟨_, _, rfl⟩
  | .ok none => exact .inl rfl
  | .ok (some none) => exact .inl rfl
  | .ok (some (some layer)) => exact absurd decoded (undecided layer)

theorem fromDirectory_of_decides (regular : Regular fs d) (base : fs.absolute? d = some d)
    (decides : Decides fs d) : Gives fs d (fromDirectory fs d).value := by
  -- Only a settings file that is absent leaves the decision to the project file.
  cases settings : fs.read (d.join settingsName) with
  | ok content => exact fromDirectory_of_settings base settings
  | error error =>
      obtain rfl := regular settingsName (by simp) error settings
      rw [fromDirectory_of_bare settings]
      rcases decides with ⟨content, readable⟩ | ⟨content, layer, readable, decoded⟩
      · rw [settings] at readable
        cases readable
      · exact fromProject_of_table base settings readable decoded

theorem passed_of_not_decides (regular : Regular fs d) (undecided : ¬ Decides fs d) :
    IsPassed (fromDirectory fs d).value := by
  cases settings : fs.read (d.join settingsName) with
  | ok content => exact absurd (.inl ⟨content, settings⟩) undecided
  | error error =>
      obtain rfl := regular settingsName (by simp) error settings
      rw [fromDirectory_of_bare settings]
      cases project : fs.read (d.join projectName) with
      | ok content =>
          exact passed_of_project project fun layer decoded =>
            undecided (.inr ⟨content, layer, project, decoded⟩)
      | error error =>
          obtain rfl := regular projectName (by simp) error project
          rw [fromProject, contentOf?_of_notFound project]
          exact .inl rfl

theorem fromDirectory_agrees (base : fs'.absolute? d = fs.absolute? d) (agrees : Agrees fs fs' d) :
    (fromDirectory fs' d).value = (fromDirectory fs d).value := by
  have found (file : Path) (layer : Layer) : found fs' d file layer = found fs d file layer := by
    rw [Layer.found, Layer.found, placed, placed, base]
  obtain ⟨settings, project⟩ := agrees
  rw [fromDirectory, fromDirectory, contentOf?, contentOf?, settings]
  split
  · rfl
  · next nothing =>
      split at nothing
      · cases nothing
      · next absent =>
          rw [fromProject, fromProject, contentOf?, contentOf?, project absent]
          simp only [found]
      · cases nothing
  · simp only [found]

theorem Gives.unique {a b : Except SettingsError (Option Layer)} (first : Gives fs d a)
    (second : Gives fs d b) : a = b := by
  cases first with
  | broken readable decoded =>
      cases second with
      | broken readable' decoded' =>
          cases readable.symm.trans readable'
          cases decoded.symm.trans decoded'
          rfl
      | settings readable' decoded' =>
          cases readable.symm.trans readable'
          cases decoded.symm.trans decoded'
      | project absent => cases readable.symm.trans absent
  | settings readable decoded =>
      cases second with
      | broken readable' decoded' =>
          cases readable.symm.trans readable'
          cases decoded.symm.trans decoded'
      | settings readable' decoded' =>
          cases readable.symm.trans readable'
          cases decoded.symm.trans decoded'
          rfl
      | project absent => cases readable.symm.trans absent
  | project absent readable decoded =>
      cases second with
      | broken readable' | settings readable' => cases absent.symm.trans readable'
      | project _ readable' decoded' =>
          cases readable.symm.trans readable'
          cases decoded.symm.trans decoded'
          rfl

/-- A directory to which directories lead is regular if its configuration files are texts. -/
theorem regular_of_texts (proper : ∀ n ∈ names, IsName n)
    (follows : ∀ file ∈ [settingsName, projectName], fs.Follows (names ++ [file.text]))
    (texts : ∀ file ∈ [settingsName, projectName], ∀ node,
      fs.node? (names ++ [file.text]) = some node → ∃ content, node = .text content) :
    Regular fs (ofNames names) := by
  intro file member error failed
  have name : IsName file.text := by
    simp only [List.mem_cons, List.not_mem_nil, or_false] at member
    rcases member with rfl | rfl <;> decide
  have deeper : ∀ m ∈ names ++ [file.text], IsName m := by
    intro m inside
    rcases List.mem_append.mp inside with above | last
    · exact proper m above
    · rwa [List.mem_singleton.mp last]
  rw [join_ofNames proper name, FileSystem.read_ofNames deeper (by simp) (follows file member)]
    at failed
  cases found : fs.node? (names ++ [file.text]) with
  | none =>
      simp only [found] at failed
      cases failed
      rfl
  | some node =>
      obtain ⟨content, rfl⟩ := texts file member node found
      simp only [found] at failed
      cases failed

/-! ## The way up -/

theorem findIn_of_passed (passed : IsPassed (fromDirectory fs d).value) (rest : List Path) :
    (findIn fs (d :: rest)).value = (findIn fs rest).value := by
  rw [findIn]
  rcases passed with nothing | ⟨file, cause, broken⟩
  · simp only [nothing]
  · simp only [broken]

theorem findIn_of_gives {result : Except SettingsError (Option Layer)} (gives : Gives fs' d result)
    (here : (fromDirectory fs d).value = result) (rest : List Path) :
    (findIn fs (d :: rest)).value = result := by
  rw [findIn]
  cases gives <;> simp only [here]

theorem exists_ancestors (p : Path) : ∃ rest, p.ancestors = p :: rest := by
  unfold ancestors ancestors.go
  split
  · exact ⟨_, rfl⟩
  · exact ⟨[], rfl⟩

theorem find_of_gives {result : Except SettingsError (Option Layer)} (gives : Gives fs' d result)
    (here : (fromDirectory fs d).value = result) : (find fs d).value = result := by
  obtain ⟨rest, first⟩ := exists_ancestors d
  rw [find, first, findIn_of_gives gives here]

theorem find_of_passed {n : String} (proper : ∀ m ∈ names ++ [n], IsName m)
    (passed : IsPassed (fromDirectory fs (ofNames (names ++ [n]))).value) :
    (find fs (ofNames (names ++ [n]))).value = (find fs (ofNames names)).value := by
  rw [find, ancestors_ofNames proper, findIn_of_passed passed, find]

/-- Directories that do not decide are passed, up to one that may. -/
theorem find_eq_above (proper : ∀ n ∈ names, IsName n)
    (regular : ∀ place, place <+: names → Regular fs (ofNames place)) (above : place <+: names)
    (undecided : ∀ below, place <+: below → below <+: names → below ≠ place →
      ¬ Decides fs (ofNames below)) :
    (find fs (ofNames names)).value = (find fs (ofNames place)).value := by
  -- A step up drops the last name, so the induction is on the names from the end.
  induction names using List.reverseRecOn with
  | nil => rw [List.prefix_nil.mp above]
  | append_singleton names n ih =>
      rcases List.prefix_concat_iff.mp above with rfl | higher
      · rfl
      · have shorter : names <+: names ++ [n] := List.prefix_append names [n]
        have apart : names ++ [n] ≠ place := by
          rintro rfl
          have longer := higher.length_le
          rw [List.length_append, List.length_singleton] at longer
          omega
        have passed := passed_of_not_decides (regular _ List.prefix_rfl)
          (undecided _ above List.prefix_rfl apart)
        rw [find_of_passed proper passed]
        refine ih (fun m member => proper m (List.mem_append_left _ member)) ?_ higher ?_
        · exact fun place part => regular place (part.trans shorter)
        · exact fun below lower part => undecided below lower (part.trans shorter)

theorem gives_of_decides (proper : ∀ n ∈ names, IsName n) (regular : Regular fs (ofNames names))
    (decides : Decides fs (ofNames names)) :
    Gives fs (ofNames names) (fromDirectory fs (ofNames names)).value :=
  fromDirectory_of_decides regular (absolute?_ofNames proper _) decides

namespace IsNearest

theorem proper (nearest : IsNearest fs names place) (proper : ∀ n ∈ names, IsName n) :
    ∀ n ∈ place, IsName n :=
  fun n member => proper n (nearest.above.subset member)

theorem find_eq (nearest : IsNearest fs names place) (proper : ∀ n ∈ names, IsName n)
    (regular : ∀ place, place <+: names → Regular fs (ofNames place)) :
    (find fs (ofNames names)).value = (find fs (ofNames place)).value :=
  find_eq_above proper regular nearest.above nearest.first

theorem gives (nearest : IsNearest fs names place) (proper : ∀ n ∈ names, IsName n)
    (regular : ∀ place, place <+: names → Regular fs (ofNames place)) :
    Gives fs (ofNames place) (find fs (ofNames names)).value := by
  have here := gives_of_decides (nearest.proper proper) (regular place nearest.above)
    nearest.decides
  rw [nearest.find_eq proper regular, find_of_gives here rfl]
  exact here

end IsNearest

section

variable (proper : ∀ n ∈ names, IsName n) (agrees : Agrees fs fs' (ofNames names))
include proper agrees

end

end PinFloor.Layer
