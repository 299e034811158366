import Mathlib
import PinFloor.Proofs.Directories
import PinFloor.Proofs.Settings.Discovery

/-! # Project files that cannot be understood

A project file that cannot be understood never ends the search for settings. As long as it is a
text, the search goes on as if the file were not there, and so it does if the file has no table of
this tool. A file that is no text ends the search once the search comes to it.
-/

namespace PinFloor.Layer

open PinFloor.Path

variable {fs fs' : FileSystem} {d a : Path} {dirs : List Path} {place file above : List String}
  {content : List Char}

/-- A search through directories comes to one: all those before it are passed. -/
inductive Comes (fs : FileSystem) : List Path → Path → Prop where
  | here (a : Path) (rest : List Path) : Comes fs (a :: rest) a
  | further {b a : Path} {rest : List Path} :
      IsPassed (fromDirectory fs b).value → Comes fs rest a → Comes fs (b :: rest) a

/-- The project file of a directory is at a place, and no settings file keeps it from being read. -/
structure Looks (fs : FileSystem) (a : Path) (file : List String) : Prop where
  bare : fs.read (a.join settingsName) = .error .notFound
  project : fs.resolve (a.join projectName) = .ok file

/-- A search for settings comes to a project file, from the directory that it is in. -/
def Meets (fs : FileSystem) (d : Path) (file : List String) (a : Path) : Prop :=
  Comes fs d.ancestors a ∧ Looks fs a file

/-- A project file without settings: it cannot be understood, or it has no table of this tool. -/
def IsUnsettled (content : List Char) : Prop :=
  ∀ layer, document (decodeProject .toml) content ≠ .ok (some (some layer))

/-! ## The search -/

theorem Comes.mem (comes : Comes fs dirs a) : a ∈ dirs := by
  induction comes with
  | here a rest => exact List.mem_cons_self
  | further _ _ ih => exact List.mem_cons_of_mem _ ih

theorem findIn_of_not_passed (stays : ¬ IsPassed (fromDirectory fs a).value) (rest : List Path) :
    (findIn fs (a :: rest)).value = (fromDirectory fs a).value := by
  rw [findIn]
  cases here : (fromDirectory fs a).value with
  | ok found =>
      cases found with
      | none => exact absurd (.inl here) stays
      | some layer => rfl
  | error e =>
      cases e with
      | brokenProject file cause => exact absurd (.inr ⟨file, cause, here⟩) stays
      | unreadable | emptyPath | brokenSettings => rfl

theorem findIn_ne_brokenProject (fs : FileSystem) (dirs : List Path) (file : Path)
    (cause : Option DecodeError) : (findIn fs dirs).value ≠ .error (.brokenProject file cause) := by
  induction dirs with
  | nil => rintro ⟨⟩
  | cons a dirs ih =>
      by_cases passed : IsPassed (fromDirectory fs a).value
      · rw [findIn_of_passed passed]
        exact ih
      · rw [findIn_of_not_passed passed]
        exact fun broken => passed (.inr ⟨file, cause, broken⟩)

theorem findIn_of_comes (comes : Comes fs dirs a) (stays : ¬ IsPassed (fromDirectory fs a).value) :
    (findIn fs dirs).value = (fromDirectory fs a).value := by
  induction comes with
  | here a rest => exact findIn_of_not_passed stays rest
  | further passed _ ih => rw [findIn_of_passed passed, ih stays]

/-- Two searches end alike if each directory they come to gives the same or is passed in both. -/
theorem findIn_agrees (agrees : ∀ a, Comes fs dirs a →
      (fromDirectory fs' a).value = (fromDirectory fs a).value ∨
        IsPassed (fromDirectory fs a).value ∧ IsPassed (fromDirectory fs' a).value) :
    (findIn fs' dirs).value = (findIn fs dirs).value := by
  induction dirs with
  | nil => rfl
  | cons a dirs ih =>
      have onward (passed : IsPassed (fromDirectory fs a).value) :
          (findIn fs' dirs).value = (findIn fs dirs).value :=
        ih fun b comes => agrees b (.further passed comes)
      rcases agrees a (.here a dirs) with same | ⟨passed, passed'⟩
      · by_cases passed : IsPassed (fromDirectory fs a).value
        · rw [findIn_of_passed passed, findIn_of_passed (same ▸ passed), onward passed]
        · rw [findIn_of_not_passed passed, findIn_of_not_passed (same ▸ passed), same]
      · rw [findIn_of_passed passed, findIn_of_passed passed', onward passed]

/-! ## A project file in its directory -/

theorem isName_settings : IsName settingsName.text := by decide

theorem isName_project : IsName projectName.text := by decide

theorem read_of_resolve {p : Path} (resolved : fs.resolve p = .ok file) :
    fs.read p = fs.contentAt file := by
  rw [FileSystem.read, resolved]
  rfl

section

variable (isFile : fs.IsFile file) (leads : fs.Leads a place)
include isFile leads

theorem resolve_project_iff : fs.resolve (a.join projectName) = .ok file ↔
    (a.join projectName).refusal? = none ∧ place ++ [projectName.text] = file := by
  have resolved := FileSystem.resolve_join leads isName_project (by decide)
  obtain ⟨node, found, -⟩ := isFile.found
  rw [resolved]
  split
  · next refused =>
      refine iff_of_false (by simp) ?_
      rintro ⟨allowed, -⟩
      cases allowed.symm.trans refused
  · next allowed =>
      refine Iff.trans ?_ (and_iff_right allowed).symm
      split
      · next missing =>
          refine iff_of_false (by simp) ?_
          intro whole
          rw [whole, found] at missing
          cases missing
      · exact ⟨Except.ok.inj, congrArg Except.ok⟩

theorem read_settings_erase (ends : file = above ++ [projectName.text]) :
    (fs.erase file).read (a.join settingsName) = fs.read (a.join settingsName) := by
  have apart : place ++ [settingsName.text] ≠ file := by
    rw [ends]
    intro same
    exact absurd (List.append_inj_right' same rfl) (by decide)
  have before := FileSystem.read_join leads isName_settings (by decide)
  have after := FileSystem.read_join (isFile.leads_erase leads) isName_settings (by decide)
  rw [isFile.contentAt_erase_of_ne apart] at after
  exact after.trans before.symm

theorem read_project_erase (elsewhere : fs.resolve (a.join projectName) ≠ .ok file) :
    (fs.erase file).read (a.join projectName) = fs.read (a.join projectName) := by
  have before := FileSystem.read_join leads isName_project (by decide)
  have after := FileSystem.read_join (isFile.leads_erase leads) isName_project (by decide)
  rw [ne_eq, resolve_project_iff isFile leads, not_and] at elsewhere
  refine (after.trans ?_).trans before.symm
  split
  · rfl
  · next allowed => rw [isFile.contentAt_erase_of_ne (elsewhere allowed)]

theorem read_project_erase_self (here : fs.resolve (a.join projectName) = .ok file) :
    (fs.erase file).read (a.join projectName) = .error .notFound := by
  obtain ⟨allowed, whole⟩ := (resolve_project_iff isFile leads).mp here
  have after := FileSystem.read_join (isFile.leads_erase leads) isName_project (by decide)
  rw [whole, isFile.contentAt_erase_self] at after
  refine after.trans ?_
  split
  · next refused => cases allowed.symm.trans refused
  · rfl

end

/-! ## With and without a project file -/

theorem value_found (fs : FileSystem) (d file : Path) (layer : Layer) :
    (found fs d file layer).value = (placed fs d layer).map some := by
  rw [found]
  cases placed fs d layer <;> rfl

theorem fromDirectory_erase (isFile : fs.IsFile file) (ends : file = above ++ [projectName.text])
    (leads : fs.Leads a place) (unseen : ¬ Looks fs a file) :
    (fromDirectory (fs.erase file) a).value = (fromDirectory fs a).value := by
  refine fromDirectory_agrees rfl ⟨read_settings_erase isFile leads ends, fun bare => ?_⟩
  exact read_project_erase isFile leads fun project => unseen ⟨bare, project⟩

theorem passed_erase (isFile : fs.IsFile file) (ends : file = above ++ [projectName.text])
    (leads : fs.Leads a place) (looks : Looks fs a file) :
    IsPassed (fromDirectory (fs.erase file) a).value := by
  have bare := (read_settings_erase isFile leads ends).trans looks.bare
  have absent := read_project_erase_self isFile leads looks.project
  rw [fromDirectory_of_bare bare, fromProject, contentOf?_of_notFound absent]
  exact .inl rfl

theorem passed_of_unsettled (looks : Looks fs a file) (text : fs.node? file = some (.text content))
    (unsettled : IsUnsettled content) : IsPassed (fromDirectory fs a).value := by
  have readable := read_of_resolve looks.project
  rw [FileSystem.contentAt, text] at readable
  rw [fromDirectory_of_bare looks.bare]
  exact passed_of_project readable unsettled

theorem fromDirectory_of_binary (looks : Looks fs a file) (binary : fs.node? file = some .binary) :
    (fromDirectory fs a).value = .error (.unreadable (a.join projectName) .notText) := by
  have unreadable := read_of_resolve looks.project
  rw [FileSystem.contentAt, binary] at unreadable
  rw [fromDirectory_of_bare looks.bare, fromProject, contentOf?, unreadable]
  rfl

theorem fromDirectory_of_table {layer : Layer} (looks : Looks fs a file)
    (text : fs.node? file = some (.text content))
    (decoded : document (decodeProject .toml) content = .ok (some (some layer))) :
    (fromDirectory fs a).value = (placed fs a layer).map some := by
  have readable := read_of_resolve looks.project
  rw [FileSystem.contentAt, text] at readable
  rw [fromDirectory_of_bare looks.bare, fromProject, contentOf?_of_ok readable]
  simp only [ofProject, decoded, Except.mapError, value_found]

theorem not_passed_of_placed (layer : Layer) : ¬ IsPassed ((placed fs a layer).map some) := by
  rw [placed]
  cases fs.absolute? a <;> rintro (⟨⟨⟩⟩ | ⟨file, cause, ⟨⟩⟩)

theorem find_of_meets (meets : Meets fs d file a) (stays : ¬ IsPassed (fromDirectory fs a).value) :
    (find fs d).value = (fromDirectory fs a).value :=
  findIn_of_comes meets.1 stays

/-- The search is the same without a project file, if the file is never met or has no settings. -/
theorem find_erase (isFile : fs.IsFile file) (ends : file = above ++ [projectName.text])
    (leads : fs.Leads d place)
    (passed : ∀ a, Meets fs d file a → IsPassed (fromDirectory fs a).value) :
    (find (fs.erase file) d).value = (find fs d).value := by
  refine findIn_agrees fun a comes => ?_
  obtain ⟨place, leads⟩ := leads.ancestors a comes.mem
  by_cases looks : Looks fs a file
  · exact .inr ⟨passed a ⟨comes, looks⟩, passed_erase isFile ends leads looks⟩
  · exact .inl (fromDirectory_erase isFile ends leads looks)

/-- A search for settings never fails because a project file cannot be understood. If the file is a
    text, the search ends as it does without the file, and so it does if the file has no settings or
    is never met. A project file that is met decides the search with the settings in it, or ends it
    if it is no text. -/
theorem project_file_passed_unless_binary (fs : FileSystem) (d : Path) (place : List String)
    (leads : fs.Leads d place) :
    (∀ file cause, (find fs d).value ≠ .error (.brokenProject file cause)) ∧
    ∀ above, let file := above ++ [projectName.text]
      fs.IsFile file →
      (∀ content, fs.node? file = some (.text content) → IsUnsettled content →
        (find (fs.erase file) d).value = (find fs d).value) ∧
      ((∀ a, ¬ Meets fs d file a) → (find (fs.erase file) d).value = (find fs d).value) ∧
      ∀ a, Meets fs d file a →
        (∀ content layer, fs.node? file = some (.text content) →
          document (decodeProject .toml) content = .ok (some (some layer)) →
          (find fs d).value = (placed fs a layer).map some) ∧
        (fs.node? file = some .binary →
          (find fs d).value = .error (.unreadable (a.join projectName) .notText)) := by
  refine ⟨fun file cause => findIn_ne_brokenProject fs d.ancestors file cause, ?_⟩
  intro above file isFile
  refine ⟨?unsettled, ?unmet, fun a meets => ⟨?table, ?binary⟩⟩
  case unsettled =>
    intro content text unsettled
    exact find_erase isFile rfl leads fun a meets => passed_of_unsettled meets.2 text unsettled
  case unmet =>
    intro unmet
    exact find_erase isFile rfl leads fun a meets => absurd meets (unmet a)
  case table =>
    intro content layer text decoded
    have value := fromDirectory_of_table meets.2 text decoded
    rw [find_of_meets meets (value ▸ not_passed_of_placed layer), value]
  case binary =>
    intro binary
    have value := fromDirectory_of_binary meets.2 binary
    rw [find_of_meets meets ?_, value]
    rw [value]
    rintro (⟨⟨⟩⟩ | ⟨file, cause, ⟨⟩⟩)

/-- A project file that is no document is passed over, and one further up that is no text ends the
    search. Without that one there are the settings of the root directory. -/
theorem binary_project_file_ends_search :
    let broken := ['[']
    let settings := ['s', 't', 'r', 'i', 'c', 't', '=', 't', 'r', 'u', 'e']
    let fs : FileSystem := ⟨[], [
      (["w", "p", "pyproject.toml"], .text broken), (["w", "pyproject.toml"], .binary),
      (["mincheck.toml"], .text settings)]⟩
    fs.Leads ⟨"/w/p"⟩ ["w", "p"] ∧
      fs.IsFile ["w", "p", "pyproject.toml"] ∧ IsUnsettled broken ∧
      fs.IsFile ["w", "pyproject.toml"] ∧ Meets fs ⟨"/w/p"⟩ ["w", "pyproject.toml"] ⟨"/w"⟩ ∧
      (find (fs.erase ["w", "p", "pyproject.toml"]) ⟨"/w/p"⟩).value = (find fs ⟨"/w/p"⟩).value ∧
      (find fs ⟨"/w/p"⟩).value = .error (.unreadable ⟨"/w/pyproject.toml"⟩ .notText) ∧
      (find (fs.erase ["w", "pyproject.toml"]) ⟨"/w/p"⟩).value
        = .ok (some { strict := some true }) := by
  intro broken settings fs
  have leads : fs.Leads ⟨"/w/p"⟩ ["w", "p"] := ⟨by rfl, by rfl⟩
  have below : fs.IsFile ["w", "p", "pyproject.toml"] := ⟨⟨_, rfl, by simp⟩, by decide, by decide⟩
  have binary : fs.IsFile ["w", "pyproject.toml"] := ⟨⟨_, rfl, by simp⟩, by decide, by decide⟩
  have unread : document (decodeProject .toml) broken = .error none := by cbv
  have unsettled : IsUnsettled broken := by
    intro layer decoded
    cases unread.symm.trans decoded
  have looks : Looks fs ⟨"/w/p"⟩ ["w", "p", "pyproject.toml"] := ⟨by rfl, by rfl⟩
  have passed : IsPassed (fromDirectory fs ⟨"/w/p"⟩).value :=
    passed_of_unsettled looks (by rfl) unsettled
  have up : (⟨"/w/p"⟩ : Path).ancestors = [⟨"/w/p"⟩, ⟨"/w"⟩, ⟨"/"⟩] := by decide
  have meets : Meets fs ⟨"/w/p"⟩ ["w", "pyproject.toml"] ⟨"/w"⟩ :=
    ⟨up ▸ .further passed (.here _ _), by rfl, by rfl⟩
  obtain ⟨-, each⟩ := project_file_passed_unless_binary fs ⟨"/w/p"⟩ ["w", "p"] leads
  refine ⟨leads, below, unsettled, binary, meets, ?_, ?_, ?_⟩
  · exact (each ["w", "p"] below).1 broken rfl unsettled
  · exact ((each ["w"] binary).2.2 ⟨"/w"⟩ meets).2 rfl
  · have read : document (decode .toml) settings = .ok { strict := some true } := by cbv
    have root : Gives (fs.erase ["w", "pyproject.toml"]) ⟨"/"⟩
        (fromDirectory (fs.erase ["w", "pyproject.toml"]) ⟨"/"⟩).value :=
      fromDirectory_of_settings (absolute?_ofNames (List.forall_mem_nil IsName) _) (by rfl)
    have looks : Looks (fs.erase ["w", "pyproject.toml"]) ⟨"/w/p"⟩ ["w", "p", "pyproject.toml"] :=
      ⟨by rfl, by rfl⟩
    rw [find, up, findIn_of_passed (passed_of_unsettled looks (by rfl) unsettled),
      findIn_of_passed (.inl (by rfl)), findIn_of_gives root rfl]
    exact root.unique (.settings (by rfl) read)

end PinFloor.Layer
