import PinFloor.Proofs.RequirementsFile.NameSpelling
import PinFloor.Proofs.RequirementsFile.Roles
import PinFloor.Proofs.Version.Canonical
import PinFloor.Specifier.Parser

/-! # Specifiers as they are read

The version of a specifier that was read is one that can be read, and before `.*` it is a plain
release. This holds of the specifiers of every entry that is loaded.
-/

namespace PinFloor

/-- The version with a release and an epoch, and nothing else. -/
def Version.IsPlain (v : Version) : Prop :=
  v = { Version.ofRelease v.release with epoch := v.epoch }

/-- A specifier as it is read. -/
structure Specifier.IsProper (s : Specifier) : Prop where
  version : s.version.IsProper
  plain : s.operator = .matching → s.version.IsPlain

namespace Specifier

variable {operator : Operator} {pattern : VersionPattern} {s : Specifier} {cs : List Char}
  {specifiers : List Specifier}

theorem exists_of_mem_mapM {α β : Type} {f : α → Option β} {xs : List α} {ys : List β} {y : β}
    (mapped : xs.mapM f = some ys) (member : y ∈ ys) : ∃ x ∈ xs, f x = some y := by
  induction xs generalizing ys with
  | nil =>
      cases mapped
      cases member
  | cons x xs ih =>
      simp only [List.mapM_cons, Option.bind_eq_bind, Option.bind_eq_some_iff,
        Option.pure_def, Option.some.injEq] at mapped
      obtain ⟨first, here, rest, later, rfl⟩ := mapped
      rcases List.mem_cons.mp member with rfl | member
      · exact ⟨x, List.mem_cons_self, here⟩
      · obtain ⟨z, inside, found⟩ := ih later member
        exact ⟨z, List.mem_cons_of_mem x inside, found⟩

theorem eq_of_make? {version : Version} (made : make? operator version = some s) :
    s = ⟨operator, version⟩ := by
  unfold make? at made
  split at made
  · cases made
  · split at made
    · cases made
    · exact (Option.some.inj made).symm

theorem proper_of_ofPattern? (version : pattern.version.IsProper)
    (plain : pattern.wildcard = true → pattern.version.IsPlain) (single : operator ≠ .matching)
    (read : ofPattern? operator pattern = some s) : s.IsProper := by
  unfold ofPattern? at read
  split at read
  · next wildcard =>
      obtain ⟨wild, -, made⟩ := Option.bind_eq_some_iff.mp read
      rw [eq_of_make? made]
      exact ⟨version, fun _ => plain wildcard⟩
  · rw [eq_of_make? read]
    exact ⟨version, fun same => absurd same single⟩

theorem plain_of_pattern? (read : Version.pattern? cs = some pattern)
    (wildcard : pattern.wildcard = true) : pattern.version.IsPlain := by
  unfold Version.pattern? at read
  split at read
  · cases read
  · split at read
    · cases read
      rfl
    · obtain ⟨v, -, same⟩ := Option.map_eq_some_iff.mp read
      cases same
      cases wildcard

theorem proper_of_parse? (read : parse? cs = some s) : s.IsProper := by
  unfold parse? at read
  obtain ⟨operator, signed, read⟩ := Option.bind_eq_some_iff.mp read
  have single : operator ≠ .matching := by
    rintro rfl
    have listed := List.mem_of_find?_eq_some signed
    simp at listed
  simp only at read
  split at read
  · cases read
  · obtain ⟨pattern, versioned, read⟩ := Option.bind_eq_some_iff.mp read
    exact proper_of_ofPattern? (Version.proper_of_pattern? versioned)
      (plain_of_pattern? versioned) single read

theorem proper_of_parseList? (read : parseList? cs = some specifiers) :
    ∀ s ∈ specifiers, s.IsProper := by
  obtain ⟨list, parts, rfl⟩ := Option.map_eq_some_iff.mp read
  intro s member
  rw [sorted, List.mem_mergeSort] at member
  obtain ⟨part, -, parsed⟩ := exists_of_mem_mapM parts member
  exact proper_of_parse? parsed

end Specifier

/-! ## Entries -/

/-- The specifiers of an entry are as they are read. -/
def Entry.IsProper (e : Entry) : Prop :=
  ∀ specifiers, e.specifiers? = some specifiers → ∀ s ∈ specifiers, s.IsProper

namespace Requirement

variable {cs rest : List Char}

theorem proper_of_source? {source : Source} {specifiers : List Specifier}
    (read : source? cs = some (source, rest)) (listed : source.specifiers? = some specifiers) :
    ∀ s ∈ specifiers, s.IsProper := by
  have proper {cs left : List Char}
      (read : (Specifier.parseList? cs).map (fun list => (Source.specifiers list, left))
        = some (source, rest)) : ∀ s ∈ specifiers, s.IsProper := by
    obtain ⟨list, parsed, same⟩ := Option.map_eq_some_iff.mp read
    cases same
    cases listed
    exact Specifier.proper_of_parseList? parsed
  unfold source? at read
  split at read
  · cases read
    cases listed
  · cases read
    cases listed
  · obtain ⟨_, -, read⟩ := Option.bind_eq_some_iff.mp read
    simp only at read
    split at read
    · cases read
    · obtain ⟨url, -, same⟩ := Option.bind_eq_some_iff.mp read
      cases same
      cases listed
  · split at read
    · exact proper read
    · cases read
  · split at read
    · exact proper read
    · cases read

theorem proper_of_parse? {r : Requirement} {specifiers : List Specifier}
    (read : parse? cs = some r) (listed : r.source.specifiers? = some specifiers) :
    ∀ s ∈ specifiers, s.IsProper := by
  simp only [parse?, Option.bind_eq_bind, Option.bind_eq_some_iff] at read
  obtain ⟨_, -, _, -, ⟨source, left⟩, sourced, read⟩ := read
  split at read
  · cases read
  · obtain ⟨_, -, same⟩ := Option.bind_eq_some_iff.mp read
    cases same
    exact proper_of_source? sourced listed

end Requirement

namespace Loading

variable {fs : FileSystem}

theorem proper_of_load {path : Path} {content : RequirementsFile}
    (loaded : (RequirementsFile.load fs path).value = .ok content) :
    ∀ e ∈ content.requirements ++ content.constraints, e.IsProper := by
  have each : ∀ text line r hashes, ⟨line, .requirement r hashes⟩ ∈ (Script.read text).statements →
      ∀ specifiers, r.source.specifiers? = some specifiers → ∀ s ∈ specifiers, s.IsProper := by
    intro text line r hashes member specifiers listed
    obtain ⟨_, _, parsed, -⟩ := Script.exists_parsed member
    exact Requirement.proper_of_parse? parsed listed
  rw [load_eq_ofTarget] at loaded
  obtain ⟨text, -, loaded⟩ := ofTarget_ok.mp loaded
  exact forall_mem_entries each (each text) loaded

end Loading

namespace Manifest

variable {fs : FileSystem} {m : Manifest}

/-- All specifiers of a manifest's entries are as they are read. -/
def IsProper (m : Manifest) : Prop :=
  ∀ e ∈ m.requirements ++ m.constraints, e.IsProper

theorem IsProper.add {content : RequirementsFile} (proper : m.IsProper)
    (added : ∀ e ∈ content.requirements ++ content.constraints, e.IsProper) (role : Role) :
    (m.add role content).IsProper := by
  intro e member
  have source : e ∈ m.requirements ++ m.constraints ∨
      e ∈ content.requirements ++ content.constraints := by
    cases role <;> simp only [Manifest.add, List.mem_append] at member ⊢ <;> tauto
  rcases source with before | new
  · exact proper e before
  · exact added e new

theorem proper_of_addFiles {files : List (Role × Path)} {result : Manifest} (proper : m.IsProper)
    (loaded : (addFiles fs m files).value = .ok result) : result.IsProper := by
  induction files generalizing m with
  | nil =>
      cases loaded
      exact proper
  | cons given files ih =>
      obtain ⟨role, path⟩ := given
      obtain ⟨content, first, rest⟩ := addFiles_cons_ok.mp loaded
      exact ih (proper.add (Loading.proper_of_load first) role) rest

theorem proper_of_ofFiles {requirements constraints : List Path}
    (loaded : (ofFiles fs requirements constraints).value = .ok m) : m.IsProper := by
  refine proper_of_addFiles ?_ loaded
  intro e member
  cases member

end Manifest

end PinFloor
