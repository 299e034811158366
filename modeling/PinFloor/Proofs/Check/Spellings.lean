import Mathlib.Data.List.Forall2
import PinFloor.Proofs.Check.Findings
import PinFloor.Proofs.RequirementsFile.Loading
import PinFloor.Proofs.RequirementsFile.Respelling

/-! # Names in any spelling

Packages are told apart by the normal forms of their names. So the names of entries and of ignored
packages may be spelled in any way: the same is loaded, and a check reports the same.
-/

namespace PinFloor

open PackageName

variable {fs fs' : FileSystem} {admits : Source → List Char → Prop} {content content' : List Char}

/-! ## Loading -/

/-- A file system, and one whose files are the same but for the spelling of names in them. -/
structure FileSystem.Respelled (fs fs' : FileSystem) : Prop where
  identity : ∀ path, fs'.identity path = fs.identity path
  read : ∀ path, fs'.read path = fs.read path ∨ ∃ content content',
    fs.read path = .ok content ∧ fs'.read path = .ok content' ∧
      PinFloor.Respelled Admissible content content'

namespace Loading

variable {opened : List Identity} {file target : Path}

theorem ofTarget_respelled (same : fs.Respelled fs')
    (inner : ∀ content, fs.read target = .ok content →
      ofStatements fs' (opened ++ [fs.identity target]) target (Script.read content).fault?
          (Script.read content).statements =
        ofStatements fs (opened ++ [fs.identity target]) target (Script.read content).fault?
          (Script.read content).statements) :
    ofTarget fs' opened target = ofTarget fs opened target := by
  rw [ofTarget, ofTarget, same.identity]
  rcases same.read target with equal | ⟨content, content', found, found', respelled⟩
  · rw [equal]
    split
    · rfl
    · next content found => rw [inner content found]
  · rw [found, found']
    simp only [respelled.read, inner content found]

/-- Loading finds the same in files with other spellings of names. -/
theorem ofStatements_respelled (same : fs.Respelled fs') (opened : List Identity) (file : Path)
    (fault? : Option Fault) (statements : List PlacedStatement) :
    ofStatements fs' opened file fault? statements =
      ofStatements fs opened file fault? statements := by
  induction opened, file, fault?, statements using statements_induction fs with
  | nil opened file fault? => rw [ofStatements_nil, ofStatements_nil]
  | cons opened file fault? s rest inner later =>
      rw [ofStatements_cons, ofStatements_cons, later]
      congr 1
      obtain ⟨line, statement⟩ := s
      cases statement with
      | «include» kind name =>
          rw [ofStatement, ofStatement, same.identity]
          split
          · rfl
          · next closed =>
              have outside : fs.identity (file.sibling name) ∉ opened := by simpa using closed
              rw [ofTarget_respelled same fun content readable =>
                inner kind name content rfl outside readable]
      | requirement | editable | unnamed | option => rfl

end Loading

/-- A text with other spellings of names is loaded as the same content. -/
theorem RequirementsFile.loadText_respelled (same : fs.Respelled fs')
    (respelled : Respelled Admissible content content') (path : Path) :
    loadText fs' content' path = loadText fs content path := by
  rw [loadText, loadText, respelled.read, same.identity]
  exact Loading.ofStatements_respelled same _ _ _ _

/-- The content of a file with a bare name in its first line. -/
def RequirementsFile.ofBareName (path : Path) (n : List Char) : RequirementsFile where
  requirements := [⟨bareRequirement n, [], ⟨path, 1⟩⟩]

theorem RequirementsFile.loadText_bareName (fs : FileSystem) (path : Path) {n : List Char}
    (name : IsName n) : (loadText fs (n ++ ['\n']) path).value =
      if Requirement.looksLikeArchive n then .error (.invalidRequirement path 1)
      else .ok (ofBareName path n) := by
  rw [loadText, Script.read_bareName name]
  cases Requirement.looksLikeArchive n with
  | true =>
      simp only [if_true, Loading.ofStatements_nil]
      rfl
  | false =>
      simp only [Bool.false_eq_true, if_false]
      rw [Loading.ofStatements_cons, Loading.ofStatements_nil]
      rfl

/-! ## Checking -/

/-- A text that is given as the content of a file, in a role. -/
structure GivenText where
  role : Role
  path : Path
  content : List Char

/-- A text, and the text with other spellings of names, as the content of the same file. -/
structure GivenText.Respelled (admits : Source → List Char → Prop) (a b : GivenText) : Prop where
  role : b.role = a.role
  path : b.path = a.path
  content : PinFloor.Respelled admits a.content b.content

/-- Loads texts and adds them in their roles, up to the first error. -/
def Manifest.addTexts (fs : FileSystem) (m : Manifest) : List GivenText → Except LoadError Manifest
  | [] => .ok m
  | text :: rest =>
      match (RequirementsFile.loadText fs text.content text.path).value with
      | .error error => .error error
      | .ok file => addTexts fs (m.add text.role file) rest

section

variable {role : Role} {path : Path} (m : Manifest) (rest : List GivenText)

theorem Manifest.addTexts_of_ok {file : RequirementsFile}
    (loaded : (RequirementsFile.loadText fs content path).value = .ok file) :
    addTexts fs m (⟨role, path, content⟩ :: rest) = addTexts fs (m.add role file) rest := by
  rw [addTexts, loaded]

theorem Manifest.addTexts_of_error {error : LoadError}
    (failed : (RequirementsFile.loadText fs content path).value = .error error) :
    addTexts fs m (⟨role, path, content⟩ :: rest) = .error error := by
  rw [addTexts, failed]

end

theorem Manifest.addTexts_respelled {texts texts' : List GivenText} (same : fs.Respelled fs')
    (respelled : List.Forall₂ (GivenText.Respelled Admissible) texts texts') (m : Manifest) :
    addTexts fs' m texts' = addTexts fs m texts := by
  induction respelled generalizing m with
  | nil => rfl
  | cons text _ ih =>
      rw [addTexts, addTexts, text.role, text.path,
        RequirementsFile.loadText_respelled same text.content]
      simp only [ih]

/-- A way in which names are read. -/
def ReadsNames (read : String → Except InvalidName PackageName) : Prop :=
  ∀ name, read name = PackageName.parse name ∨ read name = PackageName.adopt name

theorem ReadsNames.eq_parse {read : String → Except InvalidName PackageName}
    (reads : ReadsNames read) (name : String) : read name = PackageName.parse name := by
  rcases reads name with same | same
  · exact same
  · rw [same, adopt_eq_parse]

/-- Spellings of the same names are read as the same names, in whatever way. -/
theorem mapM_respelled {read read' : String → Except InvalidName PackageName}
    (reads : ReadsNames read) (reads' : ReadsNames read') {names names' : List String}
    (same : List.Forall₂ (fun a b => SameName a.toList b.toList) names names') :
    ∃ packages, names.mapM read = .ok packages ∧ names'.mapM read' = .ok packages := by
  induction same with
  | nil => exact ⟨[], rfl, rfl⟩
  | @cons name name' names names' same _ ih =>
      obtain ⟨packages, first, second⟩ := ih
      refine ⟨⟨String.ofList (collapse name.toList)⟩ :: packages, ?_, ?_⟩
      · rw [List.mapM_cons, reads.eq_parse, parse_of_isName same.left, first]
        rfl
      · rw [List.mapM_cons, reads'.eq_parse, parse_of_isName same.right, ← same.collapse, second]
        rfl

namespace Check

/-- The report of a check of some texts, unless one of them cannot be loaded or what is given as the
    name of an ignored package is none. -/
def ofTexts (fs : FileSystem) (settings : CheckSettings)
    (readName : String → Except InvalidName PackageName) (ignored : List String)
    (texts : List GivenText) : Option Report := do
  let m ← (Manifest.addTexts fs .empty texts).toOption
  let ignore ← (ignored.mapM readName).toOption
  return run { settings with ignore } m

/-- The spelling of names does not matter: with the names of entries and of ignored packages spelled
    in other ways the texts can be loaded too, and a check makes the same report. -/
theorem name_spelling_irrelevant {texts texts' : List GivenText} {ignored ignored' : List String}
    {read read' : String → Except InvalidName PackageName} (settings : CheckSettings)
    (files : fs.Respelled fs')
    (respelled : List.Forall₂ (GivenText.Respelled Admissible) texts texts')
    (same : List.Forall₂ (fun a b => SameName a.toList b.toList) ignored ignored')
    (reads : ReadsNames read) (reads' : ReadsNames read') {m : Manifest}
    (loaded : Manifest.addTexts fs .empty texts = .ok m) :
    ∃ report, ofTexts fs settings read ignored texts = some report ∧
      ofTexts fs' settings read' ignored' texts' = some report := by
  obtain ⟨ignore, names, names'⟩ := mapM_respelled reads reads' same
  refine ⟨run { settings with ignore } m, ?_, ?_⟩
  · rw [ofTexts, loaded, names]
    rfl
  · rw [ofTexts, Manifest.addTexts_respelled files respelled, loaded, names']
    rfl

/-- Two files with a bare name each, and the name of an ignored package, in two spellings. -/
theorem report_of_respelled_names :
    let fs : FileSystem := ⟨[], []⟩
    let texts : List GivenText :=
      [⟨.requirements, ⟨"r"⟩, ['A', '-', 'b', '\n']⟩, ⟨.constraints, ⟨"c"⟩, ['D', '1', '\n']⟩]
    let texts' : List GivenText :=
      [⟨.requirements, ⟨"r"⟩, ['a', '.', '_', 'B', '\n']⟩, ⟨.constraints, ⟨"c"⟩, ['d', '1', '\n']⟩]
    ∃ report, ofTexts fs .onLinux PackageName.parse ["E.f"] texts = some report ∧
      ofTexts fs .onLinux PackageName.adopt ["e-f"] texts' = some report := by
  intro fs texts texts'
  have first : SameName ['A', '-', 'b'] ['a', '.', '_', 'B'] := by decide
  have second : SameName ['D', '1'] ['d', '1'] := by decide
  have ignored : SameName "E.f".toList "e-f".toList := by decide
  have bare : ∀ {n n' : List Char} (role : Role) (path : Path), SameName n n' →
      Requirement.looksLikeArchive n = false → Requirement.looksLikeArchive n' = false →
      GivenText.Respelled Admissible ⟨role, path, n ++ ['\n']⟩ ⟨role, path, n' ++ ['\n']⟩ :=
    fun role path same plain plain' => ⟨rfl, rfl, .bareName same plain (by simp [Admissible, plain'])⟩
  have respelled : List.Forall₂ (GivenText.Respelled Admissible) texts texts' :=
    .cons (bare .requirements ⟨"r"⟩ first (by decide) (by decide))
      (.cons (bare .constraints ⟨"c"⟩ second (by decide) (by decide)) .nil)
  have loaded : Manifest.addTexts fs .empty texts = .ok ((Manifest.empty.add .requirements
      (.ofBareName ⟨"r"⟩ ['A', '-', 'b'])).add .constraints (.ofBareName ⟨"c"⟩ ['D', '1'])) := by
    have loads := RequirementsFile.loadText_bareName fs ⟨"r"⟩ first.left
    have loads' := RequirementsFile.loadText_bareName fs ⟨"c"⟩ second.left
    rw [if_neg (by decide)] at loads loads'
    exact (Manifest.addTexts_of_ok _ _ loads).trans (Manifest.addTexts_of_ok _ _ loads')
  exact name_spelling_irrelevant .onLinux ⟨fun _ => rfl, fun _ => .inl rfl⟩ respelled
    (.cons ignored .nil) (fun _ => .inl rfl) (fun _ => .inr rfl) loaded

/-- A bare name is refused in a spelling that looks like the file name of an archive. -/
theorem report_lost_to_archive_name :
    let fs : FileSystem := ⟨[], []⟩
    let texts : List GivenText := [⟨.requirements, ⟨"r"⟩, ['a', '-', 'z', 'i', 'p', '\n']⟩]
    let texts' : List GivenText := [⟨.requirements, ⟨"r"⟩, ['a', '.', 'z', 'i', 'p', '\n']⟩]
    List.Forall₂ (GivenText.Respelled fun _ _ => True) texts texts' ∧
      (∃ report, ofTexts fs .onLinux PackageName.parse [] texts = some report) ∧
      ofTexts fs .onLinux PackageName.parse [] texts' = none := by
  intro fs texts texts'
  have same : SameName ['a', '-', 'z', 'i', 'p'] ['a', '.', 'z', 'i', 'p'] := by decide
  have loads := RequirementsFile.loadText_bareName fs ⟨"r"⟩ same.left
  have fails := RequirementsFile.loadText_bareName fs ⟨"r"⟩ same.right
  rw [if_neg (by decide)] at loads
  rw [if_pos (by decide)] at fails
  refine ⟨.cons ⟨rfl, rfl, .bareName same (by decide) trivial⟩ .nil,
    ⟨run .onLinux (Manifest.empty.add .requirements
      (.ofBareName ⟨"r"⟩ ['a', '-', 'z', 'i', 'p'])), ?_⟩, ?_⟩
  · rw [ofTexts, show Manifest.addTexts fs .empty texts = .ok _ from
      Manifest.addTexts_of_ok _ _ loads]
    rfl
  · rw [ofTexts, show Manifest.addTexts fs .empty texts' = .error _ from
      Manifest.addTexts_of_error _ _ fails]
    rfl

end Check

end PinFloor
