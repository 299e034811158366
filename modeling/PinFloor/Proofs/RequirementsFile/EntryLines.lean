import PinFloor.Proofs.RequirementsFile.Roles
import PinFloor.Proofs.RequirementsFile.SingleLines

/-! # The line of an entry

An entry of a file itself is one of its statements, and its line is the one that this statement
starts on. Statements take whole lines, so the line of an entry tells which one it is.
-/

namespace PinFloor

open Scanner

variable {fs : FileSystem} {opened : List Identity} {file path : Path} {content cs : List Char}

/-- The lines of the origins that are in a file. -/
def linesIn (file : Path) (origins : List Origin) : List Nat :=
  (origins.filter (·.path = file)).map (·.line)

/-- A statement is read in a text: it starts at a tail of the text, on the line of this tail. -/
def Script.Says (content : List Char) (s : PlacedStatement) : Prop :=
  ∃ before start rest, content = before ++ start ∧ Starts content start ∧
    statement? start = some (.ok (s.statement, rest)) ∧ s.line = lineEnds before + 1

/-! ## Where statements start -/

namespace Script

theorem exists_starts {s : PlacedStatement} (member : s ∈ (readFrom content cs).statements) :
    ∃ start rest, Starts cs start ∧ statement? start = some (.ok (s.statement, rest)) ∧
      s.line = (Position.ofRest content start).line := by
  fun_induction readFrom content cs with
  | case1 | case2 => cases member
  | case3 cs start statement rest scanned ih =>
      rcases List.mem_cons.mp member with rfl | member
      · exact ⟨start, rest, .here rfl, scanned, rfl⟩
      · obtain ⟨later, left, starts, found⟩ := ih member
        exact ⟨later, left, .later scanned starts, found⟩

theorem Starts.suffix {start : List Char} (starts : Starts cs start) : start <:+ cs := by
  induction starts with
  | here skipped => exact skipped ▸ skipTrivia_suffix _
  | later scanned _ ih =>
      exact ih.trans ((endsAtLine_of_statement? scanned).suffix.trans (skipTrivia_suffix _))

theorem says_of_mem {s : PlacedStatement} (member : s ∈ (read content).statements) :
    Says content s := by
  obtain ⟨start, rest, starts, scanned, line⟩ := exists_starts member
  obtain ⟨before, rfl⟩ := starts.suffix
  rw [Position.line_ofRest] at line
  exact ⟨before, start, rest, rfl, starts, scanned, line⟩

end Script

/-! ## The entries of a file itself -/

/-- The entries of a content that stand in a file are what its statements are. -/
structure Tells (file : Path) (statements : List PlacedStatement) (a : RequirementsFile) : Prop where
  requirements : a.requirements.filter (·.origin.path = file)
    = statements.filterMap fun s => (Visit.here file s).named?
  constraints : a.constraints.filter (·.origin.path = file) = []
  editables : a.editables.filter (·.origin.path = file)
    = statements.filterMap fun s => (Visit.here file s).editable?
  unnamed : a.unnamed.filter (·.origin.path = file)
    = statements.filterMap fun s => (Visit.here file s).unnamed?

namespace Tells

variable {s : PlacedStatement} {statements : List PlacedStatement} {a b : RequirementsFile}

theorem empty (file : Path) : Tells file [] .empty :=
  ⟨rfl, rfl, rfl, rfl⟩

theorem single (file : Path) (s : PlacedStatement) :
    Tells file [s] (Loading.single file s.line s.statement) := by
  obtain ⟨line, statement⟩ := s
  cases statement <;>
    constructor <;> simp [Loading.single, Visit.here, Visit.named?, Visit.editable?, Visit.unnamed?]

theorem cons (first : Tells file [s] a) (others : Tells file statements b) :
    Tells file (s :: statements) (a.merge b) where
  requirements := by
    simp only [RequirementsFile.merge, List.filter_append, first.requirements, others.requirements,
      ← List.filterMap_append, List.singleton_append]
  constraints := by
    simp only [RequirementsFile.merge, List.filter_append, first.constraints, others.constraints,
      List.append_nil]
  editables := by
    simp only [RequirementsFile.merge, List.filter_append, first.editables, others.editables,
      ← List.filterMap_append, List.singleton_append]
  unnamed := by
    simp only [RequirementsFile.merge, List.filter_append, first.unnamed, others.unnamed,
      ← List.filterMap_append, List.singleton_append]

theorem filter_eq_nil {α : Type} {origin : α → Origin} {items : List α}
    (away : ∀ o ∈ items.map origin, o.path ≠ file) :
    items.filter (fun a => (origin a).path = file) = [] := by
  rw [List.filter_eq_nil_iff]
  intro a inside
  simpa using away _ (List.mem_map_of_mem inside)

/-- An include statement is no entry, and what it adds stands elsewhere. -/
theorem elsewhere {line : Nat} {kind : IncludeKind} {name : Path}
    (away : ∀ o ∈ a.origins, o.path ≠ file) : Tells file [⟨line, .include kind name⟩] a := by
  simp only [RequirementsFile.origins, List.mem_append] at away
  exact ⟨filter_eq_nil fun o inside => away o (.inl (.inl (.inl inside))),
    filter_eq_nil fun o inside => away o (.inl (.inl (.inr inside))),
    filter_eq_nil fun o inside => away o (.inl (.inr inside)),
    filter_eq_nil fun o inside => away o (.inr inside)⟩

theorem of_ofStatements {fault? : Option Fault} (inside : fs.identity file ∈ opened)
    (loaded : (Loading.ofStatements fs opened file fault? statements).value = .ok a) :
    Tells file statements a := by
  induction statements generalizing a with
  | nil =>
      rw [Loading.ofStatements_nil] at loaded
      cases fault? <;> cases loaded
      exact .empty file
  | cons s rest ih =>
      obtain ⟨first, others, added, next, rfl⟩ := Loading.ofStatements_cons_ok.mp loaded
      refine .cons ?_ (ih next)
      obtain ⟨line, statement⟩ := s
      cases statement with
      | «include» kind name =>
          obtain ⟨outside, content, target, rfl⟩ := Loading.ofStatement_include_ok.mp added
          refine .elsewhere ?_
          rintro o within rfl
          exact Loading.origins_of_ofTarget outside target o
            (RequirementsFile.mem_origins_of_included within) inside
      | requirement | editable | unnamed | option =>
          cases added
          exact .single file ⟨line, _⟩

end Tells

/-! ## Their lines -/

section

variable {α β : Type} {origin : α → Origin} {origin' : β → Origin} {items : List α} {others : List β}
  {pick? : PlacedStatement → Option α} {pick?' : PlacedStatement → Option β}
  {statements : List PlacedStatement}

theorem exists_statement (own : items.filter (fun a => (origin a).path = file)
      = statements.filterMap pick?) {a : α} (member : a ∈ items) (here : (origin a).path = file) :
    ∃ s ∈ statements, pick? s = some a :=
  List.mem_filterMap.mp (own ▸ List.mem_filter.mpr ⟨member, by simpa using here⟩)

theorem mem_linesIn {n : Nat} :
    n ∈ linesIn file (items.map origin) ↔
      ∃ a ∈ items, (origin a).path = file ∧ (origin a).line = n := by
  simp only [linesIn, List.mem_map, List.mem_filter, decide_eq_true_eq]
  constructor
  · rintro ⟨_, ⟨⟨a, member, rfl⟩, here⟩, line⟩
    exact ⟨a, member, here, line⟩
  · rintro ⟨a, member, here, line⟩
    exact ⟨origin a, ⟨⟨a, member, rfl⟩, here⟩, line⟩

variable (own : items.filter (fun a => (origin a).path = file) = statements.filterMap pick?)
  (keeps : ∀ s a, pick? s = some a → (origin a).line = s.line)

include own keeps

theorem lines_sublist : (linesIn file (items.map origin)).Sublist (statements.map (·.line)) := by
  have same : linesIn file (items.map origin)
      = (statements.filterMap pick?).map fun a => (origin a).line := by
    rw [linesIn, List.filter_map, List.map_map, ← own]
    rfl
  rw [same]
  clear own same
  induction statements with
  | nil => exact .slnil
  | cons s statements ih =>
      cases entry : pick? s with
      | none =>
          rw [List.filterMap_cons_none entry]
          exact ih.cons _
      | some a =>
          rw [List.filterMap_cons_some entry, List.map_cons, List.map_cons, keeps s a entry]
          exact ih.cons_cons _

/-- Entries of two sorts do not share a line, since no statement is of both. -/
theorem lines_disjoint (ascending : statements.Pairwise (·.line < ·.line))
    (own' : others.filter (fun a => (origin' a).path = file) = statements.filterMap pick?')
    (keeps' : ∀ s a, pick?' s = some a → (origin' a).line = s.line)
    (apart : ∀ s a, pick? s = some a → pick?' s = none) :
    (linesIn file (items.map origin)).Disjoint (linesIn file (others.map origin')) := by
  intro n first second
  obtain ⟨a, member, here, rfl⟩ := mem_linesIn.mp first
  obtain ⟨b, member', here', line⟩ := mem_linesIn.mp second
  obtain ⟨s, inside, entry⟩ := exists_statement own member here
  obtain ⟨t, inside', entry'⟩ := exists_statement own' member' here'
  rw [keeps s a entry, keeps' t b entry'] at line
  have unique : (statements.map (·.line)).Nodup :=
    List.pairwise_map.mpr (ascending.imp Nat.ne_of_lt)
  obtain rfl := List.inj_on_of_nodup_map unique inside' inside line
  rw [apart t a entry] at entry'
  cases entry'

end

namespace Visit

variable {s : PlacedStatement} {e : Entry} {t : Target}

theorem statement_of_named? (entry : (here file s).named? = some e) :
    s = ⟨e.origin.line, .requirement e.requirement e.hashes⟩ := by
  obtain ⟨line, statement⟩ := s
  cases statement <;> cases entry
  rfl

theorem statement_of_editable? (entry : (here file s).editable? = some t) :
    s = ⟨t.origin.line, .editable t.target⟩ := by
  obtain ⟨line, statement⟩ := s
  cases statement <;> cases entry
  rfl

theorem statement_of_unnamed? (entry : (here file s).unnamed? = some t) :
    s = ⟨t.origin.line, .unnamed t.target⟩ := by
  obtain ⟨line, statement⟩ := s
  cases statement <;> cases entry
  rfl

end Visit

/-- The entries that stand in a file are known by their lines: among the entries of each sort they
    increase, no two entries share one, and a statement that is read in the file's text starts there
    and says what the entry holds. -/
structure KnownByLines (content : List Char) (path : Path) (a : RequirementsFile) : Prop where
  named : (linesIn path ((a.requirements ++ a.constraints).map (·.origin))).Pairwise (· < ·)
  editables : (linesIn path (a.editables.map (·.origin))).Pairwise (· < ·)
  unnamed : (linesIn path (a.unnamed.map (·.origin))).Pairwise (· < ·)
  apart : (linesIn path ((a.requirements ++ a.constraints).map (·.origin))
    ++ linesIn path (a.editables.map (·.origin)) ++ linesIn path (a.unnamed.map (·.origin))).Nodup
  sayNamed : ∀ e ∈ a.requirements ++ a.constraints, e.origin.path = path →
    Script.Says content ⟨e.origin.line, .requirement e.requirement e.hashes⟩
  sayEditable : ∀ t ∈ a.editables, t.origin.path = path →
    Script.Says content ⟨t.origin.line, .editable t.target⟩
  sayUnnamed : ∀ t ∈ a.unnamed, t.origin.path = path →
    Script.Says content ⟨t.origin.line, .unnamed t.target⟩

theorem Tells.knownByLines {path : Path} {a : RequirementsFile}
    (tells : Tells path (Script.read content).statements a) : KnownByLines content path a := by
  have ascending : (Script.read content).statements.Pairwise (·.line < ·.line) :=
    Script.pairwise_lines List.suffix_rfl
  have increasing : ((Script.read content).statements.map (·.line)).Pairwise (· < ·) :=
    List.pairwise_map.mpr ascending
  have own : (a.requirements ++ a.constraints).filter (·.origin.path = path)
      = (Script.read content).statements.filterMap fun s => (Visit.here path s).named? := by
    rw [List.filter_append, tells.requirements, tells.constraints, List.append_nil]
  have keepsNamed : ∀ s e, (Visit.here path s).named? = some e → e.origin.line = s.line :=
    fun s e entry => (congrArg (·.line) (Visit.statement_of_named? entry)).symm
  have keepsEditable : ∀ s t, (Visit.here path s).editable? = some t → t.origin.line = s.line :=
    fun s t entry => (congrArg (·.line) (Visit.statement_of_editable? entry)).symm
  have keepsUnnamed : ∀ s t, (Visit.here path s).unnamed? = some t → t.origin.line = s.line :=
    fun s t entry => (congrArg (·.line) (Visit.statement_of_unnamed? entry)).symm
  have named := increasing.sublist (lines_sublist own keepsNamed)
  have editables := increasing.sublist (lines_sublist tells.editables keepsEditable)
  have unnamed := increasing.sublist (lines_sublist tells.unnamed keepsUnnamed)
  have editableApart := lines_disjoint own keepsNamed ascending tells.editables keepsEditable
    fun s e entry => by rw [Visit.statement_of_named? entry]; rfl
  have unnamedApart := lines_disjoint own keepsNamed ascending tells.unnamed keepsUnnamed
    fun s e entry => by rw [Visit.statement_of_named? entry]; rfl
  have targetsApart := lines_disjoint tells.editables keepsEditable ascending tells.unnamed
    keepsUnnamed fun s t entry => by rw [Visit.statement_of_editable? entry]; rfl
  refine ⟨named, editables, unnamed, ?_, ?_, ?_, ?_⟩
  · refine List.nodup_append'.mpr ⟨List.nodup_append'.mpr ⟨named.imp Nat.ne_of_lt,
      editables.imp Nat.ne_of_lt, editableApart⟩, unnamed.imp Nat.ne_of_lt, ?_⟩
    exact List.disjoint_append_left.mpr ⟨unnamedApart, targetsApart⟩
  · intro e member here
    obtain ⟨s, inside, entry⟩ := exists_statement own member here
    exact Visit.statement_of_named? entry ▸ Script.says_of_mem inside
  · intro t member here
    obtain ⟨s, inside, entry⟩ := exists_statement tells.editables member here
    exact Visit.statement_of_editable? entry ▸ Script.says_of_mem inside
  · intro t member here
    obtain ⟨s, inside, entry⟩ := exists_statement tells.unnamed member here
    exact Visit.statement_of_unnamed? entry ▸ Script.says_of_mem inside

/-- In a file that can be loaded, the line of an entry of its own tells which statement it is: the one
    that starts there, with as many line ends before it. Where no `\` stands in the file, each line
    with more than blanks and a comment has one statement, and no other line has any. -/
theorem RequirementsFile.entries_known_by_lines {path : Path} {a : RequirementsFile}
    (loaded : (loadText fs content path).value = .ok a) :
    KnownByLines content path a ∧
      ('\\' ∉ content → (Script.read content).statements.map (·.line) = codeLines content) := by
  refine ⟨?_, Script.lines_eq_codeLines (parses_of_loadText loaded)⟩
  rw [loadText] at loaded
  exact (Tells.of_ofStatements List.mem_cons_self loaded).knownByLines

/-- Of two targets with a comment between them, one is on the first line and one on the third. -/
theorem two_targets_known_by_lines :
    let content := ['-', 'e', ' ', 'x', '\r', '#', 'c', '\r', '\n', '-', 'e', ' ', 'y']
    let target := fun name line => (⟨name, ⟨⟨"r"⟩, line⟩⟩ : Target)
    let a : RequirementsFile := { editables := [target "x" 1, target "y" 3] }
    (RequirementsFile.loadText ⟨[], []⟩ content ⟨"r"⟩).value = .ok a ∧
      KnownByLines content ⟨"r"⟩ a ∧ (Script.read content).statements.map (·.line) = [1, 3] := by
  intro content target a
  have first : skipTrivia content = content := skipTrivia_of_other rfl rfl (by decide)
  have second : skipTrivia ['#', 'c', '\r', '\n', '-', 'e', ' ', 'y'] = ['-', 'e', ' ', 'y'] := by
    rw [skipTrivia_of_comment rfl]
    exact skipTrivia_of_other rfl rfl (by decide)
  have script : Script.read content = ⟨[⟨1, .editable "x"⟩, ⟨3, .editable "y"⟩], none⟩ := by
    have scanned : statement? (skipTrivia ['#', 'c', '\r', '\n', '-', 'e', ' ', 'y'])
        = some (.ok (.editable "y", [])) := by
      rw [second]
      rfl
    rw [Script.read, Script.readFrom_of_statement content first rfl, Script.readFrom_of_ok scanned,
      second, Script.readFrom_nil]
    rfl
  have loaded : (RequirementsFile.loadText ⟨[], []⟩ content ⟨"r"⟩).value = .ok a := by
    rw [RequirementsFile.loadText, script, Loading.ofStatements_cons, Loading.ofStatements_cons,
      Loading.ofStatements_nil]
    rfl
  obtain ⟨known, lines⟩ := RequirementsFile.entries_known_by_lines loaded
  exact ⟨loaded, known, (lines (by decide)).trans (by decide)⟩

end PinFloor
