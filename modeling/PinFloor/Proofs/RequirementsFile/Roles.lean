import Mathlib.Data.List.Forall2
import PinFloor.Manifest
import PinFloor.Proofs.Path
import PinFloor.Proofs.RequirementsFile.Loading
import PinFloor.Proofs.RequirementsFile.Scripts

/-! # Roles along include chains

A walk through a file goes through its statements in order, and at an include statement through the
included file. What a loaded file holds is told by the walk: a named entry is a requirement if no
include statement on the way to it is one for constraints, and else a constraint.
-/

namespace PinFloor

/-- An include statement on the way to a file. -/
structure Hop where
  file : Path
  line : Nat
  kind : IncludeKind

/-- A statement as a walk comes to it. The chain leads from the file at which the walk starts to the
    file of the statement. -/
structure Visit where
  chain : List Hop
  file : Path
  line : Nat
  statement : Statement

namespace Visit

/-- A statement of the file at which the walk starts. -/
def here (file : Path) (s : PlacedStatement) : Visit :=
  ⟨[], file, s.line, s.statement⟩

/-- The statement at the end of a chain that is longer by one. -/
def under (hop : Hop) (v : Visit) : Visit :=
  { v with chain := hop :: v.chain }

/-- Whether no include statement on the way is one for constraints. -/
def isDirect (v : Visit) : Bool :=
  v.chain.all (·.kind ≠ .constraints)

/-- The named entry that the statement is. -/
def named? (v : Visit) : Option Entry :=
  match v.statement with
  | .requirement requirement hashes => some ⟨requirement, hashes, ⟨v.file, v.line⟩⟩
  | _ => none

/-- The editable installation that the statement is. -/
def editable? (v : Visit) : Option Target :=
  match v.statement with
  | .editable target => some ⟨target, ⟨v.file, v.line⟩⟩
  | _ => none

/-- The path or URL without a name that the statement is. -/
def unnamed? (v : Visit) : Option Target :=
  match v.statement with
  | .unnamed target => some ⟨target, ⟨v.file, v.line⟩⟩
  | _ => none

variable (hop : Hop) (v : Visit)

@[simp] theorem isDirect_under :
    (v.under hop).isDirect = (decide (hop.kind ≠ .constraints) && v.isDirect) :=
  rfl

@[simp] theorem named?_under : (v.under hop).named? = v.named? := rfl

@[simp] theorem editable?_under : (v.under hop).editable? = v.editable? := rfl

@[simp] theorem unnamed?_under : (v.under hop).unnamed? = v.unnamed? := rfl

end Visit

/-- The walk through some statements of a file, depth first and in order. -/
inductive Traversal (fs : FileSystem) : Path → List PlacedStatement → List Visit → Prop where
  | nil {file : Path} : Traversal fs file [] []
  | plain {file : Path} {s : PlacedStatement} {rest : List PlacedStatement} {visits : List Visit} :
      (∀ kind name, s.statement ≠ .include kind name) → Traversal fs file rest visits →
      Traversal fs file (s :: rest) (.here file s :: visits)
  | include {file name : Path} {line : Nat} {kind : IncludeKind} {rest : List PlacedStatement}
      {text : List Char} {inner visits : List Visit} : fs.read (file.sibling name) = .ok text →
      Traversal fs (file.sibling name) (Script.read text).statements inner →
      Traversal fs file rest visits →
      Traversal fs file (⟨line, .include kind name⟩ :: rest)
        (.here file ⟨line, .include kind name⟩ :: inner.map (·.under ⟨file, line, kind⟩) ++ visits)

/-- The walk through a file and what it includes. -/
def Traverses (fs : FileSystem) (root : Path) (visits : List Visit) : Prop :=
  ∃ text, fs.read root = .ok text ∧ Traversal fs root (Script.read text).statements visits

variable {fs : FileSystem} {file root : Path} {visits : List Visit}

theorem Traversal.unique {statements : List PlacedStatement} {others : List Visit}
    (first : Traversal fs file statements visits) (second : Traversal fs file statements others) :
    others = visits := by
  induction first generalizing others with
  | nil => cases second; rfl
  | plain other _ ih =>
      cases second with
      | plain _ rest => rw [ih rest]
      | «include» => exact absurd rfl (other _ _)
  | «include» readable _ _ within after =>
      cases second with
      | plain other => exact absurd rfl (other _ _)
      | «include» readable' inner rest =>
          cases readable.symm.trans readable'
          rw [within inner, after rest]

theorem Traverses.unique {others : List Visit} (first : Traverses fs root visits)
    (second : Traverses fs root others) : others = visits := by
  obtain ⟨text, readable, walk⟩ := first
  obtain ⟨text', readable', walk'⟩ := second
  cases readable.symm.trans readable'
  exact walk.unique walk'

/-! ## Where a walk comes -/

/-- A chain of include statements leads from one file to another. -/
inductive Leads (fs : FileSystem) : Path → List Hop → Path → Prop where
  | here {root : Path} : Leads fs root [] root
  | through {root name next file : Path} {text : List Char} {line : Nat} {kind : IncludeKind}
      {chain : List Hop} : fs.read root = .ok text →
      ⟨line, .include kind name⟩ ∈ (Script.read text).statements → root.Names name next →
      Leads fs next chain file → Leads fs root (⟨root, line, kind⟩ :: chain) file

/-- The statement is one of its file, to which its chain leads from a root. -/
def Visit.Occurs (fs : FileSystem) (root : Path) (v : Visit) : Prop :=
  Leads fs root v.chain v.file ∧
    ∃ text, fs.read v.file = .ok text ∧ ⟨v.line, v.statement⟩ ∈ (Script.read text).statements

section

variable {statements : List PlacedStatement} {v : Visit}

theorem Traversal.mem_cases (walk : Traversal fs file statements visits) (inside : v ∈ visits) :
    (∃ s ∈ statements, v = .here file s) ∨
      ∃ line kind name inner u, ⟨line, .include kind name⟩ ∈ statements ∧
        Traverses fs (file.sibling name) inner ∧ u ∈ inner ∧ v = u.under ⟨file, line, kind⟩ := by
  induction walk with
  | nil => cases inside
  | plain _ _ ih =>
      rcases List.mem_cons.mp inside with rfl | inside
      · exact .inl ⟨_, List.mem_cons_self, rfl⟩
      · grind
  | «include» readable walk rest _ ih =>
      simp only [List.cons_append, List.mem_cons, List.mem_append, List.mem_map] at inside
      rcases inside with rfl | ⟨u, within, rfl⟩ | inside
      · exact .inl ⟨_, List.mem_cons_self, rfl⟩
      · exact .inr ⟨_, _, _, _, u, List.mem_cons_self, ⟨_, readable, walk⟩, within, rfl⟩
      · grind

theorem Traversal.here_mem (walk : Traversal fs file statements visits) {s : PlacedStatement}
    (inside : s ∈ statements) : .here file s ∈ visits := by
  induction walk with
  | nil => cases inside
  | plain _ _ ih => grind
  | «include» _ _ _ _ ih => grind

theorem Traversal.under_mem (walk : Traversal fs file statements visits) {line : Nat}
    {kind : IncludeKind} {name : Path} (inside : ⟨line, .include kind name⟩ ∈ statements) :
    ∃ inner, Traverses fs (file.sibling name) inner ∧
      ∀ u ∈ inner, u.under ⟨file, line, kind⟩ ∈ visits := by
  induction walk with
  | nil => cases inside
  | plain other _ ih =>
      rcases List.mem_cons.mp inside with rfl | inside
      · exact absurd rfl (other _ _)
      · obtain ⟨inner, walk, all⟩ := ih inside
        exact ⟨inner, walk, fun u within => List.mem_cons_of_mem _ (all u within)⟩
  | «include» readable walk rest _ ih =>
      rcases List.mem_cons.mp inside with same | inside
      · cases same
        exact ⟨_, ⟨_, readable, walk⟩, by grind⟩
      · obtain ⟨inner, walk, all⟩ := ih inside
        exact ⟨inner, walk, by grind⟩

end

/-- A walk comes to the statements of all files that a chain of include statements leads to. -/
theorem Traverses.mem_iff (walk : Traverses fs root visits) {v : Visit} :
    v ∈ visits ↔ v.Occurs fs root := by
  obtain ⟨chain, file, line, statement⟩ := v
  induction chain generalizing root visits with
  | nil =>
      obtain ⟨text, readable, walk⟩ := walk
      constructor
      · intro inside
        rcases walk.mem_cases inside with ⟨s, member, same⟩ | ⟨_, _, _, _, _, _, _, _, same⟩
        · cases same
          exact ⟨.here, text, readable, member⟩
        · cases same
      · rintro ⟨leads, text', readable', member⟩
        cases leads
        cases readable.symm.trans readable'
        exact walk.here_mem member
  | cons hop chain ih =>
      obtain ⟨text, readable, walk⟩ := walk
      constructor
      · intro inside
        rcases walk.mem_cases inside with
          ⟨s, _, same⟩ | ⟨_, _, _, inner, u, member, within, met, same⟩
        · cases same
        · cases same
          obtain ⟨leads, source⟩ := (ih within).mp met
          exact ⟨.through readable member (Path.names_sibling ..) leads, source⟩
      · rintro ⟨leads, source⟩
        cases leads with
        | through readable' member names leads =>
            cases readable.symm.trans readable'
            cases Path.names_iff.mp names
            obtain ⟨inner, within, all⟩ := walk.under_mem member
            exact all _ ((ih within).mpr ⟨leads, source⟩)

/-! ## What a file holds -/

/-- The named entries among statements. -/
def entriesOf (visits : List Visit) : List Entry :=
  visits.filterMap Visit.named?

/-- The statements that no include for constraints leads to. -/
def directOf (visits : List Visit) : List Visit :=
  visits.filter Visit.isDirect

/-- The other statements. -/
def indirectOf (visits : List Visit) : List Visit :=
  visits.filter (!Visit.isDirect ·)

/-- The content of a file is what the walk through it comes to. -/
structure Holds (content : RequirementsFile) (visits : List Visit) : Prop where
  requirements : content.requirements = entriesOf (directOf visits)
  constraints : content.constraints.Perm (entriesOf (indirectOf visits))
  editables : content.editables = (directOf visits).filterMap Visit.editable?
  unnamed : content.unnamed = (directOf visits).filterMap Visit.unnamed?

namespace Holds

variable {content first second : RequirementsFile} {others : List Visit}

theorem single (file : Path) (s : PlacedStatement) :
    Holds (Loading.single file s.line s.statement) [.here file s] := by
  obtain ⟨line, statement⟩ := s
  cases statement <;> exact ⟨rfl, .refl _, rfl, rfl⟩

theorem merge (holds : Holds first visits) (after : Holds second others) :
    Holds (first.merge second) (visits ++ others) where
  requirements := by
    simp [RequirementsFile.merge, holds.requirements, after.requirements, entriesOf, directOf]
  constraints := by
    have both := holds.constraints.append after.constraints
    simpa [RequirementsFile.merge, entriesOf, indirectOf] using both
  editables := by simp [RequirementsFile.merge, holds.editables, after.editables, directOf]
  unnamed := by simp [RequirementsFile.merge, holds.unnamed, after.unnamed, directOf]

theorem entriesOf_under (hop : Hop) (visits : List Visit) :
    entriesOf (visits.map (·.under hop)) = entriesOf visits := by
  simp [entriesOf, Function.comp_def]

theorem perm_entriesOf (visits : List Visit) :
    (entriesOf (directOf visits) ++ entriesOf (indirectOf visits)).Perm (entriesOf visits) := by
  rw [entriesOf, entriesOf, ← List.filterMap_append]
  exact (List.filter_append_perm Visit.isDirect visits).filterMap Visit.named?

/-- Below an include for constraints nothing is direct, so all named entries are constraints. -/
theorem included (holds : Holds content visits) (file : Path) (line : Nat) (kind : IncludeKind) :
    Holds (.included kind content) (visits.map (·.under ⟨file, line, kind⟩)) := by
  cases kind with
  | requirements =>
      have direct : directOf (visits.map (·.under ⟨file, line, .requirements⟩)) =
          (directOf visits).map (·.under ⟨file, line, .requirements⟩) := by
        simp [directOf, List.filter_map, Function.comp_def]
      have indirect : indirectOf (visits.map (·.under ⟨file, line, .requirements⟩)) =
          (indirectOf visits).map (·.under ⟨file, line, .requirements⟩) := by
        simp [indirectOf, List.filter_map, Function.comp_def]
      constructor <;> rw [RequirementsFile.included]
      · rw [direct, entriesOf_under, holds.requirements]
      · rw [indirect, entriesOf_under]
        exact holds.constraints
      · simp [direct, holds.editables, Function.comp_def]
      · simp [direct, holds.unnamed, Function.comp_def]
  | constraints =>
      have direct : directOf (visits.map (·.under ⟨file, line, .constraints⟩)) = [] := by
        simp [directOf]
      have indirect : indirectOf (visits.map (·.under ⟨file, line, .constraints⟩)) =
          visits.map (·.under ⟨file, line, .constraints⟩) := by
        simp [indirectOf]
      constructor <;> rw [RequirementsFile.included]
      · rw [direct]
        rfl
      · rw [indirect, entriesOf_under, holds.requirements]
        exact (holds.constraints.append_left _).trans (perm_entriesOf visits)
      · rw [direct]
        rfl
      · rw [direct]
        rfl

/-- The walk through what is loaded, and what it says about the content. -/
theorem exists_of_ofStatements {opened : List Identity} {fault? : Option Fault}
    {statements : List PlacedStatement}
    (loaded : (Loading.ofStatements fs opened file fault? statements).value = .ok content) :
    ∃ visits, Traversal fs file statements visits ∧ Holds content visits := by
  induction opened, file, fault?, statements using Loading.statements_induction fs
    generalizing content with
  | nil opened file fault? =>
      rw [Loading.ofStatements_nil] at loaded
      cases fault? with
      | none => cases loaded; exact ⟨[], .nil, rfl, .refl _, rfl, rfl⟩
      | some => cases loaded
  | cons opened file fault? s rest inner later =>
      obtain ⟨first, others, added, next, rfl⟩ := Loading.ofStatements_cons_ok.mp loaded
      obtain ⟨after, walk, holds⟩ := later next
      obtain ⟨line, statement⟩ := s
      cases statement with
      | «include» kind name =>
          obtain ⟨outside, content, target, rfl⟩ := Loading.ofStatement_include_ok.mp added
          obtain ⟨text, readable, loaded⟩ := Loading.ofTarget_ok.mp target
          obtain ⟨visits, within, holds'⟩ := inner kind name text rfl outside readable loaded
          refine ⟨_, .include readable within walk, ?_⟩
          have whole := (single file ⟨line, .include kind name⟩).merge
            ((holds'.included file line kind).merge holds)
          rwa [show Loading.single file line (.include kind name) = .empty from rfl,
            RequirementsFile.empty_merge] at whole
      | requirement | editable | unnamed | option =>
          cases added
          exact ⟨_, .plain (by simp) walk, (single file ⟨line, _⟩).merge holds⟩

end Holds

theorem RequirementsFile.exists_traverses {content : RequirementsFile}
    (loaded : (load fs root).value = .ok content) :
    ∃ visits, Traverses fs root visits ∧ Holds content visits := by
  rw [Loading.load_eq_ofTarget] at loaded
  obtain ⟨text, readable, loaded⟩ := Loading.ofTarget_ok.mp loaded
  obtain ⟨visits, walk, holds⟩ := Holds.exists_of_ofStatements loaded
  exact ⟨visits, ⟨text, readable, walk⟩, holds⟩

namespace Manifest

variable {m result : Manifest} {roots : List Path}

theorem addFiles_cons_ok {role : Role} {rest : List (Role × Path)} :
    (addFiles fs m ((role, root) :: rest)).value = .ok result ↔
      ∃ file, (RequirementsFile.load fs root).value = .ok file ∧
        (addFiles fs (m.add role file) rest).value = .ok result :=
  Told.andThen_value_eq_ok

theorem addFiles_requirements {rest : List (Role × Path)}
    (loaded : (addFiles fs m (roots.map (.requirements, ·) ++ rest)).value = .ok result) :
    ∃ walks next, List.Forall₂ (Traverses fs) roots walks ∧
      (addFiles fs next rest).value = .ok result ∧
      next.requirements = m.requirements ++ entriesOf (directOf walks.flatten) ∧
      next.constraints.Perm (m.constraints ++ entriesOf (indirectOf walks.flatten)) := by
  induction roots generalizing m with
  | nil =>
      refine ⟨[], m, .nil, loaded, ?_, ?_⟩
      · simp [directOf, entriesOf]
      · simp [indirectOf, entriesOf]
  | cons root roots ih =>
      obtain ⟨file, first, others⟩ := addFiles_cons_ok.mp loaded
      obtain ⟨visits, walk, holds⟩ := RequirementsFile.exists_traverses first
      obtain ⟨walks, next, each, last, requirements, constraints⟩ := ih others
      refine ⟨visits :: walks, next, .cons walk each, last, ?_, ?_⟩
      · rw [requirements, add, holds.requirements]
        simp [directOf, entriesOf]
      · refine constraints.trans ?_
        simp only [add, List.flatten_cons, entriesOf, indirectOf, List.filter_append,
          List.filterMap_append, List.append_assoc]
        exact (holds.constraints.append_right _).append_left _

theorem addFiles_constraints
    (loaded : (addFiles fs m (roots.map (.constraints, ·))).value = .ok result) :
    ∃ walks, List.Forall₂ (Traverses fs) roots walks ∧ result.requirements = m.requirements ∧
      result.constraints.Perm (m.constraints ++ entriesOf walks.flatten) := by
  induction roots generalizing m with
  | nil =>
      cases loaded
      exact ⟨[], .nil, rfl, by simp [entriesOf]⟩
  | cons root roots ih =>
      obtain ⟨file, first, others⟩ := addFiles_cons_ok.mp loaded
      obtain ⟨visits, walk, holds⟩ := RequirementsFile.exists_traverses first
      obtain ⟨walks, each, requirements, constraints⟩ := ih others
      refine ⟨visits :: walks, .cons walk each, requirements, constraints.trans ?_⟩
      have all := (holds.constraints.append_left _).trans (Holds.perm_entriesOf visits)
      rw [← holds.requirements] at all
      have more := (all.append_right (entriesOf walks.flatten)).append_left m.constraints
      simpa [add, entriesOf] using more

end Manifest

/-- An entry of a loaded file is a requirement exactly if no include statement for constraints leads
    to it; no entry is lost, and each is there once for each chain of include statements that leads
    to it. Of several files, those given for constraints have only constraints. -/
theorem roles_follow_chain (fs : FileSystem) :
    (∀ root content, (RequirementsFile.load fs root).value = .ok content →
      ∃ visits, (∀ others, Traverses fs root others ↔ others = visits) ∧
        (∀ v, v ∈ visits ↔ v.Occurs fs root) ∧ Holds content visits) ∧
    ∀ requirements constraints m,
      (Manifest.ofFiles fs requirements constraints).value = .ok m →
      ∃ required constrained, List.Forall₂ (Traverses fs) requirements required ∧
        List.Forall₂ (Traverses fs) constraints constrained ∧
        m.requirements = entriesOf (directOf required.flatten) ∧
        m.constraints.Perm
          (entriesOf (indirectOf required.flatten) ++ entriesOf constrained.flatten) := by
  refine ⟨fun root content loaded => ?_, fun requirements constraints m loaded => ?_⟩
  · obtain ⟨visits, walk, holds⟩ := RequirementsFile.exists_traverses loaded
    have unique : ∀ others, Traverses fs root others ↔ others = visits := fun others =>
      ⟨walk.unique, fun same => same ▸ walk⟩
    exact ⟨visits, unique, fun _ => walk.mem_iff, holds⟩
  · obtain ⟨required, next, each, last, direct, indirect⟩ := Manifest.addFiles_requirements loaded
    obtain ⟨constrained, each', same, all⟩ := Manifest.addFiles_constraints last
    refine ⟨required, constrained, each, each', ?_, ?_⟩
    · rw [same, direct]
      rfl
    · exact all.trans (indirect.append_right _)

open Scanner in
/-- A file that is included for its requirements and for its constraints, and is also given for its
    constraints, has its entry once among the requirements and twice among the constraints. -/
theorem roles_of_file_included_twice :
    let root := ['-', 'r', ' ', 's', '\n', '-', 'c', ' ', 's']
    let named := ['s', 'i', 'x', '\n']
    let fs : FileSystem := ⟨[], [(["r"], .text root), (["s"], .text named)]⟩
    let six : Requirement := ⟨⟨"six"⟩, [], .any, .leaf true⟩
    let entry : Entry := ⟨six, [], ⟨⟨"s"⟩, 1⟩⟩
    ((RequirementsFile.load fs ⟨"r"⟩).value
          = .ok { requirements := [entry], constraints := [entry] } ∧
        ∃ visits, Traverses fs ⟨"r"⟩ visits ∧ entriesOf (directOf visits) = [entry] ∧
          entriesOf (indirectOf visits) = [entry]) ∧
      (Manifest.ofFiles fs [⟨"r"⟩] [⟨"s"⟩]).value
          = .ok { requirements := [entry], constraints := [entry, entry] } ∧
        ∃ required constrained, List.Forall₂ (Traverses fs) [⟨"r"⟩] required ∧
          List.Forall₂ (Traverses fs) [⟨"s"⟩] constrained ∧
          entriesOf (directOf required.flatten) = [entry] ∧
          entriesOf (indirectOf required.flatten) ++ entriesOf constrained.flatten
            = [entry, entry] := by
  intro root named fs six entry
  have split : splitStatement named = (['s', 'i', 'x'], .line, []) := by
    rw [splitStatement_plain rfl rfl, splitStatement_plain rfl rfl, splitStatement_plain rfl rfl,
      splitStatement_lineEnd .lf]
  have requirement : requirement named = .ok (.requirement six [], []) := by
    rw [requirement_eq, split]
    rfl
  have namedScript : Script.read named = ⟨[⟨1, .requirement six []⟩], none⟩ := by
    rw [Script.read, Script.readFrom_of_statement named (skipTrivia_of_other rfl rfl (by decide))
      (congrArg some requirement), Script.readFrom_nil]
    rfl
  have second : Script.readFrom root ['-', 'c', ' ', 's']
      = ⟨[⟨2, .include .constraints ⟨"s"⟩⟩], none⟩ := by
    rw [Script.readFrom_of_statement _ (skipTrivia_of_other rfl rfl (by decide)) rfl,
      Script.readFrom_nil]
    rfl
  have rootScript : Script.read root
      = ⟨[⟨1, .include .requirements ⟨"s"⟩⟩, ⟨2, .include .constraints ⟨"s"⟩⟩], none⟩ := by
    rw [Script.read, Script.readFrom_of_statement root
      (skipTrivia_of_other rfl rfl (by decide)) rfl, second]
    rfl
  have included : ∀ opened,
      (Loading.ofTarget fs opened ⟨"s"⟩).value = .ok { requirements := [entry] } := by
    intro opened
    refine Loading.ofTarget_ok.mpr ⟨named, rfl, ?_⟩
    rw [namedScript, Loading.ofStatements_cons_ok]
    exact ⟨_, .empty, rfl, by rw [Loading.ofStatements_nil]; rfl, rfl⟩
  have loaded : (RequirementsFile.load fs ⟨"r"⟩).value
      = .ok { requirements := [entry], constraints := [entry] } := by
    rw [Loading.load_eq_ofTarget]
    refine Loading.ofTarget_ok.mpr ⟨root, rfl, ?_⟩
    rw [rootScript, Loading.ofStatements_cons_ok]
    refine ⟨_, { constraints := [entry] },
      Loading.ofStatement_include_ok.mpr ⟨by decide, _, included _, rfl⟩, ?_, rfl⟩
    rw [Loading.ofStatements_cons_ok]
    refine ⟨_, .empty, Loading.ofStatement_include_ok.mpr ⟨by decide, _, included _, rfl⟩, ?_, rfl⟩
    rw [Loading.ofStatements_nil]
    rfl
  have manifest : (Manifest.ofFiles fs [⟨"r"⟩] [⟨"s"⟩]).value
      = .ok { requirements := [entry], constraints := [entry, entry] } :=
    Manifest.addFiles_cons_ok.mpr ⟨_, loaded, Manifest.addFiles_cons_ok.mpr ⟨_, included [], rfl⟩⟩
  obtain ⟨visits, unique, -, holds⟩ := (roles_follow_chain fs).1 _ _ loaded
  obtain ⟨required, constrained, walked, walked', direct, others⟩ :=
    (roles_follow_chain fs).2 _ _ _ manifest
  have twice : _ = List.replicate 2 entry := List.perm_replicate.mp others.symm
  exact ⟨⟨loaded, visits, (unique visits).mpr rfl, holds.requirements.symm,
    (List.singleton_perm.mp holds.constraints).symm⟩, manifest, required, constrained, walked,
    walked', direct.symm, twice⟩

end PinFloor
