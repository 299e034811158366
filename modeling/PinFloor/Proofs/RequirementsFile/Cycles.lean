import Mathlib.Data.List.Basic
import PinFloor.Proofs.RequirementsFile.IncludeStack
import PinFloor.Proofs.RequirementsFile.Scripts

/-! # Cycles of include statements

Loading fails at the first point at which it cannot go on: a file that cannot be read, a fault in
the text of one, or an include statement for a file that is open. The files that wait there each add
where they include the next one. A file that loads by itself also loads where it is included, each
time, unless it leads back to a file that is open there.
-/

namespace PinFloor

variable {fs : FileSystem} {s t u : State} {e cause : LoadError}

/-- The cause of an error that has no further one. -/
def LoadError.root : LoadError → LoadError
  | included _ _ cause => cause.root
  | error => error

/-- An error in the innermost file, as it is known in the outermost one. -/
def enclosed : List Waiting → LoadError → LoadError
  | [], error => error
  | w :: outer, error => enclosed outer (.included w.opener.file w.line error)

theorem root_enclosed (waiting : List Waiting) (error : LoadError) :
    (enclosed waiting error).root = error.root := by
  induction waiting generalizing error with
  | nil => rfl
  | cons w outer ih => exact ih _

/-- A point at which loading cannot go on. -/
inductive Fails (fs : FileSystem) : State → LoadError → Prop where
  | unreadable {stack : List Identity} {waiting : List Waiting} {path : Path} {error : ReadError} :
      fs.read path = .error error →
      Fails fs ⟨stack, waiting, .parse path⟩ (.unreadable path error)
  | fault {stack : List Identity} {waiting : List Waiting} {file : Path} {fault : Fault}
      {content : RequirementsFile} :
      Fails fs ⟨stack, waiting, .run ⟨file, some fault, [], content⟩⟩ (fault.error file)
  | cycle {stack : List Identity} {waiting : List Waiting} {file name : Path}
      {fault? : Option Fault} {line : Nat} {kind : IncludeKind} {rest : List PlacedStatement}
      {content : RequirementsFile} : fs.identity (file.sibling name) ∈ stack →
      Fails fs ⟨stack, waiting, .run ⟨file, fault?, ⟨line, .include kind name⟩ :: rest, content⟩⟩
        (.cycle file (file.sibling name) line)

theorem Fails.root_eq (fails : Fails fs s cause) : cause.root = cause := by
  cases fails with
  | unreadable | cycle => rfl
  | @fault _ _ _ fault => cases fault <;> rfl

/-- The error that a state carries. -/
def State.error? (s : State) : Option LoadError :=
  match s.task with
  | .answer _ (.error e) | .close _ (.error e) | .done (.error e) => some e
  | _ => none

/-- A result that goes to the file that waits for it carries the error on. -/
theorem enclosed_of_reply {stack : List Identity} {waiting : List Waiting} {result : Result}
    (carried : (State.reply stack waiting result).error? = some e) :
    ∃ cause, result = .error cause ∧
      enclosed (State.reply stack waiting result).waiting e = enclosed waiting cause := by
  cases result with
  | error cause =>
      cases waiting with
      | nil => cases carried; exact ⟨_, rfl, rfl⟩
      | cons w outer => cases carried; exact ⟨cause, rfl, rfl⟩
  | ok content => cases waiting <;> cases carried

/-- A state that carries an error has it from the one before, or that one is where loading fails. -/
theorem Step.error (step : Step fs s t) (carried : t.error? = some e) :
    ∃ cause, (s.error? = some cause ∨ Fails fs s cause) ∧
      enclosed s.waiting cause = enclosed t.waiting e := by
  cases step with
  | unreadable unreadable =>
      obtain ⟨cause, same, enclosed⟩ := enclosed_of_reply carried
      cases same
      exact ⟨_, .inr (.unreadable unreadable), enclosed.symm⟩
  | @close _ _ _ result =>
      obtain ⟨cause, rfl, enclosed⟩ := enclosed_of_reply carried
      exact ⟨cause, .inl rfl, enclosed.symm⟩
  | «open» | plain | descend | finish | added => cases carried
  | cycle inside =>
      cases carried
      exact ⟨_, .inr (.cycle inside), rfl⟩
  | fault =>
      cases carried
      exact ⟨_, .inr .fault, rfl⟩
  | failed =>
      cases carried
      exact ⟨_, .inl rfl, rfl⟩

theorem Steps.exists_fails {root : Path} (steps : Steps fs (.start root) t)
    (carried : t.error? = some e) :
    ∃ s cause, Steps fs (.start root) s ∧ Fails fs s cause ∧
      enclosed s.waiting cause = enclosed t.waiting e := by
  induction steps generalizing e with
  | refl => cases carried
  | @tail s t steps step ih =>
      obtain ⟨cause, before | fails, same⟩ := step.error carried
      · obtain ⟨u, origin, reached, fails, same'⟩ := ih before
        exact ⟨u, origin, reached, fails, same'.trans same⟩
      · exact ⟨s, cause, steps, fails, same⟩

/-- After an error all open files are closed, one after the other. -/
theorem steps_unwind (fs : FileSystem) (stack : List Identity) (waiting : List Waiting)
    (file : Path) (e : LoadError) : ∃ left, Steps fs ⟨stack, waiting, .close file (.error e)⟩
      ⟨left, [], .done (.error (enclosed waiting e))⟩ := by
  induction waiting generalizing stack file e with
  | nil => exact ⟨_, .single .close⟩
  | cons w outer ih =>
      obtain ⟨left, steps⟩ := ih stack.dropLast w.opener.file (.included w.opener.file w.line e)
      exact ⟨left, .head .close (.head .failed steps)⟩

theorem Fails.steps (fails : Fails fs s cause) :
    ∃ left, Steps fs s ⟨left, [], .done (.error (enclosed s.waiting cause))⟩ := by
  cases fails with
  | @unreadable stack waiting path error unreadable =>
      cases waiting with
      | nil => exact ⟨_, .single (.unreadable unreadable)⟩
      | cons w outer =>
          obtain ⟨left, steps⟩ := steps_unwind fs stack outer w.opener.file
            (.included w.opener.file w.line (.unreadable path error))
          exact ⟨left, .head (.unreadable unreadable) (.head .failed steps)⟩
  | @fault stack waiting file fault =>
      obtain ⟨left, steps⟩ := steps_unwind fs stack waiting file (fault.error file)
      exact ⟨left, .head .fault steps⟩
  | @cycle stack waiting file name fault? line kind rest content inside =>
      obtain ⟨left, steps⟩ := steps_unwind fs stack waiting file
        (.cycle file (file.sibling name) line)
      exact ⟨left, .head (.cycle inside) (.head .failed steps)⟩

/-- Loading fails exactly if its steps come to a point at which it cannot go on, and with the error
    of that point. -/
theorem load_eq_error_iff (root : Path) : (RequirementsFile.load fs root).value = .error e ↔
    ∃ s cause, Steps fs (.start root) s ∧ Fails fs s cause ∧ e = enclosed s.waiting cause := by
  have ends := steps_done fs root
  constructor
  · intro failed
    rw [failed] at ends
    obtain ⟨s, cause, steps, fails, same⟩ := Steps.exists_fails ends rfl
    exact ⟨s, cause, steps, fails, same.symm⟩
  · rintro ⟨s, cause, steps, fails, rfl⟩
    obtain ⟨left, rest⟩ := fails.steps
    exact steps_done_unique ends (steps.trans rest)

/-! ## Files that are open -/

/-- The path leads to a place. One that leads nowhere, such as one with a slash after the name of a
    file, is taken by its parts. -/
def FileSystem.Names (fs : FileSystem) (path : Path) (place : List String) : Prop :=
  match fs.resolve path with
  | .ok found => found = place
  | .error _ => ((fs.absolute? path).getD path).parts = identityOf place

/-- The path leads to a file that is open, however it is spelled. -/
def State.IsOpen (fs : FileSystem) (s : State) (path : Path) : Prop :=
  ∃ file ∈ s.openFiles, ∃ place, fs.resolve file = .ok place ∧ fs.Names path place

theorem FileSystem.identityOf_injective : Function.Injective identityOf := by
  intro place other same
  have names : Function.Injective PathPart.name := fun _ _ => PathPart.name.inj
  exact List.map_injective_iff.mpr names (List.cons.inj same).2

theorem FileSystem.identity_eq_iff {path : Path} {place : List String} :
    fs.identity path = identityOf place ↔ fs.Names path place := by
  rw [identity, Names]
  cases fs.resolve path with
  | ok => exact identityOf_injective.eq_iff
  | error => exact Iff.rfl

theorem FileSystem.exists_place_of_read {path : Path} {text : List Char}
    (readable : fs.read path = .ok text) : ∃ place, fs.resolve path = .ok place := by
  rw [read] at readable
  split at readable
  · cases readable
  · next place resolved => exact ⟨place, resolved⟩

theorem State.Sound.mem_stack_iff (sound : s.Sound fs) {path : Path} :
    fs.identity path ∈ s.stack ↔ s.IsOpen fs path := by
  rw [sound.stack_eq, List.mem_map]
  refine exists_congr fun file => and_congr_right fun inside => ?_
  obtain ⟨text, readable⟩ := sound.readable file inside
  obtain ⟨place, resolved⟩ := FileSystem.exists_place_of_read readable
  have known : fs.identity file = FileSystem.identityOf place := by
    rw [FileSystem.identity, resolved]
  rw [known, eq_comm, FileSystem.identity_eq_iff]
  simp [resolved]

/-- An open file is at an include statement, after which `f` goes on. -/
def State.atInclude (stack : List Identity) (waiting : List Waiting) (f : OpenFile) (line : Nat)
    (kind : IncludeKind) (name : Path) : State :=
  ⟨stack, waiting, .run { f with rest := ⟨line, .include kind name⟩ :: f.rest }⟩

theorem steps_answer (fs : FileSystem) (stack : List Identity) (waiting : List Waiting)
    (f : OpenFile) (line : Nat) (kind : IncludeKind) (name : Path) :
    Steps fs (.atInclude stack waiting f line kind name)
      ⟨stack, waiting, .answer f
        (Loading.ofStatement fs stack f.file ⟨line, .include kind name⟩).value⟩ :=
  steps_include waiting f.fault? f.rest f.content line kind fun _ _ _ => runs fs _ _ _ _

/-- Loading ends in a cycle exactly if its steps come to an include statement for an open file. -/
theorem load_cycle_iff {root file target : Path} {line : Nat} :
    ((RequirementsFile.load fs root).value = .error e ∧ e.root = .cycle file target line) ↔
      ∃ stack waiting f kind name,
        Steps fs (.start root) (.atInclude stack waiting f line kind name) ∧
        f.file = file ∧ f.file.sibling name = target ∧
        (State.atInclude stack waiting f line kind name).IsOpen fs target ∧
        e = enclosed waiting (.cycle file target line) := by
  rw [load_eq_error_iff]
  constructor
  · rintro ⟨⟨s, cause, steps, fails, rfl⟩, root⟩
    rw [root_enclosed, fails.root_eq] at root
    cases fails with
    | unreadable => cases root
    | @fault _ _ _ fault => cases fault <;> cases root
    | @cycle stack waiting file name fault? line kind rest content inside =>
        cases root
        exact ⟨stack, waiting, ⟨file, fault?, rest, content⟩, kind, name, steps, rfl, rfl,
          (Steps.sound steps).mem_stack_iff.mp inside, rfl⟩
  · rintro ⟨stack, waiting, f, kind, name, steps, rfl, rfl, isOpen, rfl⟩
    have inside := (Steps.sound steps).mem_stack_iff.mpr isOpen
    exact ⟨⟨_, _, steps, .cycle inside, rfl⟩, root_enclosed ..⟩

/-! ## Files that are included again -/

/-- An error in a cycle that leads to one of some files. -/
def LoadError.LeadsInto (fs : FileSystem) (outer : List Identity) (e : LoadError) : Prop :=
  ∃ file target line, e.root = .cycle file target line ∧ fs.identity target ∈ outer

/-- The content comes out again, or a cycle that leads to one of some files. -/
def Repeats (fs : FileSystem) (outer : List Identity) (content : RequirementsFile)
    (result : Result) : Prop :=
  result = .ok content ∨ ∃ e, result = .error e ∧ e.LeadsInto fs outer

namespace Loading

variable {own outer : List Identity} {file : Path} {fault? : Option Fault}
  {statements : List PlacedStatement} {content : RequirementsFile}

theorem repeats_include (line : Nat) (kind : IncludeKind) {name : Path}
    (outside : fs.identity (file.sibling name) ∉ own)
    (below : Repeats fs outer content (ofTarget fs (outer ++ own) (file.sibling name)).value) :
    Repeats fs outer (.included kind content)
      (ofStatement fs (outer ++ own) file ⟨line, .include kind name⟩).value := by
  by_cases above : fs.identity (file.sibling name) ∈ outer
  · rw [ofStatement_open (List.mem_append_left _ above)]
    exact .inr ⟨_, rfl, file, file.sibling name, line, rfl, above⟩
  · have closed : fs.identity (file.sibling name) ∉ outer ++ own := by simp [above, outside]
    rw [ofStatement_closed closed, ofInclude, Told.map]
    rcases below with same | ⟨e, failed, leads⟩
    · rw [same]
      exact .inl rfl
    · rw [failed]
      exact .inr ⟨_, rfl, leads⟩

/-- What loads also loads while more files are open, unless it leads back to one of them. -/
theorem repeats_ofStatements (outer : List Identity)
    (loaded : (ofStatements fs own file fault? statements).value = .ok content) :
    Repeats fs outer content (ofStatements fs (outer ++ own) file fault? statements).value := by
  induction own, file, fault?, statements using statements_induction fs generalizing content with
  | nil own file fault? =>
      rw [ofStatements_nil] at loaded ⊢
      exact .inl loaded
  | cons own file fault? s rest inner later =>
      obtain ⟨first, others, added, next, rfl⟩ := ofStatements_cons_ok.mp loaded
      have here : Repeats fs outer first (ofStatement fs (outer ++ own) file s).value := by
        obtain ⟨line, statement⟩ := s
        cases statement with
        | «include» kind name =>
            obtain ⟨outside, content, target, rfl⟩ := ofStatement_include_ok.mp added
            obtain ⟨text, readable, loaded⟩ := ofTarget_ok.mp target
            have below := inner kind name text rfl outside readable loaded
            rw [← List.append_assoc, ← ofTarget_value readable] at below
            exact repeats_include line kind outside below
        | requirement | editable | unnamed | option => exact .inl added
      rcases here with same | ⟨e, failed, leads⟩
      · rcases later next with same' | ⟨e, failed, leads⟩
        · exact .inl (ofStatements_cons_ok.mpr ⟨first, others, same, same', rfl⟩)
        · refine .inr ⟨e, ?_, leads⟩
          rw [ofStatements_cons, Told.andThen_value_of_ok same, Told.map, failed]
          rfl
      · refine .inr ⟨e, ?_, leads⟩
        rw [ofStatements_cons]
        exact Told.andThen_value_of_error failed _

/-- A file that loads by itself adds its content wherever it is included. -/
theorem repeats_load {line : Nat} {kind : IncludeKind} {name : Path} (outer : List Identity)
    (loaded : (RequirementsFile.load fs (file.sibling name)).value = .ok content) :
    Repeats fs outer (.included kind content)
      (ofStatement fs outer file ⟨line, .include kind name⟩).value := by
  rw [load_eq_ofTarget] at loaded
  obtain ⟨text, readable, loaded⟩ := ofTarget_ok.mp loaded
  have below : Repeats fs outer content (ofTarget fs (outer ++ []) (file.sibling name)).value := by
    rw [List.append_nil, ofTarget_value readable]
    exact repeats_ofStatements outer loaded
  have again := repeats_include line kind List.not_mem_nil below
  rwa [List.append_nil] at again

end Loading

/-- How loading a file goes through the files that it includes. -/
structure IncludeDiscipline (fs : FileSystem) (root : Path) : Prop where
  /-- Loading ends after finitely many steps, with no file open. -/
  ends : Acc (fun t s => Step fs s t) (.start root) ∧
    Steps fs (.start root) ⟨[], [], .done (RequirementsFile.load fs root).value⟩
  /-- The stack holds the identities of the files that are open, and no file is open twice. -/
  distinct : ∀ s, Steps fs (.start root) s → s.stack = s.openFiles.map fs.identity ∧ s.stack.Nodup
  /-- After an include statement, whatever comes of it, the stack is as before. -/
  balanced : ∀ stack waiting f line kind name,
    Steps fs (.start root) (.atInclude stack waiting f line kind name) →
    Steps fs (.atInclude stack waiting f line kind name)
      ⟨stack, waiting, .answer f
        (Loading.ofStatement fs stack f.file ⟨line, .include kind name⟩).value⟩
  /-- A cycle is what stops the steps at an include statement for an open file. -/
  cycle : ∀ e file target line,
    ((RequirementsFile.load fs root).value = .error e ∧ e.root = .cycle file target line) ↔
      ∃ stack waiting f kind name,
        Steps fs (.start root) (.atInclude stack waiting f line kind name) ∧
        f.file = file ∧ f.file.sibling name = target ∧
        (State.atInclude stack waiting f line kind name).IsOpen fs target ∧
        e = enclosed waiting (.cycle file target line)
  /-- A file that loads by itself is loaded each time that it is included, unless a file that is
      open there is included within itself. -/
  again : ∀ stack waiting f line kind name content,
    Steps fs (.start root) (.atInclude stack waiting f line kind name) →
    (RequirementsFile.load fs (f.file.sibling name)).value = .ok content →
    Repeats fs stack (.included kind content)
      (Loading.ofStatement fs stack f.file ⟨line, .include kind name⟩).value

/-- Loading ends, keeps its stack of open files and finds exactly the cycles. -/
theorem include_discipline (fs : FileSystem) (root : Path) : IncludeDiscipline fs root where
  ends := ⟨acc_of_steps (steps_done fs root), steps_done fs root⟩
  distinct _ steps := ⟨(Steps.sound steps).stack_eq, (Steps.sound steps).distinct⟩
  balanced stack waiting f line kind name _ := steps_answer fs stack waiting f line kind name
  cycle _ _ _ _ := load_cycle_iff
  again stack _ _ _ _ _ _ _ loaded := Loading.repeats_load stack loaded

/-- A file that includes itself under another spelling of its path is a cycle. -/
theorem cycle_of_dotted_path :
    let text := ['-', 'r', ' ', '.', '/', 'r']
    let fs : FileSystem := ⟨[], [(["r"], .text text)]⟩
    (RequirementsFile.load fs ⟨"r"⟩).value = .error (.cycle ⟨"r"⟩ ⟨"./r"⟩ 1) := by
  intro text fs
  have script : Script.read text = ⟨[⟨1, .include .requirements ⟨"./r"⟩⟩], none⟩ := by
    rw [Script.read, Script.readFrom_of_statement text
      (Scanner.skipTrivia_of_other rfl rfl (by decide)) rfl, Script.readFrom_nil]
    rfl
  let reached : State :=
    .atInclude [[.root, .name "r"]] [] ⟨⟨"r"⟩, none, [], .empty⟩ 1 .requirements ⟨"./r"⟩
  have opened : Step fs (.start ⟨"r"⟩) ⟨[[.root, .name "r"]], [],
      .run ⟨⟨"r"⟩, (Script.read text).fault?, (Script.read text).statements, .empty⟩⟩ := .open rfl
  have steps : Steps fs (.start ⟨"r"⟩) reached := by
    rw [script] at opened
    exact .single opened
  have isOpen : reached.IsOpen fs ⟨"./r"⟩ :=
    ⟨⟨"r"⟩, List.mem_singleton_self _, ["r"], rfl, rfl⟩
  have found := ((include_discipline fs ⟨"r"⟩).cycle _ _ _ _).mpr
    ⟨_, _, _, _, _, steps, rfl, rfl, isOpen, rfl⟩
  exact found.1

end PinFloor
