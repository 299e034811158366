import Mathlib.Logic.Relation
import PinFloor.Proofs.RequirementsFile.Loading

/-! # Loading step by step

A machine that loads a file one statement at a time. It keeps one stack with the identities of the
open files: opening a file pushes its identity, and closing it, after success and after a failure,
pops it. Its runs end, with what loading the file gives.
-/

namespace PinFloor

/-- A file that is being loaded. -/
structure OpenFile where
  file : Path
  /-- Why the text ends before the file does, if it cannot be read further. -/
  fault? : Option Fault
  /-- The statements that are left. -/
  rest : List PlacedStatement
  /-- What the statements before have added. -/
  content : RequirementsFile

/-- A file that waits at an include statement for the included file. -/
structure Waiting where
  opener : OpenFile
  line : Nat
  kind : IncludeKind

abbrev Result := Except LoadError RequirementsFile

/-- What an included file means for the file that waits for it. -/
def Waiting.pass (w : Waiting) : Result → Result
  | .error cause => .error (.included w.opener.file w.line cause)
  | .ok content => .ok (.included w.kind content)

/-- What the machine does next. -/
inductive Task where
  /-- Opening the file at a path. -/
  | parse (path : Path)
  /-- Going on with an open file. -/
  | run (f : OpenFile)
  /-- Going on with an open file after an include statement. -/
  | answer (f : OpenFile) (result : Result)
  /-- Closing a file. -/
  | close (file : Path) (result : Result)
  /-- Nothing: all files are closed. -/
  | done (result : Result)

structure State where
  /-- The identities of the open files. -/
  stack : List Identity
  /-- The files that wait for an included file, innermost first. -/
  waiting : List Waiting
  task : Task

namespace State

def start (root : Path) : State :=
  ⟨[], [], .parse root⟩

/-- The result of a file goes to the file that waits for it. -/
def reply (stack : List Identity) (waiting : List Waiting) (result : Result) : State :=
  match waiting with
  | [] => ⟨stack, [], .done result⟩
  | w :: outer => ⟨stack, outer, .answer w.opener (w.pass result)⟩

/-- The files that are open, outermost first. -/
def openFiles (s : State) : List Path :=
  (s.waiting.map (·.opener.file)).reverse ++
    match s.task with
    | .run f | .answer f _ => [f.file]
    | .close file _ => [file]
    | .parse _ | .done _ => []

end State

/-- One step of loading. -/
inductive Step (fs : FileSystem) : State → State → Prop where
  | unreadable {stack : List Identity} {waiting : List Waiting} {path : Path} {error : ReadError} :
      fs.read path = .error error →
      Step fs ⟨stack, waiting, .parse path⟩ (.reply stack waiting (.error (.unreadable path error)))
  | «open» {stack : List Identity} {waiting : List Waiting} {path : Path} {text : List Char} :
      fs.read path = .ok text →
      Step fs ⟨stack, waiting, .parse path⟩ ⟨stack ++ [fs.identity path], waiting,
        .run ⟨path, (Script.read text).fault?, (Script.read text).statements, .empty⟩⟩
  | plain {stack : List Identity} {waiting : List Waiting} {file : Path} {fault? : Option Fault}
      {s : PlacedStatement} {rest : List PlacedStatement} {content : RequirementsFile} :
      (∀ kind name, s.statement ≠ .include kind name) →
      Step fs ⟨stack, waiting, .run ⟨file, fault?, s :: rest, content⟩⟩
        ⟨stack, waiting, .run ⟨file, fault?, rest,
          content.merge (Loading.single file s.line s.statement)⟩⟩
  | cycle {stack : List Identity} {waiting : List Waiting} {file name : Path}
      {fault? : Option Fault} {line : Nat} {kind : IncludeKind} {rest : List PlacedStatement}
      {content : RequirementsFile} : fs.identity (file.sibling name) ∈ stack →
      Step fs ⟨stack, waiting, .run ⟨file, fault?, ⟨line, .include kind name⟩ :: rest, content⟩⟩
        ⟨stack, waiting, .answer ⟨file, fault?, rest, content⟩
          (.error (.cycle file (file.sibling name) line))⟩
  | descend {stack : List Identity} {waiting : List Waiting} {file name : Path}
      {fault? : Option Fault} {line : Nat} {kind : IncludeKind} {rest : List PlacedStatement}
      {content : RequirementsFile} : fs.identity (file.sibling name) ∉ stack →
      Step fs ⟨stack, waiting, .run ⟨file, fault?, ⟨line, .include kind name⟩ :: rest, content⟩⟩
        ⟨stack, ⟨⟨file, fault?, rest, content⟩, line, kind⟩ :: waiting, .parse (file.sibling name)⟩
  | fault {stack : List Identity} {waiting : List Waiting} {file : Path} {fault : Fault}
      {content : RequirementsFile} :
      Step fs ⟨stack, waiting, .run ⟨file, some fault, [], content⟩⟩
        ⟨stack, waiting, .close file (.error (fault.error file))⟩
  | finish {stack : List Identity} {waiting : List Waiting} {file : Path}
      {content : RequirementsFile} :
      Step fs ⟨stack, waiting, .run ⟨file, none, [], content⟩⟩
        ⟨stack, waiting, .close file (.ok content)⟩
  | failed {stack : List Identity} {waiting : List Waiting} {f : OpenFile} {error : LoadError} :
      Step fs ⟨stack, waiting, .answer f (.error error)⟩
        ⟨stack, waiting, .close f.file (.error error)⟩
  | added {stack : List Identity} {waiting : List Waiting} {f : OpenFile}
      {content : RequirementsFile} :
      Step fs ⟨stack, waiting, .answer f (.ok content)⟩
        ⟨stack, waiting, .run { f with content := f.content.merge content }⟩
  | close {stack : List Identity} {waiting : List Waiting} {file : Path} {result : Result} :
      Step fs ⟨stack, waiting, .close file result⟩ (.reply stack.dropLast waiting result)

abbrev Steps (fs : FileSystem) : State → State → Prop :=
  Relation.ReflTransGen (Step fs)

variable {fs : FileSystem} {s t u : State}

theorem Step.unique (first : Step fs s t) (second : Step fs s u) : t = u := by
  cases first <;> cases second <;> simp_all

/-! ## What runs lead to -/

section

variable {stack : List Identity} {waiting : List Waiting} {file target name : Path}
  {fault? : Option Fault} {rest : List PlacedStatement} {content : RequirementsFile}

/-- The statements of a file that is open are run to their end, with what they load. -/
def Runs (fs : FileSystem) (stack : List Identity) (file : Path) (fault? : Option Fault)
    (statements : List PlacedStatement) : Prop :=
  ∀ waiting content, Steps fs ⟨stack, waiting, .run ⟨file, fault?, statements, content⟩⟩
    ⟨stack, waiting,
      .close file ((Loading.ofStatements fs stack file fault? statements).value.map content.merge)⟩

theorem steps_parse (inner : ∀ text, fs.read target = .ok text →
      Runs fs (stack ++ [fs.identity target]) target (Script.read text).fault?
        (Script.read text).statements) :
    Steps fs ⟨stack, waiting, .parse target⟩
      (.reply stack waiting (Loading.ofTarget fs stack target).value) := by
  rw [Loading.ofTarget]
  cases readable : fs.read target with
  | error error => exact .single (.unreadable readable)
  | ok text =>
      have closed : Steps fs _ _ := (inner text readable waiting .empty).tail .close
      rw [List.dropLast_concat] at closed
      have same : ∀ result : Result, result.map RequirementsFile.empty.merge = result := by
        rintro (_ | _) <;> simp [Except.map]
      rw [same] at closed
      exact .head (.open readable) closed

theorem pass_ofInclude (opener : OpenFile) (line : Nat) (kind : IncludeKind) (inner : Loading) :
    Waiting.pass ⟨opener, line, kind⟩ inner.value =
      (Loading.ofInclude opener.file line kind inner).value := by
  simp only [Loading.ofInclude, Told.map]
  cases inner.value <;> rfl

theorem steps_include (waiting : List Waiting) (fault? : Option Fault)
    (rest : List PlacedStatement) (content : RequirementsFile) (line : Nat) (kind : IncludeKind)
    (inner : ∀ text, fs.identity (file.sibling name) ∉ stack →
      fs.read (file.sibling name) = .ok text →
      Runs fs (stack ++ [fs.identity (file.sibling name)]) (file.sibling name)
        (Script.read text).fault? (Script.read text).statements) :
    Steps fs ⟨stack, waiting, .run ⟨file, fault?, ⟨line, .include kind name⟩ :: rest, content⟩⟩
      ⟨stack, waiting, .answer ⟨file, fault?, rest, content⟩
        (Loading.ofStatement fs stack file ⟨line, .include kind name⟩).value⟩ := by
  by_cases inside : fs.identity (file.sibling name) ∈ stack
  · rw [Loading.ofStatement_open inside]
    exact .single (.cycle inside)
  · rw [Loading.ofStatement_closed inside]
    have passed := pass_ofInclude ⟨file, fault?, rest, content⟩ line kind
      (Loading.ofTarget fs stack (file.sibling name))
    rw [← passed]
    exact .head (.descend inside) (steps_parse fun text => inner text inside)

theorem map_merge_ofStatements {s : PlacedStatement} {first : RequirementsFile}
    (added : (Loading.ofStatement fs stack file s).value = .ok first) :
    (Loading.ofStatements fs stack file fault? (s :: rest)).value.map content.merge =
      (Loading.ofStatements fs stack file fault? rest).value.map (content.merge first).merge := by
  rw [Loading.ofStatements_cons, Told.andThen_value_of_ok added, Told.map]
  cases (Loading.ofStatements fs stack file fault? rest).value with
  | error => rfl
  | ok others => exact congrArg Except.ok (RequirementsFile.merge_assoc content first others).symm

theorem runs (fs : FileSystem) (stack : List Identity) (file : Path) (fault? : Option Fault)
    (statements : List PlacedStatement) : Runs fs stack file fault? statements := by
  induction stack, file, fault?, statements using Loading.statements_induction fs with
  | nil stack file fault? =>
      intro waiting content
      rw [Loading.ofStatements_nil]
      cases fault? with
      | none =>
          simp only [Told.silent, Except.map, RequirementsFile.merge_empty]
          exact .single .finish
      | some fault => exact .single .fault
  | cons stack file fault? s rest inner later =>
      intro waiting content
      obtain ⟨line, statement⟩ := s
      cases statement with
      | «include» kind name =>
          have answered := steps_include waiting fault? rest content line kind fun text =>
            inner kind name text rfl
          cases added : (Loading.ofStatement fs stack file ⟨line, .include kind name⟩).value with
          | error error =>
              rw [added] at answered
              rw [Loading.ofStatements_cons, Told.andThen_value_of_error added]
              exact answered.tail .failed
          | ok first =>
              rw [added] at answered
              rw [map_merge_ofStatements added]
              exact (answered.tail .added).trans (later waiting _)
      | requirement | editable | unnamed | option =>
          rw [map_merge_ofStatements rfl]
          exact .head (.plain (by simp)) (later waiting _)

end

theorem steps_done (fs : FileSystem) (root : Path) :
    Steps fs (.start root) ⟨[], [], .done (RequirementsFile.load fs root).value⟩ :=
  steps_parse fun _ _ => runs fs _ _ _ _

theorem not_step_done {stack : List Identity} {waiting : List Waiting} {result : Result} :
    ¬ Step fs ⟨stack, waiting, .done result⟩ t := by
  rintro ⟨⟩

/-- No run goes on for ever, since there is only one and it ends. -/
theorem acc_of_steps {stack : List Identity} {waiting : List Waiting} {result : Result}
    (ends : Steps fs s ⟨stack, waiting, .done result⟩) : Acc (fun t s => Step fs s t) s := by
  induction ends using Relation.ReflTransGen.head_induction_on with
  | refl => exact ⟨_, fun _ step => absurd step not_step_done⟩
  | head step _ ih => exact ⟨_, fun _ other => step.unique other ▸ ih⟩

theorem steps_done_unique {stack stack' : List Identity} {waiting waiting' : List Waiting}
    {result result' : Result} (first : Steps fs s ⟨stack, waiting, .done result⟩)
    (second : Steps fs s ⟨stack', waiting', .done result'⟩) : result = result' := by
  have deterministic : Relator.RightUnique (Step fs) := fun _ _ _ => Step.unique
  rcases Relation.ReflTransGen.total_of_right_unique deterministic first second with rest | rest
  all_goals
    rcases rest.cases_head with same | ⟨_, step, _⟩
    · cases same
      rfl
    · exact absurd step not_step_done

/-! ## The stack -/

/-- The stack holds the identities of the open files, which differ and can be read. A file that is
    about to be opened is not one of them. -/
structure State.Sound (fs : FileSystem) (s : State) : Prop where
  stack_eq : s.stack = s.openFiles.map fs.identity
  distinct : s.stack.Nodup
  readable : ∀ file ∈ s.openFiles, ∃ text, fs.read file = .ok text
  fresh : ∀ path, s.task = .parse path → fs.identity path ∉ s.stack

namespace State

theorem sound_start (fs : FileSystem) (root : Path) : (start root).Sound fs :=
  ⟨rfl, .nil, nofun, fun _ _ => List.not_mem_nil⟩

@[simp] theorem reply_stack (stack : List Identity) (waiting : List Waiting) (result : Result) :
    (reply stack waiting result).stack = stack := by
  cases waiting <;> rfl

@[simp] theorem reply_openFiles (stack : List Identity) (waiting : List Waiting) (result : Result) :
    (reply stack waiting result).openFiles = (waiting.map (·.opener.file)).reverse := by
  cases waiting <;> simp [reply, openFiles]

theorem reply_task_ne (stack : List Identity) (waiting : List Waiting) (result : Result)
    (path : Path) : (reply stack waiting result).task ≠ .parse path := by
  cases waiting <;> nofun

/-- Steps that neither open nor close a file. -/
theorem Sound.same (sound : s.Sound fs) (stack : t.stack = s.stack)
    (openFiles : t.openFiles = s.openFiles)
    (fresh : ∀ path, t.task = .parse path → fs.identity path ∉ s.stack) : t.Sound fs where
  stack_eq := by rw [stack, openFiles, sound.stack_eq]
  distinct := stack ▸ sound.distinct
  readable := openFiles ▸ sound.readable
  fresh := by rwa [stack]

end State

theorem Step.sound (step : Step fs s t) (sound : s.Sound fs) : t.Sound fs := by
  cases step with
  | @unreadable stack waiting path error _ =>
      have openFiles := State.reply_openFiles stack waiting (.error (.unreadable path error))
      refine sound.same (State.reply_stack ..) ?_ fun other task => ?_
      · rw [openFiles]
        exact (List.append_nil _).symm
      · exact absurd task (State.reply_task_ne _ _ _ other)
  | @«open» stack waiting path text readable =>
      have stack_eq := sound.stack_eq
      have fresh := sound.fresh path rfl
      have known := sound.readable
      simp only [State.openFiles, List.append_nil] at stack_eq known
      refine ⟨by simp [State.openFiles, stack_eq], ?_, ?_, nofun⟩
      · have apart : ∀ id ∈ stack, id ≠ fs.identity path := fun id inside =>
          ne_of_mem_of_not_mem inside fresh
        simpa [List.nodup_append, sound.distinct] using apart
      · intro file inside
        rcases List.mem_append.mp inside with inside | inside
        · exact known file inside
        · exact ⟨text, List.mem_singleton.mp inside ▸ readable⟩
  | plain | cycle | fault | finish | failed | added => exact sound.same rfl rfl nofun
  | descend outside =>
      refine sound.same rfl (by simp [State.openFiles]) fun path task => ?_
      cases task
      exact outside
  | @close stack waiting file result =>
      have stack_eq := sound.stack_eq
      have known := sound.readable
      simp only [State.openFiles, List.map_append, List.map_singleton] at stack_eq known
      refine ⟨?_, ?_, ?_, fun other task => absurd task (State.reply_task_ne _ _ _ other)⟩
      · simp [stack_eq]
      · simpa using sound.distinct.sublist (List.dropLast_sublist _)
      · intro file inside
        rw [State.reply_openFiles] at inside
        exact known file (List.mem_append_left _ inside)

/-- Whatever happens, the stack is that of the files that are open. -/
theorem Steps.sound {root : Path} (steps : Steps fs (.start root) s) : s.Sound fs := by
  induction steps with
  | refl => exact State.sound_start fs root
  | tail _ step ih => exact step.sound ih

end PinFloor
