import PinFloor.RequirementsFile.Loader

/-! # Loading, statement by statement

What a file holds is put together from what its statements add, one after the other: each of them
adds an entry, an option or the content of another file. The first error ends the loading.
-/

namespace PinFloor

namespace Told

variable {ε α β γ δ : Type}

theorem map_map {f : α → β} {g : β → γ} {h : α → γ} (same : ∀ a, g (f a) = h a) (told : Told α) :
    (told.map f).map g = told.map h := by
  simp only [map, same]

theorem map_map_comm {f : α → β} {g : β → δ} {f' : α → γ} {g' : γ → δ}
    (same : ∀ a, g (f a) = g' (f' a)) (told : Told α) :
    (told.map f).map g = (told.map f').map g' := by
  simp only [map, same]

@[simp] theorem silent_andThen (a : α) (next : α → Told (Except ε β)) :
    (silent (.ok a)).andThen next = next a :=
  rfl

theorem andThen_value_of_ok {told : Told (Except ε α)} {a : α} (ok : told.value = .ok a)
    (next : α → Told (Except ε β)) : (told.andThen next).value = (next a).value := by
  rw [andThen, ok]

theorem andThen_value_of_error {told : Told (Except ε α)} {e : ε} (error : told.value = .error e)
    (next : α → Told (Except ε β)) : (told.andThen next).value = .error e := by
  rw [andThen, error]

theorem andThen_eq_self {told : Told (Except ε α)} {e : ε} (error : told.value = .error e)
    (next : α → Told (Except ε α)) : told.andThen next = told := by
  obtain ⟨value, notices⟩ := told
  cases error
  rfl

theorem andThen_value_eq_ok {told : Told (Except ε α)} {next : α → Told (Except ε β)} {b : β} :
    (told.andThen next).value = .ok b ↔ ∃ a, told.value = .ok a ∧ (next a).value = .ok b := by
  rw [andThen]
  cases told.value <;> simp

theorem andThen_assoc (told : Told (Except ε α)) (next : α → Told (Except ε β))
    (last : β → Told (Except ε γ)) :
    (told.andThen next).andThen last = told.andThen fun a => (next a).andThen last := by
  obtain ⟨value, notices⟩ := told
  cases value with
  | error => rfl
  | ok a =>
      simp only [andThen]
      cases (next a).value <;> simp

theorem map_andThen_map (f : α → β) (told : Told (Except ε α)) (next : β → Told (Except ε γ)) :
    (told.map (·.map f)).andThen next = told.andThen fun a => next (f a) := by
  obtain ⟨value, notices⟩ := told
  cases value <;> rfl

theorem andThen_map {f : Except ε β → Except ε γ} {told : Told (Except ε α)}
    (same : ∀ e, told.value = .error e → f (.error e) = .error e) (next : α → Told (Except ε β)) :
    (told.andThen next).map f = told.andThen fun a => (next a).map f := by
  obtain ⟨value, notices⟩ := told
  cases value with
  | error e => simp [andThen, map, same e rfl]
  | ok => rfl

end Told

namespace RequirementsFile

@[simp] theorem empty_merge (a : RequirementsFile) : empty.merge a = a := by
  obtain ⟨_, _, _, _, ⟨indexUrl, _, _, _, _, _, _, _, _, _⟩⟩ := a
  cases indexUrl <;> simp [merge, empty, GlobalOptions.merge]

@[simp] theorem merge_empty (a : RequirementsFile) : a.merge empty = a := by
  simp [merge, empty, GlobalOptions.merge]

theorem merge_assoc (a b c : RequirementsFile) : (a.merge b).merge c = a.merge (b.merge c) := by
  cases h : c.options.indexUrl <;>
    simp [merge, GlobalOptions.merge, h, Bool.or_assoc]

/-- The places of all entries. -/
def origins (a : RequirementsFile) : List Origin :=
  a.requirements.map Entry.origin ++ a.constraints.map Entry.origin ++
    a.editables.map Target.origin ++ a.unnamed.map Target.origin

end RequirementsFile

namespace Loading

variable (fs : FileSystem) (opened : List Identity) (file : Path)

/-- Loads the file at a path, while others are being loaded. -/
def ofTarget (target : Path) : Loading :=
  match fs.read target with
  | .error error => fail (.unreadable target error)
  | .ok content =>
      ofFile target (ofStatements fs (opened ++ [fs.identity target]) target
        (Script.read content).fault? (Script.read content).statements)

/-- Loads what one statement adds. -/
def ofStatement : PlacedStatement → Loading
  | ⟨line, .include kind name⟩ =>
      if opened.contains (fs.identity (file.sibling name)) then
        fail (.cycle file (file.sibling name) line)
      else ofInclude file line kind (ofTarget fs opened (file.sibling name))
  | ⟨line, statement⟩ => .silent (.ok (single file line statement))

theorem load_eq_ofTarget (path : Path) : RequirementsFile.load fs path = ofTarget fs [] path :=
  rfl

theorem ofStatements_nil (fault? : Option Fault) : ofStatements fs opened file fault? [] =
    .silent (match fault? with
      | none => .ok .empty
      | some fault => .error (fault.error file)) := by
  cases fault? with
  | none => rw [ofStatements]
  | some fault => rw [ofStatements, fail]

theorem ofStatements_cons (fault? : Option Fault) (s : PlacedStatement)
    (rest : List PlacedStatement) : ofStatements fs opened file fault? (s :: rest) =
      (ofStatement fs opened file s).andThen fun first =>
        (ofStatements fs opened file fault? rest).map (·.map first.merge) := by
  obtain ⟨line, statement⟩ := s
  cases statement with
  | «include» kind name =>
      rw [ofStatements, ofStatement]
      split
      · next inside => rw [if_pos inside]; rfl
      · next outside =>
          rw [if_neg (by rw [outside]; exact Bool.false_ne_true), ofTarget]
          split
          · next unreadable => rw [unreadable]; rfl
          · next readable => rw [readable]
  | requirement | editable | unnamed | option =>
      rw [ofStatements]
      · rfl
      · simp

/-- What ends the loading at a statement is a cycle, or an error in the included file. -/
theorem error_of_ofStatement {s : PlacedStatement} {e : LoadError}
    (failed : (ofStatement fs opened file s).value = .error e) :
    (∃ target, e = .cycle file target s.line) ∨ ∃ cause, e = .included file s.line cause := by
  obtain ⟨line, statement⟩ := s
  cases statement with
  | «include» kind name =>
      rw [ofStatement] at failed
      split at failed
      · cases failed
        exact .inl ⟨_, rfl⟩
      · rw [ofInclude, Told.map] at failed
        split at failed <;> cases failed
        exact .inr ⟨_, rfl⟩
  | requirement | editable | unnamed | option => cases failed

/-- Where errors of statements stay as they are, only the fault at the end of a file can become
    another error. -/
theorem ofStatements_mapFault {f : Fault → Fault} {g : LoadError → LoadError}
    (faults : ∀ fault, (f fault).error file = g (fault.error file))
    (cycles : ∀ target line, g (.cycle file target line) = .cycle file target line)
    (includes : ∀ line cause, g (.included file line cause) = .included file line cause)
    (fault? : Option Fault) (statements : List PlacedStatement) :
    ofStatements fs opened file (fault?.map f) statements =
      (ofStatements fs opened file fault? statements).map (·.mapError g) := by
  induction statements with
  | nil =>
      rw [ofStatements_nil, ofStatements_nil]
      cases fault? with
      | none => rfl
      | some fault => exact congrArg (Told.silent ∘ Except.error) (faults fault)
  | cons s rest ih =>
      have same : ∀ e, (ofStatement fs opened file s).value = .error e → g e = e := by
        intro e failed
        rcases error_of_ofStatement fs opened file failed with ⟨_, rfl⟩ | ⟨_, rfl⟩
        · exact cycles _ _
        · exact includes _ _
      rw [ofStatements_cons, ofStatements_cons, ih, Told.andThen_map]
      · refine congrArg _ (funext fun first => Told.map_map_comm (fun result => ?_) _)
        cases result <;> rfl
      · exact fun e failed => congrArg Except.error (same e failed)

section

variable {fs opened file} {fault? : Option Fault} {rest : List PlacedStatement} {line : Nat}
  {kind : IncludeKind} {name target : Path} {content first : RequirementsFile}

/-- What is loaded from statements is what the first one adds, and what the others add. -/
theorem ofStatements_cons_ok {s : PlacedStatement} :
    (ofStatements fs opened file fault? (s :: rest)).value = .ok content ↔
      ∃ first others, (ofStatement fs opened file s).value = .ok first ∧
        (ofStatements fs opened file fault? rest).value = .ok others ∧
        content = first.merge others := by
  rw [ofStatements_cons, Told.andThen_value_eq_ok]
  simp only [exists_and_left]
  refine exists_congr fun first => and_congr_right fun _ => ?_
  rw [Told.map]
  cases (ofStatements fs opened file fault? rest).value <;> simp [Except.map, eq_comm]

theorem ofTarget_ok : (ofTarget fs opened target).value = .ok content ↔
    ∃ text, fs.read target = .ok text ∧
      (ofStatements fs (opened ++ [fs.identity target]) target (Script.read text).fault?
        (Script.read text).statements).value = .ok content := by
  rw [ofTarget]
  cases fs.read target with
  | error => simp [fail, Told.silent]
  | ok text => simp [ofFile]

theorem ofTarget_value {text : List Char} (readable : fs.read target = .ok text) :
    (ofTarget fs opened target).value =
      (ofStatements fs (opened ++ [fs.identity target]) target (Script.read text).fault?
        (Script.read text).statements).value := by
  rw [ofTarget, readable]
  rfl

theorem ofStatement_open (inside : fs.identity (file.sibling name) ∈ opened) :
    ofStatement fs opened file ⟨line, .include kind name⟩ =
      fail (.cycle file (file.sibling name) line) := by
  rw [ofStatement, if_pos (List.contains_iff_mem.mpr inside)]

theorem ofStatement_closed (outside : fs.identity (file.sibling name) ∉ opened) :
    ofStatement fs opened file ⟨line, .include kind name⟩ =
      ofInclude file line kind (ofTarget fs opened (file.sibling name)) := by
  rw [ofStatement, if_neg (mt List.contains_iff_mem.mp outside)]

/-- An include statement adds what an included file holds that is not open. -/
theorem ofStatement_include_ok :
    (ofStatement fs opened file ⟨line, .include kind name⟩).value = .ok first ↔
      fs.identity (file.sibling name) ∉ opened ∧
        ∃ content, (ofTarget fs opened (file.sibling name)).value = .ok content ∧
          first = .included kind content := by
  rw [ofStatement]
  split
  · simp_all [fail, Told.silent]
  · rw [ofInclude, Told.map]
    cases (ofTarget fs opened (file.sibling name)).value with
    | error => simp
    | ok content => simp_all [eq_comm]

end

/-- Induction along the loading of statements: a statement that includes a file that is not open
    leads to the statements of that file. -/
@[elab_as_elim] theorem statements_induction
    {motive : List Identity → Path → Option Fault → List PlacedStatement → Prop}
    (opened : List Identity) (file : Path) (fault? : Option Fault)
    (statements : List PlacedStatement) (nil : ∀ opened file fault?, motive opened file fault? [])
    (cons : ∀ opened file fault? s rest,
      (∀ kind name content, s.statement = .include kind name →
        fs.identity (file.sibling name) ∉ opened → fs.read (file.sibling name) = .ok content →
        motive (opened ++ [fs.identity (file.sibling name)]) (file.sibling name)
          (Script.read content).fault? (Script.read content).statements) →
      motive opened file fault? rest → motive opened file fault? (s :: rest)) :
    motive opened file fault? statements := by
  match statements with
  | [] => exact nil opened file fault?
  | s :: rest =>
      refine cons opened file fault? s rest (fun kind name content _ outside readable => ?_)
        (statements_induction opened file fault? rest nil cons)
      have closed : opened.contains (fs.identity (file.sibling name)) = false := by
        simpa using outside
      have fewer := FileSystem.length_textFilesBut_lt readable closed
      exact statements_induction _ _ _ _ nil cons
termination_by ((fs.textFilesBut opened).length, statements.length)

variable {fs opened file} in
/-- What holds of all named statements of all texts holds of all entries that are loaded. -/
theorem forall_mem_entries {fault? : Option Fault} {statements : List PlacedStatement}
    {content : RequirementsFile} {P : Requirement → List String → Prop}
    (each : ∀ text line r hashes, ⟨line, .requirement r hashes⟩ ∈ (Script.read text).statements →
      P r hashes)
    (given : ∀ line r hashes, ⟨line, .requirement r hashes⟩ ∈ statements → P r hashes)
    (loaded : (ofStatements fs opened file fault? statements).value = .ok content) :
    ∀ e ∈ content.requirements ++ content.constraints, P e.requirement e.hashes := by
  induction opened, file, fault?, statements using statements_induction fs generalizing content with
  | nil opened file fault? =>
      rw [ofStatements_nil] at loaded
      cases fault? with
      | none =>
          cases loaded
          nofun
      | some => cases loaded
  | cons opened file fault? s rest included later =>
      obtain ⟨first, others, here, behind, rfl⟩ := ofStatements_cons_ok.mp loaded
      have others := later (fun line r hashes member => given line r hashes (.tail s member)) behind
      have first : ∀ e ∈ first.requirements ++ first.constraints, P e.requirement e.hashes := by
        obtain ⟨line, statement⟩ := s
        cases statement with
        | «include» kind name =>
            obtain ⟨outside, content, there, rfl⟩ := ofStatement_include_ok.mp here
            obtain ⟨text, readable, inner⟩ := ofTarget_ok.mp there
            have all := included kind name text rfl outside readable (each text) inner
            cases kind with
            | requirements => exact all
            | constraints => simpa [RequirementsFile.included] using all
        | requirement r hashes =>
            cases here
            simpa [single] using given line r hashes List.mem_cons_self
        | editable | unnamed | option =>
            cases here
            nofun
      intro e member
      simp only [RequirementsFile.merge, List.mem_append] at member first others
      grind

end Loading

end PinFloor
