import PinFloor.Proofs.RequirementsFile.Cycles
import PinFloor.Proofs.RequirementsFile.Roles

/-! # Errors of included files

Loading a file stops at its first failure in statement order, however deep it is. The error names
the files on the way to it: the first is the file that is loaded, each of the others is included by
the one before it at the line that the error gives, and the failure itself is in the last one.
-/

namespace PinFloor

variable {fs : FileSystem} {opened : List Identity} {file root : Path} {text : List Char}
  {chain : List Hop} {e cause : LoadError}

/-- An error in the last file of a chain, as it is known in the first one. -/
def LoadError.behind (chain : List Hop) (cause : LoadError) : LoadError :=
  chain.foldr (fun hop inner => .included hop.file hop.line inner) cause

/-- A statement of a file adds its part while some files are open: it is no include statement, or
    the file that it includes loads. -/
def Loads (fs : FileSystem) (opened : List Identity) (file : Path) (s : PlacedStatement) : Prop :=
  ∃ content, (Loading.ofStatement fs opened file s).value = .ok content

/-- A file is read and each of its statements loads, up to those that are left. -/
structure LoadsUpTo (fs : FileSystem) (opened : List Identity) (file : Path) (text : List Char)
    (left : List PlacedStatement) : Prop where
  readable : fs.read file = .ok text
  before : ∃ before, (Script.read text).statements = before ++ left ∧
    ∀ s ∈ before, Loads fs (opened ++ [fs.identity file]) file s

/-- Loading a file, while some others are open, stops with a failure that the include statements of a
    chain lead to. -/
inductive Stops (fs : FileSystem) : List Identity → Path → List Hop → LoadError → Prop where
  | unreadable {opened : List Identity} {file : Path} {error : ReadError} :
      fs.read file = .error error → Stops fs opened file [] (.unreadable file error)
  | fault {opened : List Identity} {file : Path} {text : List Char} {fault : Fault} :
      LoadsUpTo fs opened file text [] → (Script.read text).fault? = some fault →
      Stops fs opened file [] (fault.error file)
  | cycle {opened : List Identity} {file name target : Path} {text : List Char} {line : Nat}
      {kind : IncludeKind} {after : List PlacedStatement} :
      LoadsUpTo fs opened file text (⟨line, .include kind name⟩ :: after) →
      file.Names name target → fs.identity target ∈ opened ++ [fs.identity file] →
      Stops fs opened file [] (.cycle file target line)
  | through {opened : List Identity} {file name target : Path} {text : List Char} {line : Nat}
      {kind : IncludeKind} {after : List PlacedStatement} {chain : List Hop} {cause : LoadError} :
      LoadsUpTo fs opened file text (⟨line, .include kind name⟩ :: after) →
      file.Names name target → fs.identity target ∉ opened ++ [fs.identity file] →
      Stops fs (opened ++ [fs.identity file]) target chain cause →
      Stops fs opened file (⟨file, line, kind⟩ :: chain) cause

/-! ## The statement that fails -/

namespace Loading

variable {fault? : Option Fault} {statements : List PlacedStatement}

/-- What fails at a statement is an include statement: the file is open, or it does not load. -/
theorem ofStatement_error {s : PlacedStatement} :
    (ofStatement fs opened file s).value = .error e ↔
      ∃ line kind name, s = ⟨line, .include kind name⟩ ∧
        (fs.identity (file.sibling name) ∈ opened ∧ e = .cycle file (file.sibling name) line ∨
          fs.identity (file.sibling name) ∉ opened ∧
            ∃ cause, (ofTarget fs opened (file.sibling name)).value = .error cause ∧
              e = .included file line cause) := by
  obtain ⟨line, statement⟩ := s
  cases statement with
  | «include» kind name =>
      by_cases inside : fs.identity (file.sibling name) ∈ opened
      · rw [ofStatement_open inside]
        simp [fail, Told.silent, inside, eq_comm]
      · rw [ofStatement_closed inside, ofInclude, Told.map]
        cases below : (ofTarget fs opened (file.sibling name)).value <;>
          simp [inside, below, eq_comm]
  | requirement | editable | unnamed | option => simp [ofStatement, Told.silent]

/-- Statements fail with the first of them that does, or all load and the text has a fault. -/
theorem ofStatements_error :
    (ofStatements fs opened file fault? statements).value = .error e ↔
      (∃ before s after, statements = before ++ s :: after ∧
        (∀ b ∈ before, Loads fs opened file b) ∧ (ofStatement fs opened file s).value = .error e) ∨
      (∀ s ∈ statements, Loads fs opened file s) ∧
        ∃ fault, fault? = some fault ∧ e = fault.error file := by
  induction statements with
  | nil =>
      rw [ofStatements_nil]
      cases fault? <;> simp [Told.silent, eq_comm]
  | cons s rest ih =>
      rw [ofStatements_cons]
      cases here : (ofStatement fs opened file s).value with
      | error error =>
          have stuck : ¬ Loads fs opened file s := by
            rintro ⟨content, loaded⟩
            cases here.symm.trans loaded
          rw [Told.andThen_value_of_error here]
          constructor
          · rintro ⟨⟩
            exact .inl ⟨[], s, rest, rfl, List.forall_mem_nil _, here⟩
          · rintro (⟨before, t, after, whole, loaded, failed⟩ | ⟨loaded, -⟩)
            · cases before with
              | nil =>
                  obtain ⟨rfl, rfl⟩ := List.cons.inj whole
                  exact here.symm.trans failed
              | cons b before =>
                  obtain ⟨rfl, -⟩ := List.cons.inj whole
                  exact absurd (loaded s List.mem_cons_self) stuck
            · exact absurd (loaded s List.mem_cons_self) stuck
      | ok first =>
          have loads : Loads fs opened file s := ⟨first, here⟩
          have others : (ofStatements fs opened file fault? (s :: rest)).value = .error e ↔
              (ofStatements fs opened file fault? rest).value = .error e := by
            rw [ofStatements_cons, Told.andThen_value_of_ok here, Told.map]
            cases (ofStatements fs opened file fault? rest).value <;> simp [Except.map]
          rw [← ofStatements_cons, others, ih, List.forall_mem_cons, and_iff_right loads]
          refine or_congr_left ⟨?_, ?_⟩
          · rintro ⟨before, t, after, rfl, loaded, failed⟩
            exact ⟨s :: before, t, after, rfl, List.forall_mem_cons.mpr ⟨loads, loaded⟩, failed⟩
          · rintro ⟨before, t, after, whole, loaded, failed⟩
            cases before with
            | nil =>
                obtain ⟨rfl, -⟩ := List.cons.inj whole
                cases here.symm.trans failed
            | cons b before =>
                obtain ⟨-, rfl⟩ := List.cons.inj whole
                exact ⟨before, t, after, rfl, (List.forall_mem_cons.mp loaded).2, failed⟩

end Loading

namespace LoadsUpTo

variable {s : PlacedStatement} {after : List PlacedStatement}

/-- The first statement that does not load makes the file fail. -/
theorem fails (upTo : LoadsUpTo fs opened file text (s :: after))
    (failed : (Loading.ofStatement fs (opened ++ [fs.identity file]) file s).value = .error e) :
    (Loading.ofTarget fs opened file).value = .error e := by
  obtain ⟨readable, before, whole, loaded⟩ := upTo
  rw [Loading.ofTarget_value readable]
  exact Loading.ofStatements_error.mpr (.inl ⟨before, s, after, whole, loaded, failed⟩)

/-- Where all statements load, the fault behind them makes the file fail. -/
theorem fails_at_fault (upTo : LoadsUpTo fs opened file text []) {fault : Fault}
    (faulty : (Script.read text).fault? = some fault) :
    (Loading.ofTarget fs opened file).value = .error (fault.error file) := by
  obtain ⟨readable, before, whole, loaded⟩ := upTo
  rw [List.append_nil] at whole
  rw [Loading.ofTarget_value readable]
  exact Loading.ofStatements_error.mpr (.inr ⟨whole ▸ loaded, fault, faulty, rfl⟩)

end LoadsUpTo

/-! ## The chain to a failure -/

/-- A chain along which loading stops gives the error. -/
theorem Stops.fails (stops : Stops fs opened file chain cause) :
    (Loading.ofTarget fs opened file).value = .error (cause.behind chain) := by
  induction stops with
  | unreadable unreadable => rw [Loading.ofTarget, unreadable]; rfl
  | fault upTo faulty => exact upTo.fails_at_fault faulty
  | cycle upTo names inside =>
      cases Path.names_iff.mp names
      apply upTo.fails
      rw [Loading.ofStatement_open inside]
      rfl
  | through upTo names outside _ below =>
      cases Path.names_iff.mp names
      apply upTo.fails
      rw [Loading.ofStatement_closed outside, Loading.ofInclude, Told.map, below]
      rfl

/-- Loading that fails stops along a chain: below an include statement that fails with a shorter
    error, or at the file itself. -/
theorem Stops.exists_of_error {opened : List Identity} {file : Path} {e : LoadError}
    (failed : (Loading.ofTarget fs opened file).value = .error e) :
    ∃ chain cause, Stops fs opened file chain cause ∧ e = cause.behind chain := by
  cases read : fs.read file with
  | error error =>
      rw [Loading.ofTarget, read] at failed
      cases failed
      exact ⟨[], _, .unreadable read, rfl⟩
  | ok text =>
      rw [Loading.ofTarget_value read] at failed
      rcases Loading.ofStatements_error.mp failed with
        ⟨before, s, after, whole, loaded, failed⟩ | ⟨loaded, fault, faulty, rfl⟩
      · obtain ⟨line, kind, name, rfl, ⟨inside, rfl⟩ | ⟨outside, cause, below, rfl⟩⟩ :=
          Loading.ofStatement_error.mp failed
        · exact ⟨[], _, .cycle ⟨read, before, whole, loaded⟩ (Path.names_sibling ..) inside, rfl⟩
        · obtain ⟨chain, last, stops, rfl⟩ := Stops.exists_of_error below
          have upTo : LoadsUpTo fs opened file text _ := ⟨read, before, whole, loaded⟩
          exact ⟨_, last, .through upTo (Path.names_sibling ..) outside stops, rfl⟩
      · exact ⟨[], _, .fault ⟨read, _, (List.append_nil _).symm, loaded⟩ faulty, rfl⟩
termination_by e

/-- Include statements lead along the chain to the file in which the failure is. -/
theorem Stops.leads (stops : Stops fs opened file chain cause) :
    Leads fs file chain cause.file := by
  induction stops with
  | unreadable | cycle => exact .here
  | @fault _ _ _ fault => cases fault <;> exact .here
  | through upTo names _ _ ih =>
      obtain ⟨before, whole, -⟩ := upTo.before
      exact .through upTo.readable (by simp [whole]) names ih

/-- The failure at the end of the chain has no further cause. -/
theorem Stops.root_eq (stops : Stops fs opened file chain cause) : cause.root = cause := by
  induction stops with
  | unreadable | cycle => rfl
  | @fault _ _ _ fault => cases fault <;> rfl
  | through _ _ _ _ ih => exact ih

/-- Loading a file fails exactly if it stops along a chain of include statements, before each of which
    all statements of its file load, at a failure in the last file. The error gives for each file of
    the chain the line at which it includes the next one, and nothing is loaded. -/
theorem load_error_iff_stops (fs : FileSystem) (root : Path) (e : LoadError) :
    (RequirementsFile.load fs root).value = .error e ↔
      ∃ chain cause, Stops fs [] root chain cause ∧ Leads fs root chain cause.file ∧
        cause.root = cause ∧ e = cause.behind chain := by
  rw [Loading.load_eq_ofTarget]
  constructor
  · intro failed
    obtain ⟨chain, cause, stops, same⟩ := Stops.exists_of_error failed
    exact ⟨chain, cause, stops, stops.leads, stops.root_eq, same⟩
  · rintro ⟨chain, cause, stops, -, -, rfl⟩
    exact stops.fails

open Scanner in
/-- The file `b` that `d/a` includes is `d/b`, and not the file `b` that is there. What it includes by an
    absolute path is not in `d` either. The statement before the one that fails is a target. -/
theorem missing_file_below_subdirectory :
    let root := ['-', 'r', ' ', 'd', '/', 'a']
    let middle := ['-', 'e', ' ', 'x', '\n', '-', 'c', ' ', 'b']
    let last := ['-', 'r', ' ', '/', 'c']
    let fs : FileSystem :=
      ⟨["w"], [(["w", "r"], .text root), (["w", "d", "a"], .text middle),
        (["w", "d", "b"], .text last), (["w", "b"], .text []), (["w", "d", "c"], .text [])]⟩
    (RequirementsFile.load fs ⟨"r"⟩).value = .error (.included ⟨"r"⟩ 1
      (.included ⟨"d/a"⟩ 2 (.included ⟨"d/b"⟩ 1 (.unreadable ⟨"/c"⟩ .notFound)))) := by
  intro root middle last fs
  have rootScript : Script.read root = ⟨[⟨1, .include .requirements ⟨"d/a"⟩⟩], none⟩ := by
    rw [Script.read, Script.readFrom_of_statement root
      (skipTrivia_of_other rfl rfl (by decide)) rfl, Script.readFrom_nil]
    rfl
  have second : Script.readFrom middle ['-', 'c', ' ', 'b'] =
      ⟨[⟨2, .include .constraints ⟨"b"⟩⟩], none⟩ := by
    rw [Script.readFrom_of_statement ['-', 'c', ' ', 'b']
      (skipTrivia_of_other rfl rfl (by decide)) rfl, Script.readFrom_nil]
    rfl
  have middleScript : Script.read middle =
      ⟨[⟨1, .editable "x"⟩, ⟨2, .include .constraints ⟨"b"⟩⟩], none⟩ := by
    rw [Script.read, Script.readFrom_of_statement middle
      (skipTrivia_of_other rfl rfl (by decide)) rfl, second]
    rfl
  have lastScript : Script.read last = ⟨[⟨1, .include .requirements ⟨"/c"⟩⟩], none⟩ := by
    rw [Script.read, Script.readFrom_of_statement last
      (skipTrivia_of_other rfl rfl (by decide)) rfl, Script.readFrom_nil]
    rfl
  have first : LoadsUpTo fs [] ⟨"r"⟩ root [⟨1, .include .requirements ⟨"d/a"⟩⟩] :=
    ⟨rfl, [], by rw [rootScript]; rfl, List.forall_mem_nil _⟩
  have next (opened : List Identity) :
      LoadsUpTo fs opened ⟨"d/a"⟩ middle [⟨2, .include .constraints ⟨"b"⟩⟩] := by
    refine ⟨rfl, [⟨1, .editable "x"⟩], by rw [middleScript]; rfl, ?_⟩
    intro s member
    cases List.mem_singleton.mp member
    exact ⟨_, rfl⟩
  have below (opened : List Identity) :
      LoadsUpTo fs opened ⟨"d/b"⟩ last [⟨1, .include .requirements ⟨"/c"⟩⟩] :=
    ⟨rfl, [], by rw [lastScript]; rfl, List.forall_mem_nil _⟩
  have ends (opened : List Identity) : Stops fs opened ⟨"/c"⟩ [] (.unreadable ⟨"/c"⟩ .notFound) :=
    .unreadable rfl
  have stops : Stops fs [] ⟨"r"⟩
      [⟨⟨"r"⟩, 1, .requirements⟩, ⟨⟨"d/a"⟩, 2, .constraints⟩, ⟨⟨"d/b"⟩, 1, .requirements⟩]
      (.unreadable ⟨"/c"⟩ .notFound) := by
    apply Stops.through first (Path.names_iff.mpr (by rfl)) (by decide)
    apply Stops.through (next _) (Path.names_iff.mpr (by rfl)) (by decide)
    exact .through (below _) (Path.names_iff.mpr (by rfl)) (by decide) (ends _)
  exact (load_error_iff_stops fs ⟨"r"⟩ _).mpr ⟨_, _, stops, stops.leads, rfl, rfl⟩

end PinFloor
