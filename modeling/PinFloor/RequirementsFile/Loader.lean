import PinFloor.Log.Notice
import PinFloor.RequirementsFile.Basic
import PinFloor.RequirementsFile.Script

/-!
# Loading requirements files

A file is loaded statement by statement; an include statement loads another file at its place. The
files that are being loaded are known by their identities, and including one of them is an error.
Each file that is opened leaves fewer text files that are not open, so loading ends.
-/

namespace PinFloor

/-- What loading a file gives, or the first error. -/
abbrev Loading := Told (Except LoadError RequirementsFile)

namespace FileSystem

theorem mem_of_lookup {place : List String} {node : Node} {entries : List (List String × Node)}
    (h : entries.lookup place = some node) : (place, node) ∈ entries := by
  induction entries with
  | nil => cases h
  | cons entry entries ih =>
    obtain ⟨key, value⟩ := entry
    rw [List.lookup_cons] at h
    split at h
    · rename_i heq
      simp only [beq_iff_eq] at heq
      simp_all
    · exact List.mem_cons_of_mem _ (ih h)

/-- What is read from a path is in a text file that the file system lists under the path's
    identity. -/
theorem exists_entry_of_read {fs : FileSystem} {path : Path} {content : List Char}
    (h : fs.read path = .ok content) :
    ∃ place, (place, Node.text content) ∈ fs.entries ∧ fs.identity path = identityOf place := by
  unfold read at h
  split at h
  · cases h
  · rename_i place hplace
    split at h
    · rename_i found hnode
      cases h
      refine ⟨place, ?_, by simp only [identity, hplace]⟩
      unfold node? at hnode
      split at hnode
      · rename_i hlookup
        exact mem_of_lookup (hlookup.trans hnode)
      · split at hnode <;> cases hnode
    all_goals cases h

/-- Opening a text file leaves fewer of them. -/
theorem length_textFilesBut_lt {fs : FileSystem} {path : Path} {content : List Char}
    {opened : List Identity} (h : fs.read path = .ok content)
    (hnot : opened.contains (fs.identity path) = false) :
    (fs.textFilesBut (opened ++ [fs.identity path])).length
      < (fs.textFilesBut opened).length := by
  obtain ⟨place, hmem, hid⟩ := exists_entry_of_read h
  rw [hid] at hnot ⊢
  have hsplit : fs.textFilesBut (opened ++ [identityOf place])
      = (fs.textFilesBut opened).filter fun entry => identityOf entry.1 != identityOf place := by
    unfold textFilesBut
    rw [List.filter_filter]
    refine List.filter_congr fun entry _ => ?_
    cases entry.2 <;> simp [bne, Bool.and_comm, Bool.beq_eq_decide_eq]
  rw [hsplit]
  refine List.length_filter_lt_length_iff_exists.2 ⟨(place, .text content), ?_, by simp⟩
  simpa [textFilesBut] using ⟨hmem, by simpa using hnot⟩

end FileSystem

namespace Loading

/-- A failed loading without notices. -/
def fail (error : LoadError) : Loading :=
  .silent (.error error)

/-- What is told after a file was loaded. -/
def closing (path : Path) : Except LoadError RequirementsFile → List Notice
  | .ok content => if content.isEmpty then [.noEntries path] else []
  | .error _ => []

/-- The outcome of loading the file at a path, told as such. -/
def ofFile (path : Path) (inner : Loading) : Loading :=
  ⟨inner.value, .parsing path :: inner.notices ++ closing path inner.value⟩

/-- The outcome of an include statement, seen from the file that has it. -/
def ofInclude (file : Path) (line : Nat) (kind : IncludeKind) (inner : Loading) : Loading :=
  inner.map fun
    | .error cause => .error (.included file line cause)
    | .ok content => .ok (RequirementsFile.included kind content)

/-- The content of a statement that is no include. -/
def single (file : Path) (line : Nat) : Statement → RequirementsFile
  | .include _ _ => {}
  | .requirement requirement hashes => { requirements := [⟨requirement, hashes, ⟨file, line⟩⟩] }
  | .editable target => { editables := [⟨target, ⟨file, line⟩⟩] }
  | .unnamed target => { unnamed := [⟨target, ⟨file, line⟩⟩] }
  | .option option => { options := GlobalOptions.empty.apply option }

/-- Loads the statements of a file up to its fault. `opened` holds the identities of the files that
    are being loaded. -/
def ofStatements (fs : FileSystem) (opened : List Identity) (file : Path) (fault? : Option Fault)
    (statements : List PlacedStatement) : Loading :=
  match statements with
  | [] =>
      match fault? with
      | none => .silent (.ok .empty)
      | some fault => fail (fault.error file)
  | ⟨line, .include kind name⟩ :: rest =>
      let target := file.sibling name
      match _hopen : opened.contains (fs.identity target) with
      | true => fail (.cycle file target line)
      | false =>
          match _hread : fs.read target with
          | .error error => fail (.included file line (.unreadable target error))
          | .ok content =>
              let script := Script.read content
              let inner := ofStatements fs (opened ++ [fs.identity target]) target script.fault?
                script.statements
              (ofInclude file line kind (ofFile target inner)).andThen fun first =>
                (ofStatements fs opened file fault? rest).map (·.map first.merge)
  | ⟨line, statement⟩ :: rest =>
      (ofStatements fs opened file fault? rest).map (·.map (single file line statement).merge)
termination_by ((fs.textFilesBut opened).length, statements.length)
decreasing_by
  · exact Prod.Lex.left _ _ (FileSystem.length_textFilesBut_lt _hread _hopen)
  · exact Prod.Lex.right _ (by simp)
  · exact Prod.Lex.right _ (by simp)

end Loading

namespace RequirementsFile

/-- Loads a text as the content of the file at a path, which is not read. -/
def loadText (fs : FileSystem) (content : List Char) (path : Path) : Loading :=
  let script := Script.read content
  Loading.ofStatements fs [fs.identity path] path script.fault? script.statements

/-- Loads the file at a path. -/
def load (fs : FileSystem) (path : Path) : Loading :=
  match fs.read path with
  | .error error => Loading.fail (.unreadable path error)
  | .ok content => Loading.ofFile path (loadText fs content path)

end RequirementsFile

end PinFloor
