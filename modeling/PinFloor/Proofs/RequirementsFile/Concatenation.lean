import PinFloor.Proofs.RequirementsFile.Loading
import PinFloor.Proofs.RequirementsFile.Scripts

/-! # One text after another

No statement goes past the end of its line, unless a `\` joins the next line to it. So a text of
whole lines may be followed by any other text: it says what it says on its own, and then what the
other text says, further down.
-/

namespace PinFloor

open Scanner

/-- The text ends in a line end that is not joined. -/
structure EndsLine (text : List Char) : Prop where
  newline : ['\n'] <:+ text
  lf_not_joined : ¬ ['\\', '\n'] <:+ text
  crlf_not_joined : ¬ ['\\', '\r', '\n'] <:+ text

variable {text cs rest : List Char}

theorem EndsLine.of_suffix (closed : EndsLine text) (part : cs <:+ text)
    (newline : ['\n'] <:+ cs) : EndsLine cs :=
  ⟨newline, fun joined => closed.lf_not_joined (joined.trans part),
    fun joined => closed.crlf_not_joined (joined.trans part)⟩

theorem EndsLine.of_cons {c : Char} (closed : EndsLine (c :: cs)) (plain : isBreak c = false) :
    EndsLine cs := by
  refine closed.of_suffix (List.suffix_cons c cs) ?_
  simpa [List.suffix_cons_iff, (ne_newline_of_not_break plain).symm] using closed.newline

namespace Comparison

variable {k : Comparison}

theorem Ends.of_id (quote : k.quote = id) (ends : LineEnd cs rest) : k.Ends cs cs rest rest :=
  ⟨ends, ends, by simp [quote]⟩

theorem Ends.append (quote : k.quote = id) (ends : LineEnd cs rest) (newline : ['\n'] <:+ cs)
    (more : List Char) : k.Ends cs (cs ++ more) rest (rest ++ more) := by
  refine ⟨ends, ends.append newline more, ?_⟩
  cases ends <;> simp [quote]

theorem alike_self (quote : k.quote = id) (more : k.more = []) (cs : List Char) :
    k.Alike cs cs := by
  induction cs using text_induction with
  | nil => exact .nil more
  | char plain single ih => exact .char plain single ih
  | joined ends ih => exact .joined (.of_id quote ends) ih
  | lineEnd ends ih => exact .lineEnd (.of_id quote ends) ih

theorem alike_append (quote : k.quote = id) (closed : EndsLine cs) :
    k.Alike cs (cs ++ k.more) := by
  induction cs using text_induction with
  | nil => simpa using closed.newline
  | char plain single ih => exact .char plain single (ih (closed.of_cons plain))
  | @joined cs rest ends ih =>
      have inside := closed.of_cons rfl
      rcases ends.newline_rest inside.newline with ⟨-, rfl | rfl⟩ | newline
      · exact absurd List.suffix_rfl closed.lf_not_joined
      · exact absurd List.suffix_rfl closed.crlf_not_joined
      · exact .joined (.append quote ends inside.newline k.more)
          (ih (inside.of_suffix ends.suffix newline))
  | @lineEnd cs rest ends ih =>
      have both := Ends.append quote ends closed.newline k.more
      rcases ends.newline_rest closed.newline with ⟨rfl, -⟩ | newline
      · exact .last both
      · exact .lineEnd both (ih (closed.of_suffix ends.suffix newline))

/-- A text, and the same text with another one after it. -/
def followed (text more : List Char) : Comparison where
  first := text
  second := text ++ more
  more := more
  lines := 0
  quote := id
  quote_plain _ _ := rfl

/-- A text, and the same text after another one. -/
def following (before text : List Char) : Comparison where
  first := text
  second := before ++ text
  more := []
  lines := lineEnds before
  quote := id
  quote_plain _ _ := rfl

end Comparison

theorem Script.read_append (closed : EndsLine text) (more : List Char) :
    read (text ++ more) = (read text).append ((read more).down (lineEnds text)) := by
  have first : Comparison.After (.followed text more) text (text ++ more) :=
    .within ⟨⟨.start, .refl _, .refl _⟩, Comparison.alike_append rfl closed⟩
  have second : Comparison.After (.following text more) more more :=
    .within ⟨⟨.start, .refl _, .append closed.newline more⟩, Comparison.alike_self rfl rfl more⟩
  have whole := first.readFrom
  have tail := second.readFrom
  simp only [Comparison.followed, quoting_id, down_zero] at whole
  simp only [Comparison.following, quoting_id, readFrom_nil, append_empty] at tail
  rw [read, read, read, whole, tail]

/-! ## Contents on other lines -/

/-- The origin, on another line if it is in a file. -/
def Origin.relocate (file : Path) (move : Nat → Nat) (o : Origin) : Origin :=
  if o.path = file then ⟨file, move o.line⟩ else o

/-- The entry, on another line if it stands in a file. -/
def Entry.relocate (file : Path) (move : Nat → Nat) (e : Entry) : Entry :=
  { e with origin := e.origin.relocate file move }

/-- The target, on another line if it stands in a file. -/
def Target.relocate (file : Path) (move : Nat → Nat) (t : Target) : Target :=
  { t with origin := t.origin.relocate file move }

namespace RequirementsFile

variable {file : Path} {move : Nat → Nat} {a b : RequirementsFile}

/-- The content, with the entries of a file on other lines. -/
def relocate (file : Path) (move : Nat → Nat) (a : RequirementsFile) : RequirementsFile where
  requirements := a.requirements.map (Entry.relocate file move)
  constraints := a.constraints.map (Entry.relocate file move)
  editables := a.editables.map (Target.relocate file move)
  unnamed := a.unnamed.map (Target.relocate file move)
  options := a.options

theorem merge_relocate :
    (a.merge b).relocate file move = (a.relocate file move).merge (b.relocate file move) := by
  simp [relocate, merge]

/-- What is moved only if it stands in a file stays as it is if all stands elsewhere. -/
theorem map_eq_self {α : Type} {origin : α → Origin} {move : α → α} {items : List α}
    (stays : ∀ a, (origin a).path ≠ file → move a = a)
    (elsewhere : ∀ o ∈ items.map origin, o.path ≠ file) : items.map move = items := by
  have same : ∀ a ∈ items, move a = a := fun a inside =>
    stays a (elsewhere _ (List.mem_map_of_mem inside))
  exact (List.map_congr_left same).trans (List.map_id items)

theorem relocate_eq_self (elsewhere : ∀ o ∈ a.origins, o.path ≠ file) :
    a.relocate file move = a := by
  simp only [origins, List.mem_append] at elsewhere
  have entry : ∀ e : Entry, e.origin.path ≠ file → e.relocate file move = e := fun e away => by
    rw [Entry.relocate, Origin.relocate, if_neg away]
  have target : ∀ t : Target, t.origin.path ≠ file → t.relocate file move = t := fun t away => by
    rw [Target.relocate, Origin.relocate, if_neg away]
  have requirements := map_eq_self entry fun o inside => elsewhere o (.inl (.inl (.inl inside)))
  have constraints := map_eq_self entry fun o inside => elsewhere o (.inl (.inl (.inr inside)))
  have editables := map_eq_self target fun o inside => elsewhere o (.inl (.inr inside))
  have unnamed := map_eq_self target fun o inside => elsewhere o (.inr inside)
  rw [relocate, requirements, constraints, editables, unnamed]

end RequirementsFile

/-! ## Contents and errors further down -/

/-- The error, with its outermost line further down. -/
def LoadError.down (n : Nat) : LoadError → LoadError
  | unreadable file error => unreadable file error
  | malformed file error position => malformed file error (position.down n)
  | unsupportedOption file name line => unsupportedOption file name (line + n)
  | invalidRequirement file line => invalidRequirement file (line + n)
  | cycle file target line => cycle file target (line + n)
  | included file line cause => included file (line + n) cause

namespace RequirementsFile

variable {a b : RequirementsFile}

/-- The content, with the entries of a file further down. -/
def down (file : Path) (n : Nat) (a : RequirementsFile) : RequirementsFile :=
  a.relocate file (· + n)

theorem mem_origins_merge {o : Origin} :
    o ∈ (a.merge b).origins ↔ o ∈ a.origins ∨ o ∈ b.origins := by
  simp only [origins, merge, List.map_append, List.mem_append]
  grind

theorem mem_origins_of_included {kind : IncludeKind} {o : Origin}
    (inside : o ∈ (included kind a).origins) : o ∈ a.origins := by
  cases kind with
  | requirements => exact inside
  | constraints =>
      simp only [origins, included, List.map_append, List.map_nil, List.mem_append] at inside ⊢
      grind

end RequirementsFile

namespace Loading

variable {fs : FileSystem} {opened : List Identity} {file : Path} {fault? : Option Fault}
  {statements rest : List PlacedStatement} {content : RequirementsFile} {n : Nat}

theorem not_open_of_source {target path : Path} (outside : fs.identity target ∉ opened)
    (source : path = target ∨ fs.identity path ∉ opened ++ [fs.identity target]) :
    fs.identity path ∉ opened := by
  rcases source with rfl | closed
  · exact outside
  · exact fun inside => closed (List.mem_append_left _ inside)

/-- Entries come from the file itself, or from files that were not open. -/
theorem origins_of_ofStatements
    (loaded : (ofStatements fs opened file fault? statements).value = .ok content) :
    ∀ o ∈ content.origins, o.path = file ∨ fs.identity o.path ∉ opened := by
  induction opened, file, fault?, statements using statements_induction fs generalizing content with
  | nil opened file fault? =>
      rw [ofStatements_nil] at loaded
      cases fault? with
      | none => cases loaded; simp [RequirementsFile.origins, RequirementsFile.empty]
      | some => cases loaded
  | cons opened file fault? s rest inner later =>
      obtain ⟨first, others, added, next, rfl⟩ := ofStatements_cons_ok.mp loaded
      intro o inside
      rcases RequirementsFile.mem_origins_merge.mp inside with inside | inside
      · obtain ⟨line, statement⟩ := s
        cases statement with
        | «include» kind name =>
            obtain ⟨outside, content, target, rfl⟩ := ofStatement_include_ok.mp added
            obtain ⟨text, readable, loaded⟩ := ofTarget_ok.mp target
            have source := inner kind name text rfl outside readable loaded o
              (RequirementsFile.mem_origins_of_included inside)
            exact .inr (not_open_of_source outside source)
        | requirement | editable | unnamed | option =>
            cases added
            simp_all [RequirementsFile.origins, single]
      · exact later next o inside

/-- No entry of an included file stands in a file that is open. -/
theorem origins_of_ofTarget {target : Path} (outside : fs.identity target ∉ opened)
    (loaded : (ofTarget fs opened target).value = .ok content) :
    ∀ o ∈ content.origins, fs.identity o.path ∉ opened := by
  obtain ⟨text, -, loaded⟩ := ofTarget_ok.mp loaded
  exact fun o inside => not_open_of_source outside (origins_of_ofStatements loaded o inside)

/-- Loading further down. -/
def down (file : Path) (n : Nat) (loading : Loading) : Loading :=
  loading.map fun
    | .ok content => .ok (content.down file n)
    | .error error => .error (error.down n)

theorem ofStatement_down (inside : fs.identity file ∈ opened) (s : PlacedStatement) :
    ofStatement fs opened file (s.down n) = (ofStatement fs opened file s).down file n := by
  obtain ⟨line, statement⟩ := s
  cases statement with
  | «include» kind name =>
      rw [PlacedStatement.down, ofStatement, ofStatement]
      split
      · rfl
      · next closed =>
          have outside : fs.identity (file.sibling name) ∉ opened := by simpa using closed
          simp only [ofInclude, down, Told.map]
          cases loaded : (ofTarget fs opened (file.sibling name)).value with
          | error cause => rfl
          | ok content =>
              have elsewhere : ∀ o ∈ (content.included kind).origins, o.path ≠ file := by
                rintro o within rfl
                exact origins_of_ofTarget outside loaded o
                  (RequirementsFile.mem_origins_of_included within) inside
              simp only [RequirementsFile.down, RequirementsFile.relocate_eq_self elsewhere]
  | requirement | editable | unnamed | option =>
      simp [PlacedStatement.down, ofStatement, single, down, Told.map, Told.silent,
        RequirementsFile.down, RequirementsFile.relocate, Entry.relocate, Target.relocate,
        Origin.relocate]

theorem down_andThen (first others : Loading) :
    ((first.down file n).andThen fun a => (others.down file n).map (·.map a.merge)) =
      Loading.down file n (first.andThen fun a => others.map (·.map a.merge)) := by
  obtain ⟨value, notices⟩ := first
  obtain ⟨value', notices'⟩ := others
  cases value <;> cases value' <;>
    simp [down, Told.andThen, Told.map, Except.map, RequirementsFile.down,
      RequirementsFile.merge_relocate]

theorem ofStatements_down (inside : fs.identity file ∈ opened) :
    ofStatements fs opened file (fault?.map (Fault.down n))
        (statements.map (PlacedStatement.down n)) =
      (ofStatements fs opened file fault? statements).down file n := by
  induction statements with
  | nil =>
      rw [List.map_nil, ofStatements_nil, ofStatements_nil]
      cases fault? with
      | none => rfl
      | some fault => cases fault <;> rfl
  | cons s rest ih =>
      rw [List.map_cons, ofStatements_cons, ofStatements_cons, ih, ofStatement_down inside]
      exact down_andThen ..

theorem ofStatements_fault (fault : Fault) : ∃ error,
    (ofStatements fs opened file (some fault) statements).value = .error error := by
  induction statements with
  | nil => exact ⟨_, by rw [ofStatements_nil]; rfl⟩
  | cons s rest ih =>
      obtain ⟨error, failed⟩ := ih
      rw [ofStatements_cons]
      cases first : (ofStatement fs opened file s).value with
      | error error => exact ⟨error, Told.andThen_value_of_error first _⟩
      | ok content =>
          refine ⟨error, ?_⟩
          rw [Told.andThen_value_of_ok first, Told.map, failed]
          rfl

/-- What a script says and what follows it are loaded one after the other. -/
theorem ofStatements_append (first second : Script) :
    ofStatements fs opened file (first.append second).fault? (first.append second).statements =
      (ofStatements fs opened file first.fault? first.statements).andThen fun a =>
        (ofStatements fs opened file second.fault? second.statements).map (·.map a.merge) := by
  obtain ⟨statements, fault?⟩ := first
  cases fault? with
  | some fault =>
      obtain ⟨error, failed⟩ :
          ∃ error, (ofStatements fs opened file (some fault) statements).value = .error error :=
        ofStatements_fault fault
      exact (Told.andThen_eq_self failed _).symm
  | none =>
      simp only [Script.append]
      induction statements with
      | nil =>
          rw [ofStatements_nil, Told.silent_andThen, List.nil_append]
          obtain ⟨value, notices⟩ := ofStatements fs opened file second.fault? second.statements
          cases value <;> simp [Told.map, Except.map]
      | cons s rest ih =>
          rw [List.cons_append, ofStatements_cons, ofStatements_cons, ih, Told.andThen_assoc]
          refine congrArg _ (funext fun added => ?_)
          rw [Told.andThen_map (fun _ _ => rfl), Told.map_andThen_map]
          refine congrArg _ (funext fun a => Told.map_map (fun result => ?_) _)
          cases result with
          | error => rfl
          | ok b => exact congrArg Except.ok (RequirementsFile.merge_assoc added a b).symm

end Loading

namespace RequirementsFile

theorem loadText_append_eq (fs : FileSystem) (path : Path) (closed : EndsLine text)
    (more : List Char) : loadText fs (text ++ more) path =
      (loadText fs text path).andThen fun a =>
        ((loadText fs more path).down path (lineEnds text)).map (·.map a.merge) := by
  simp only [loadText, Script.read_append closed, Loading.ofStatements_append]
  refine congrArg _ (funext fun a => congrArg _ ?_)
  exact Loading.ofStatements_down List.mem_cons_self

/-- A text of whole lines with another text after it is loaded like the two texts one after the
    other, the second of them further down by the lines of the first. -/
theorem loadText_append (fs : FileSystem) (path : Path) (closed : EndsLine text)
    (more : List Char) :
    (∀ error, (loadText fs text path).value = .error error →
      (loadText fs (text ++ more) path).value = .error error) ∧
    (∀ a b, (loadText fs text path).value = .ok a → (loadText fs more path).value = .ok b →
      (loadText fs (text ++ more) path).value = .ok (a.merge (b.down path (lineEnds text)))) ∧
    ∀ a error, (loadText fs text path).value = .ok a →
      (loadText fs more path).value = .error error →
      (loadText fs (text ++ more) path).value = .error (error.down (lineEnds text)) := by
  rw [loadText_append_eq fs path closed more]
  refine ⟨fun error first => Told.andThen_value_of_error first _, fun a b first second => ?_,
    fun a error first second => ?_⟩
  · rw [Told.andThen_value_of_ok first, Loading.down, Told.map, Told.map, second]
    rfl
  · rw [Told.andThen_value_of_ok first, Loading.down, Told.map, Told.map, second]
    rfl

theorem loadText_editable (fs : FileSystem) (path : Path) (content : List Char) (target : String)
    (trivia : skipTrivia content = content)
    (scanned : statement? content = some (.ok (.editable target, []))) :
    (loadText fs content path).value = .ok { editables := [⟨target, ⟨path, 1⟩⟩] } := by
  have start : Position.ofRest content content = .start := (Position.Reaches.refl content).ofRest_eq
  rw [loadText, Script.read, Script.readFrom_of_statement content trivia scanned, start,
    Script.readFrom_nil]
  simp only [Script.cons]
  rw [Loading.ofStatements_cons, Loading.ofStatements_nil]
  rfl

/-- After a line, a target and a fault stand on the second one. After a fault nothing is read. -/
theorem loadText_append_targets :
    let load := fun text => (loadText ⟨[], []⟩ text ⟨"r.txt"⟩).value
    let target := fun name line => (⟨name, ⟨⟨"r.txt"⟩, line⟩⟩ : Target)
    let bare := fun line => LoadError.malformed ⟨"r.txt"⟩ (.missingSeparator (some '\n')) ⟨line, 3⟩
    let text := ['-', 'e', ' ', 'x', '\n']
    let more := ['-', 'e', ' ', 'y']
    let faulty := ['-', 'e', '\n']
    (EndsLine text ∧ EndsLine faulty) ∧
      (load text = .ok { editables := [target "x" 1] } ∧
        load more = .ok { editables := [target "y" 1] } ∧ load faulty = .error (bare 1)) ∧
      load (text ++ more) = .ok { editables := [target "x" 1, target "y" 2] } ∧
      load (text ++ faulty) = .error (bare 2) ∧ load (faulty ++ more) = .error (bare 1) := by
  intro load target bare text more faulty
  have closed : EndsLine text := ⟨by decide, by decide, by decide⟩
  have closed' : EndsLine faulty := ⟨by decide, by decide, by decide⟩
  have first : load text = .ok { editables := [target "x" 1] } :=
    loadText_editable _ _ text "x" (skipTrivia_of_other rfl rfl (by decide)) rfl
  have second : load more = .ok { editables := [target "y" 1] } :=
    loadText_editable _ _ more "y" (skipTrivia_of_other rfl rfl (by decide)) rfl
  have trivia : skipTrivia faulty = faulty := skipTrivia_of_other rfl rfl (by decide)
  have refused : statement? (skipTrivia faulty)
      = some (.error (.malformed (.missingSeparator (some '\n')) ['\n'])) := by
    rw [trivia]
    rfl
  have fails : load faulty = .error (bare 1) := by
    simp only [load, loadText]
    rw [Script.read, Script.readFrom_of_error refused, Loading.ofStatements_nil]
    rfl
  have after := loadText_append ⟨[], []⟩ ⟨"r.txt"⟩ closed
  have after' := loadText_append ⟨[], []⟩ ⟨"r.txt"⟩ closed'
  exact ⟨⟨closed, closed'⟩, ⟨first, second, fails⟩, (after more).2.1 _ _ first second,
    (after faulty).2.2 _ _ first fails, (after' more).1 _ fails⟩

end RequirementsFile

end PinFloor
