import PinFloor.Proofs.RequirementsFile.Continuations

/-! # Files with joined line ends

A joined line end behind a blank of a requirement or before its hashes moves all that follows one
line down, and changes nothing else. Before a value it cuts the file in two.
-/

namespace PinFloor

open Scanner

variable {content cs front back before mark rest u w x y : List Char} {st : Statement}

/-! ## Where statements start -/

/-- When `cs` is read, a statement starts at `start`. -/
inductive Script.Starts : List Char → List Char → Prop where
  | here {cs start : List Char} : skipTrivia cs = start → Starts cs start
  | later {cs start rest : List Char} {st : Statement} :
      statement? (skipTrivia cs) = some (.ok (st, rest)) → Starts rest start → Starts cs start

namespace Script

theorem empty_append (script : Script) : append ⟨[], none⟩ script = script :=
  rfl

theorem Starts.skipTrivia_eq (starts : Starts cs rest) : ∃ cs, skipTrivia cs = rest := by
  induction starts with
  | here start => exact ⟨_, start⟩
  | later _ _ ih => exact ih

/-- What is read before a statement does not depend on the end of the statement. -/
theorem Starts.exists_earlier (starts : Starts cs (w ++ x)) (some : w ≠ []) :
    ∃ before, cs = before ++ (w ++ x) ∧ ∀ pre, ∃ earlier, ∀ y, skipTrivia (w ++ y) = w ++ y →
      readFrom (pre ++ (before ++ (w ++ y))) (before ++ (w ++ y)) =
        append ⟨earlier, none⟩ (readFrom (pre ++ (before ++ (w ++ y))) (w ++ y)) := by
  generalize whole : w ++ x = start at starts
  induction starts with
  | @here cs start skipped =>
      subst whole
      obtain ⟨before, rfl⟩ : ∃ before, before ++ (w ++ x) = cs := skipped ▸ skipTrivia_suffix cs
      refine ⟨before, rfl, fun pre => ⟨[], fun y start => ?_⟩⟩
      have nonempty : w ++ x ≠ [] := fun none => some (List.append_eq_nil_iff.mp none).1
      have skipped' := skipTrivia_append skipped nonempty start
      rw [empty_append]
      exact readFrom_congr (skipped'.trans start.symm)
  | @later cs start rest st scanned later ih =>
      obtain ⟨before, rfl, others⟩ := ih whole
      subst whole
      obtain ⟨front, read⟩ := skipTrivia_suffix cs
      obtain ⟨u, same⟩ := (endsAtLine_of_statement? scanned).suffix
      rw [← same] at scanned read
      subst read
      have more : before ++ (w ++ x) ≠ [] := by simp [some]
      have skipped : skipTrivia (front ++ (u ++ (before ++ (w ++ x)))) = u ++ (before ++ (w ++ x)) :=
        same.symm
      have line := endsAtLine_of_statement? scanned
      refine ⟨front ++ (u ++ before), by simp only [List.append_assoc], fun pre => ?_⟩
      obtain ⟨earlier, next⟩ := others (pre ++ (front ++ u))
      refine ⟨⟨lineEnds (pre ++ front) + 1, st⟩ :: earlier, fun y start => ?_⟩
      have head : (before ++ (w ++ y)).head? = (before ++ (w ++ x)).head? := by
        obtain ⟨c, w, rfl⟩ := List.exists_cons_of_ne_nil some
        cases before <;> rfl
      have uncut : Uncut u (before ++ (w ++ y)) := fun ret => head ▸ (line.closed more).2 ret
      have scanned' := statement?_append more scanned uncut
      have skipped' := skipTrivia_statement scanned more skipped (before ++ (w ++ y))
      have step : readFrom (pre ++ (front ++ (u ++ (before ++ (w ++ y)))))
          (front ++ (u ++ (before ++ (w ++ y)))) = _ := readFrom_next skipped' scanned'
      have behind := next y start
      simp only [List.append_assoc] at step behind ⊢
      rw [step, behind]
      rfl

end Script

/-! ## The lines behind a line end -/

namespace Position

/-- Reading a text that ends in a line end leads to the start of a line. -/
theorem advance_append_of_closed (closed : EndsInBreak u) (uncut : Uncut u x) (p : Position) :
    p.advance (u ++ x) = advance ⟨p.line + lineEnds u, 1⟩ x := by
  induction u using text_induction generalizing p with
  | nil => exact absurd rfl closed.ne_nil
  | @char c u plain _ ih =>
      rw [List.cons_append, advance_cons plain, lineEnds_cons plain,
        ih (closed.of_cons plain) (uncut.of_suffix (List.suffix_cons c u))]
  | @joined u rest ends ih =>
      have uncut' := uncut.of_suffix (List.suffix_cons '\\' u)
      rw [List.cons_append, advance_cons rfl, advance_lineEnd (ends.append_of_uncut uncut'),
        lineEnds_cons rfl, lineEnds_lineEnd ends]
      by_cases last : rest = []
      · subst last
        rfl
      · rw [ih (closed.of_suffix (ends.suffix.trans (List.suffix_cons _ u)) last)
          (uncut'.of_suffix ends.suffix), Nat.add_right_comm, Nat.add_assoc]
  | @lineEnd u rest ends ih =>
      rw [advance_lineEnd (ends.append_of_uncut uncut), lineEnds_lineEnd ends]
      by_cases last : rest = []
      · subst last
        rfl
      · rw [ih (closed.of_suffix ends.suffix last) (uncut.of_suffix ends.suffix),
          Nat.add_right_comm, Nat.add_assoc]

theorem Reaches.of_closed (closed : EndsInBreak u) (uncut : Uncut u rest) :
    Reaches (u ++ rest) (start.down (lineEnds u)) rest := by
  refine ⟨u, rfl, fun part first => advance_append_of_closed closed ?_ start⟩
  intro ret newline
  obtain ⟨more, rfl⟩ := first
  exact uncut ret (by rw [List.head?_append, newline, Option.some_or])

end Position

namespace Script

/-- What is read behind a line end is what is read from a text of its own, further down. -/
theorem readFrom_of_closed (closed : EndsInBreak u) (uncut : Uncut u rest) :
    readFrom (u ++ rest) rest = (read rest).down (lineEnds u) := by
  have second : Comparison.After (.following u rest) rest rest :=
    .within ⟨⟨.start, .refl _, .of_closed closed uncut⟩, Comparison.alike_self rfl rfl rest⟩
  have tail := second.readFrom
  simp only [Comparison.following, quoting_id, readFrom_nil, append_empty] at tail
  exact tail

theorem readFrom_of_endsAtLine (line : EndsAtLine (u ++ rest) rest) (before : List Char) :
    readFrom (before ++ (u ++ rest)) rest = (read rest).down (lineEnds (before ++ u)) := by
  by_cases nothing : rest = []
  · subst nothing
    rw [read, readFrom_nil, readFrom_nil]
    rfl
  · obtain ⟨⟨c, last, isEnd⟩, uncut⟩ := line.closed nothing
    have same : (before ++ u).getLast? = u.getLast? := by
      rw [List.getLast?_append, last, Option.some_or]
    rw [← List.append_assoc]
    exact readFrom_of_closed ⟨c, same.trans last, isEnd⟩ fun ret => uncut (same ▸ ret)

end Script

/-! ## Statements on other lines -/

/-- The statement, on another line. -/
def PlacedStatement.relocate (move : Nat → Nat) (s : PlacedStatement) : PlacedStatement :=
  ⟨move s.line, s.statement⟩

namespace Loading

variable {fs : FileSystem} {opened : List Identity} {file : Path} {move : Nat → Nat}
  {content : RequirementsFile}

theorem ofStatement_relocate (inside : fs.identity file ∈ opened) {s : PlacedStatement}
    (loaded : (ofStatement fs opened file s).value = .ok content) :
    (ofStatement fs opened file (s.relocate move)).value = .ok (content.relocate file move) := by
  obtain ⟨line, statement⟩ := s
  cases statement with
  | «include» kind name =>
      obtain ⟨outside, text, target, rfl⟩ := ofStatement_include_ok.mp loaded
      refine ofStatement_include_ok.mpr ⟨outside, text, target, ?_⟩
      refine RequirementsFile.relocate_eq_self ?_
      rintro o within rfl
      exact origins_of_ofTarget outside target o
        (RequirementsFile.mem_origins_of_included within) inside
  | requirement | editable | unnamed | option =>
      cases loaded
      simp [PlacedStatement.relocate, ofStatement, single, Told.silent, RequirementsFile.relocate,
        Entry.relocate, Target.relocate, Origin.relocate]

/-- On other lines statements say the same, on these lines. -/
theorem ofStatements_relocate (inside : fs.identity file ∈ opened)
    {statements : List PlacedStatement}
    (loaded : (ofStatements fs opened file none statements).value = .ok content) :
    (ofStatements fs opened file none (statements.map (PlacedStatement.relocate move))).value
      = .ok (content.relocate file move) := by
  induction statements generalizing content with
  | nil =>
      rw [ofStatements_nil] at loaded
      cases loaded
      rw [List.map_nil, ofStatements_nil]
      rfl
  | cons s rest ih =>
      obtain ⟨first, others, added, next, rfl⟩ := ofStatements_cons_ok.mp loaded
      rw [List.map_cons]
      exact ofStatements_cons_ok.mpr ⟨_, _, ofStatement_relocate inside added, ih next,
        RequirementsFile.merge_relocate⟩

end Loading

/-! ## Joined line ends -/

/-- One line further down, behind a line. -/
def lineBelow (line l : Nat) : Nat :=
  if line < l then l + 1 else l

theorem uncut_of_endsAtLine (line : EndsAtLine (u ++ rest) rest) (before : List Char) :
    Uncut (before ++ u) rest := by
  by_cases nothing : rest = []
  · subst nothing
    exact nofun
  · obtain ⟨⟨c, last, -⟩, uncut⟩ := line.closed nothing
    rwa [Uncut, List.getLast?_append, last, Option.some_or, ← last]

theorem lineEnds_wrapped (blank : EndsInGap front) (ends : LineEnd (mark ++ back) back)
    (before : List Char) : lineEnds (before ++ (front ++ '\\' :: (mark ++ back)))
      = lineEnds (before ++ (front ++ back)) + 1 := by
  obtain ⟨c, last, gap⟩ := blank
  have uncut : ∀ r, Uncut (before ++ front) r := fun r ret => by
    rw [List.getLast?_append, last, Option.some_or] at ret
    cases ret
    cases gap
  rw [← List.append_assoc, ← List.append_assoc, lineEnds_append (uncut _), lineEnds_append (uncut _),
    lineEnds_cons rfl, lineEnds_lineEnd ends, Nat.add_assoc]

namespace Script

/-- A statement starts behind blanks and comments, whatever it goes on with. -/
theorem Starts.skipTrivia_long (starts : Starts cs (front ++ back)) (long : 1 < front.length)
    (y : List Char) : Scanner.skipTrivia (front ++ y) = front ++ y := by
  obtain ⟨ds, start⟩ := starts.skipTrivia_eq
  match front with
  | c :: d :: more =>
      obtain ⟨gap, plain, comment, single⟩ := start_of_skipTrivia start
      exact skipTrivia_of_other (skipGap_plain gap single) plain comment

theorem Starts.skipTrivia_front (starts : Starts cs (front ++ back)) (blank : EndsInGap front)
    (y : List Char) : Scanner.skipTrivia (front ++ y) = front ++ y := by
  refine starts.skipTrivia_long (lt_of_le_of_ne (List.length_pos_iff.mpr blank.ne_nil) ?_) y
  intro single
  obtain ⟨c, rfl⟩ := List.length_eq_one_iff.mp single.symm
  obtain ⟨ds, start⟩ := starts.skipTrivia_eq
  obtain ⟨gap, -⟩ := start_of_skipTrivia start
  rw [blank.of_singleton] at gap
  cases gap

/-- What stands before a statement is read whatever the statement goes on with. -/
theorem Starts.exists_above (starts : Starts (before ++ (front ++ back)) (front ++ back))
    (stays : ∀ y, Scanner.skipTrivia (front ++ y) = front ++ y) : ∃ earlier, ∀ y,
      read (before ++ (front ++ y)) =
        append ⟨earlier, none⟩ (readFrom (before ++ (front ++ y)) (front ++ y)) := by
  have some : front ≠ [] := by
    rintro rfl
    have skipped : Scanner.skipTrivia ['\n'] = [] :=
      (skipTrivia_of_lineEnd (rfl : skipGap ['\n'] = ['\n']) .lf).trans (skipTrivia_of_nil rfl)
    cases skipped.symm.trans (stays ['\n'])
  obtain ⟨before', whole, others⟩ := starts.exists_earlier some
  obtain rfl : before = before' := List.append_cancel_right whole
  obtain ⟨earlier, next⟩ := others []
  exact ⟨earlier, fun y => next y (stays y)⟩

/-- What is read up to the end of a statement, and what is read behind it. -/
theorem Starts.exists_read (starts : Starts (before ++ (front ++ back)) (front ++ back))
    (stays : ∀ y, Scanner.skipTrivia (front ++ y) = front ++ y) :
    ∃ earlier, ∀ y st u rest, front ++ y = u ++ rest →
      statement? (front ++ y) = some (.ok (st, rest)) → read (before ++ (front ++ y)) =
        append ⟨earlier ++ [⟨lineEnds before + 1, st⟩], none⟩
          ((read rest).down (lineEnds (before ++ u))) := by
  obtain ⟨earlier, above⟩ := starts.exists_above stays
  refine ⟨earlier, fun y st u rest whole scanned => ?_⟩
  have line := endsAtLine_of_statement? scanned
  rw [above, readFrom_of_statement _ (stays y) scanned, Position.line_ofRest, whole,
    readFrom_of_endsAtLine (whole ▸ line)]
  simp only [append, cons, List.append_assoc, List.singleton_append]

theorem map_lineBelow {earlier later : List PlacedStatement} {s : PlacedStatement}
    (ordered : (earlier ++ [s] ++ later).Pairwise (·.line < ·.line)) :
    (earlier ++ [s] ++ later).map (PlacedStatement.relocate (lineBelow s.line)) =
      earlier ++ [s] ++ later.map (PlacedStatement.down 1) := by
  obtain ⟨before, -, below⟩ := List.pairwise_append.mp ordered
  have last := (List.pairwise_append.mp before).2.2
  have stays : ∀ a ∈ earlier ++ [s], PlacedStatement.relocate (lineBelow s.line) a = a := by
    intro a inside
    have above : ¬ s.line < a.line := by
      rcases List.mem_append.mp inside with inside | inside
      · exact Nat.lt_asymm (last a inside s (List.mem_singleton_self s))
      · obtain rfl := List.mem_singleton.mp inside
        exact Nat.lt_irrefl _
    rw [PlacedStatement.relocate, lineBelow, if_neg above]
  have moves : ∀ a ∈ later,
      PlacedStatement.relocate (lineBelow s.line) a = PlacedStatement.down 1 a := by
    intro a inside
    have behind := below s (List.mem_append_right _ (List.mem_singleton_self s)) a inside
    rw [PlacedStatement.relocate, lineBelow, if_pos behind, PlacedStatement.down]
  rw [List.map_append, List.map_congr_left stays, List.map_id', List.map_congr_left moves]

/-- Statements that are read alike before and after a joined line end are followed by the same ones,
    one line further down. -/
theorem Starts.read_wrapped (starts : Starts (before ++ (front ++ back)) (front ++ back))
    (blank : EndsInGap front) (ends : LineEnd (mark ++ back) back)
    (parses : (read (before ++ (front ++ back))).fault? = none)
    (scanned : statement? (front ++ back) = some (.ok (st, rest)))
    (scanned' : statement? (front ++ '\\' :: (mark ++ back)) = some (.ok (st, rest))) :
    read (before ++ (front ++ '\\' :: (mark ++ back))) =
      ⟨(read (before ++ (front ++ back))).statements.map
        (PlacedStatement.relocate (lineBelow (lineEnds before + 1))), none⟩ := by
  obtain ⟨earlier, whole⟩ := starts.exists_read (starts.skipTrivia_front blank)
  obtain ⟨u, same⟩ := (endsAtLine_of_statement? scanned).suffix
  obtain ⟨u', same'⟩ := (endsAtLine_of_statement? scanned').suffix
  have lines : lineEnds (before ++ u') = lineEnds (before ++ u) + 1 := by
    have count := lineEnds_wrapped blank ends before
    have uncut := uncut_of_endsAtLine (same ▸ endsAtLine_of_statement? scanned) before
    have uncut' := uncut_of_endsAtLine (same' ▸ endsAtLine_of_statement? scanned') before
    rw [← same, ← same', ← List.append_assoc, ← List.append_assoc, lineEnds_append uncut,
      lineEnds_append uncut'] at count
    omega
  have first := whole _ _ u _ same.symm scanned
  have second := whole _ _ u' _ same'.symm scanned'
  have ordered : (read (before ++ (front ++ back))).statements.Pairwise (·.line < ·.line) :=
    pairwise_lines List.suffix_rfl
  rw [first] at ordered
  rw [first] at parses
  rw [second, first, lines]
  generalize read rest = later at parses ordered ⊢
  obtain ⟨statements, fault?⟩ := later
  obtain rfl : fault? = none := Option.map_eq_none_iff.mp parses
  have moved := map_lineBelow ordered
  simp only [append, down, Option.map_none, Script.mk.injEq, and_true] at moved ⊢
  rw [moved, List.map_map]
  rfl

/-- Where a whole text can be read, each of its statements can be. -/
theorem Starts.exists_scanned (starts : Starts (before ++ (front ++ back)) (front ++ back))
    (blank : EndsInGap front) (parses : (read (before ++ (front ++ back))).fault? = none) :
    ∃ st rest, statement? (front ++ back) = some (.ok (st, rest)) := by
  have trivia := starts.skipTrivia_front blank back
  obtain ⟨earlier, above⟩ := starts.exists_above (starts.skipTrivia_front blank)
  rw [above] at parses
  cases scanned : statement? (front ++ back) with
  | none =>
      have nothing := statement?_eq_none scanned
      exact absurd (List.append_eq_nil_iff.mp nothing).1 blank.ne_nil
  | some result =>
      cases result with
      | ok result => exact ⟨result.1, result.2, rfl⟩
      | error refusal =>
          rw [readFrom_of_error (trivia.symm ▸ scanned)] at parses
          cases parses

end Script

theorem RequirementsFile.parses_of_loadText {fs : FileSystem} {path : Path}
    {parsed : RequirementsFile} (loaded : (loadText fs cs path).value = .ok parsed) :
    (Script.read cs).fault? = none := by
  cases fault : (Script.read cs).fault? with
  | none => rfl
  | some fault' =>
      obtain ⟨error, failed⟩ : ∃ error, (Loading.ofStatements fs [fs.identity path] path (some fault')
          (Script.read cs).statements).value = .error error := Loading.ofStatements_fault fault'
      rw [loadText] at loaded
      simp only [fault, failed] at loaded
      cases loaded

/-- In a file that can be loaded, a `\` and a line end may be put behind a blank that is between two
    tokens of a requirement, before its first hash, or before a further one: the same is loaded, and
    what stands below this line moves down by one. Behind a blank between an option or `--hash` and
    its value they may not: the value is `\` then, and what follows is loaded as lines of its own. -/
theorem continuation_neutral_unless_before_value (fs : FileSystem) (path : Path)
    {before front back mark : List Char} {parsed : RequirementsFile}
    (parses : (RequirementsFile.loadText fs (before ++ (front ++ back)) path).value = .ok parsed)
    (starts : Script.Starts (before ++ (front ++ back)) (front ++ back)) (ends : LineEnd mark []) :
    (front.head? ≠ some '-' → EndsInGap front → Wrappable front back →
      (RequirementsFile.loadText fs (before ++ (front ++ '\\' :: (mark ++ back))) path).value =
        .ok (parsed.relocate path (lineBelow (lineEnds before + 1)))) ∧
    ∀ st cut, BeforeValue front back st cut → ∃ earlier later,
      Script.read (before ++ (front ++ back))
        = ⟨earlier ++ ⟨lineEnds before + 1, st⟩ :: later, none⟩ ∧
      RequirementsFile.loadText fs (before ++ (front ++ '\\' :: (mark ++ back))) path =
        (Loading.ofStatements fs [fs.identity path] path none
          (earlier ++ [⟨lineEnds before + 1, cut⟩])).andThen fun a =>
            ((RequirementsFile.loadText fs back path).down path
              (lineEnds (before ++ front) + 1)).map (·.map a.merge) := by
  have faultless := RequirementsFile.parses_of_loadText parses
  refine ⟨fun entry blank wrappable => ?_, fun st cut value => ?_⟩
  · obtain ⟨st, rest, scanned⟩ := starts.exists_scanned blank faultless
    obtain ⟨opens, scanned'⟩ := wrappable.statement?_eq entry blank ends scanned
    have script := starts.read_wrapped blank (lineEnd_before ends opens) faultless scanned scanned'
    rw [RequirementsFile.loadText] at parses ⊢
    simp only [faultless] at parses
    simp only [script]
    exact Loading.ofStatements_relocate List.mem_cons_self parses
  · obtain ⟨opens, blank, ⟨rest, scanned⟩, scanned'⟩ := value.statement?_eq ends
    obtain ⟨earlier, whole⟩ := starts.exists_read (starts.skipTrivia_front blank)
    obtain ⟨u, same⟩ := (endsAtLine_of_statement? scanned).suffix
    have first := whole _ _ u _ same.symm scanned
    have second := whole _ _ (front ++ '\\' :: mark) _ (by simp) scanned'
    have lines : lineEnds (before ++ (front ++ '\\' :: mark)) = lineEnds (before ++ front) + 1 := by
      have alone : LineEnd (mark ++ []) [] := by rwa [List.append_nil]
      have count := lineEnds_wrapped blank alone before
      simpa only [List.append_nil] using count
    refine ⟨earlier, ((Script.read rest).down (lineEnds (before ++ u))).statements, ?_, ?_⟩
    · rw [first] at faultless ⊢
      simp only [Script.append, List.append_assoc, List.singleton_append] at faultless ⊢
      rw [faultless]
    · rw [RequirementsFile.loadText, second, lines, Loading.ofStatements_append]
      refine congrArg _ (funext fun a => congrArg _ ?_)
      exact Loading.ofStatements_down List.mem_cons_self

/-- `f >1` is the same on two lines, and what follows is on the third one. With `-e x` on two lines the
    target is `\`, and `x` is a requirement. -/
theorem continuation_in_requirement_and_before_target :
    let load := fun text => (RequirementsFile.loadText ⟨[], []⟩ text ⟨"r"⟩).value
    let r : Requirement := ⟨⟨"f"⟩, [], .specifiers [⟨.greater, .ofRelease [1]⟩], .leaf true⟩
    let entry := fun r line => (⟨r, [], ⟨⟨"r"⟩, line⟩⟩ : Entry)
    let target := fun name line => (⟨name, ⟨⟨"r"⟩, line⟩⟩ : Target)
    let first := ['f', ' ']
    let rest := ['>', '1', '\n', '-', 'e', ' ', 'x', '\n']
    let key := ['-', 'e', ' ']
    (load (first ++ rest) = .ok { requirements := [entry r 1], editables := [target "x" 2] } ∧
      load (first ++ '\\' :: (['\n'] ++ rest))
        = .ok { requirements := [entry r 1], editables := [target "x" 3] }) ∧
    load (key ++ ['x', '\n']) = .ok { editables := [target "x" 1] } ∧
      load (key ++ '\\' :: (['\n'] ++ ['x', '\n']))
        = .ok { requirements := [entry (bareRequirement ['x']) 2], editables := [target "\\" 1] } := by
  intro load r entry target first rest key
  have blanks : ∀ c ∈ [], isGap c = true := by simp
  have value : load (key ++ ['x', '\n']) = .ok { editables := [target "x" 1] } :=
    RequirementsFile.loadText_editable _ _ _ "x" (skipTrivia_of_other rfl rfl (by decide)) rfl
  have whole : load (first ++ rest)
      = .ok { requirements := [entry r 1], editables := [target "x" 2] } := by
    let line := ['f', ' ', '>', '1']
    have text : Uninterrupted line :=
      .of_any (by decide) (by decide +kernel) (by decide +kernel)
    have parsed : Requirement.parse? line = some r := by cbv
    have closes : Closes ['\n'] :=
      (Closes.blanks blanks (.lineEnd .lf) : Closes ([] ++ ['\n']))
    have plain := not_hasUrlComment_of_no_hash (t := line) (by decide +kernel)
    have scanned := (text.statement?_eq closes.follows (fun slash => absurd slash (by decide +kernel))
      ⟨'f', rfl, by decide⟩ parsed rfl).1 plain
    have loaded := RequirementsFile.loadText_indented ⟨[], []⟩ ⟨"r"⟩ blanks ⟨'f', rfl, by decide⟩
      scanned (by simp)
    have closed : EndsLine (line ++ ['\n']) := ⟨by decide, by decide, by decide⟩
    have both := RequirementsFile.loadText_append_eq ⟨[], []⟩ ⟨"r"⟩ closed (key ++ ['x', '\n'])
    rw [List.nil_append] at loaded
    rw [loaded, Told.silent_andThen] at both
    have same : first ++ rest = line ++ ['\n'] ++ (key ++ ['x', '\n']) := rfl
    simp only [load] at value ⊢
    rw [same, both, Told.map, Loading.down, Told.map, value]
    rfl
  have parses : (RequirementsFile.loadText ⟨[], []⟩ ([] ++ (first ++ rest)) ⟨"r"⟩).value = .ok _ :=
    whole
  have starts : Script.Starts ([] ++ (first ++ rest)) (first ++ rest) :=
    .here (skipTrivia_of_other rfl rfl (by decide))
  have split : splitStatement (first ++ rest)
      = (first ++ ['>', '1'], .line, ['-', 'e', ' ', 'x', '\n']) := by
    cbv
  have wrapped := (continuation_neutral_unless_before_value _ _ parses starts .lf).1 (by decide)
    ⟨' ', rfl, rfl⟩ (.token split (by decide))
  have parses' : (RequirementsFile.loadText ⟨[], []⟩ ([] ++ (key ++ ['x', '\n'])) ⟨"r"⟩).value
      = .ok _ := value
  have starts' : Script.Starts ([] ++ (key ++ ['x', '\n'])) (key ++ ['x', '\n']) :=
    .here (skipTrivia_of_other rfl rfl (by decide))
  have letters : ∀ c ∈ ['-', 'e'], isBlank c = false ∧ c ≠ '=' :=
    List.forall_mem_cons.mpr ⟨by decide, List.forall_mem_cons.mpr ⟨by decide, List.forall_mem_nil _⟩⟩
  have gaps : ∀ c ∈ [' '], isGap c = true := by simp [isGap]
  have scanned : statement? (key ++ ['x', '\n']) = some (.ok (.editable "x", [])) := rfl
  have place : BeforeValue key ['x', '\n'] (.editable "x") (.editable "\\") :=
    .option .editable (rfl : key = ['-', 'e'] ++ [' ']) letters gaps (by simp) scanned
  obtain ⟨earlier, later, script, cut⟩ :=
    (continuation_neutral_unless_before_value _ _ parses' starts' .lf).2 _ _ place
  have only : Script.read (key ++ ['x', '\n']) = ⟨[⟨1, .editable "x"⟩], none⟩ := by
    have start : Position.ofRest (key ++ ['x', '\n']) (key ++ ['x', '\n']) = .start :=
      (Position.Reaches.refl _).ofRest_eq
    have trivia : skipTrivia (key ++ ['x', '\n']) = key ++ ['x', '\n'] :=
      skipTrivia_of_other rfl rfl (by decide)
    rw [Script.read, Script.readFrom_of_statement _ trivia scanned, start, Script.readFrom_nil]
    rfl
  have nothing : earlier = [] := by
    have both := congrArg Script.statements (script.symm.trans only)
    rcases List.append_eq_singleton_iff.mp both with ⟨none, -⟩ | ⟨-, none⟩
    · exact none
    · cases none
  subst nothing
  have name : PackageName.IsName ['x'] :=
    ⟨List.forall_mem_cons.mpr ⟨.inr (by decide), List.forall_mem_nil _⟩, ⟨'x', rfl, by decide⟩, ⟨'x', rfl, by decide⟩⟩
  have bare : Script.read ['x', '\n'] = ⟨[⟨1, .requirement (bareRequirement ['x']) []⟩], none⟩ :=
    Script.read_bareName name
  have cut : load (key ++ '\\' :: (['\n'] ++ ['x', '\n'])) = _ := congrArg Told.value cut
  rw [RequirementsFile.loadText, bare, Loading.ofStatements_cons, Loading.ofStatements_nil,
    List.nil_append, Loading.ofStatements_cons, Loading.ofStatements_nil] at cut
  exact ⟨⟨whole, wrapped⟩, value, cut⟩

end PinFloor
