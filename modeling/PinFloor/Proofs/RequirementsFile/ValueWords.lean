import PinFloor.Proofs.RequirementsFile.EntryLines
import PinFloor.Proofs.RequirementsFile.RemarkedValues

/-! # Words as values, and `#` in them

A `#` within a word starts no comment in a value that is recorded, and none in the text of an entry.
The name of an included file ends at it.
-/

namespace PinFloor

open Scanner

/-- A key of the statements that record their value, and the statement of a value. -/
inductive Records : String → (String → Statement) → Prop where
  | short : Records "-e" .editable
  | long : Records "--editable" .editable
  | option {key : String} {option : ValueOption} : ValueOption.ofName? key = some option →
      Records key fun value => .option (.setting option value)

/-- A key of the statements that include a file. -/
inductive Includes : String → IncludeKind → Prop where
  | shortRequirements : Includes "-r" .requirements
  | requirements : Includes "--requirement" .requirements
  | shortConstraints : Includes "-c" .constraints
  | constraints : Includes "--constraint" .constraints

/-- A line with a key and a value, and the rest behind it. The value is a word that no `#` starts
    with. Behind it, blanks may stand, or a comment behind blanks. -/
inductive ValueLine (key : String) (v rest : List Char) : List Char → Prop where
  | mk {sep pad mark : List Char} : Separates sep → v ≠ [] → (∀ c ∈ v, isBlank c = false) →
      v.head? ≠ some '#' → Remark false pad → LineStop mark rest →
      ValueLine key v rest (key.toList ++ (sep ++ (v ++ (pad ++ mark))))

/-- A key starts with `-` and is one word without `=`. -/
def IsKey (key : String) : Prop :=
  key.toList.head? = some '-' ∧ ∀ c ∈ key.toList, isBlank c = false ∧ c ≠ '='

variable {key : String} {make : String → Statement} {kind : IncludeKind} {st : Statement}
  {opens : Bool} {before cs mark pad rest sep start v : List Char}

/-! ## Keys -/

theorem ValueOption.isKey {option : ValueOption} (named : ofName? key = some option) :
    IsKey key := by
  unfold ofName? at named
  split at named
  case h_9 => cases named
  all_goals simp [IsKey, isBlank]

theorem Records.isKey (records : Records key make) : IsKey key := by
  cases records with
  | short | long => simp [IsKey, isBlank]
  | option named => exact ValueOption.isKey named

theorem Includes.isKey (includes : Includes key kind) : IsKey key := by
  cases includes <;> simp [IsKey, isBlank]

namespace Scanner

/-- A key ends where its value is separated from it. -/
theorem span_key (isKey : IsKey key) (separates : Separates sep) (cs : List Char) :
    ((key.toList ++ (sep ++ cs)).takeWhile fun c => !isBlank c && c ≠ '=') = key.toList ∧
      ((key.toList ++ (sep ++ cs)).dropWhile fun c => !isBlank c && c ≠ '=') = sep ++ cs := by
  have inside : ∀ c ∈ key.toList, (!isBlank c && decide (c ≠ '=')) = true := fun c member => by
    simp [isKey.2 c member]
  refine span_append inside fun c first => ?_
  rcases separates with rfl | ⟨some, gaps⟩
  · cases first
    rfl
  · rw [List.head?_append_of_ne_nil _ some] at first
    simp [isBlank_of_isGap (gaps c (List.mem_of_head? first))]

theorem statement?_of_key (isKey : IsKey key) (cs : List Char) :
    statement? (key.toList ++ cs) = some (option (key.toList ++ cs)) := by
  obtain ⟨more, start⟩ := List.head?_eq_some_iff.mp isKey.1
  rw [start]
  rfl

theorem option_of_records (records : Records key make) (separates : Separates sep)
    (cs : List Char) : option (key.toList ++ (sep ++ cs)) =
      (lineValue (!isBlank ·) (sep ++ cs)).map fun (value, rest) => (make value, rest) := by
  obtain ⟨name, left⟩ := span_key records.isKey separates cs
  simp only [option, name, left, String.ofList_toList]
  cases records with
  | short | long => rfl
  | option named =>
      unfold ValueOption.ofName? at named
      split at named
      case h_9 => cases named
      all_goals
        cases named
        rfl

theorem option_of_includes (includes : Includes key kind) (separates : Separates sep)
    (cs : List Char) : option (key.toList ++ (sep ++ cs)) =
      (lineValue inFileName (sep ++ cs)).map fun (file, rest) => (.include kind ⟨file⟩, rest) := by
  obtain ⟨name, left⟩ := span_key includes.isKey separates cs
  simp only [option, name, left, String.ofList_toList]
  cases includes <;> rfl

/-! ## Values -/

theorem value_of_separates {p : Char → Bool} (separates : Separates sep)
    (visible : ∀ c, cs.head? = some c → isGap c = false) :
    value p (sep ++ cs) = finishValue (cs.takeWhile p) (cs.dropWhile p) := by
  rcases separates with rfl | ⟨some, gaps⟩
  · rfl
  · exact value_of_gaps gaps some visible

theorem finishValue_word {gaps : List Char} (some : v ≠ []) (word : ∀ c ∈ v, isBlank c = false)
    (blanks : ∀ c ∈ gaps, isGap c = true) (rest : List Char) :
    finishValue (v ++ gaps) rest = .ok (String.ofList v, rest) := by
  have whole : trimEnd v = v := IsHash.trimEnd_eq ⟨some, word⟩
  rw [finishValue, trimEnd_append_blanks fun c inside => isBlank_of_isGap (blanks c inside), whole]
  obtain ⟨c, v, rfl⟩ := List.exists_cons_of_ne_nil some
  rfl

theorem endLine_remark (remark : Remark opens pad) (stop : LineStop mark rest) :
    endLine (pad ++ mark) = .ok ((), rest) := by
  have alone : endLine mark = .ok ((), rest) := by
    refine endLine_eq_ok_iff.mpr ⟨stop.skipLine_eq.symm, fun c first => ?_⟩
    rw [(stop.span stopsAtBreak_isGap).2] at first
    exact .inl (stop.isBreak_head first)
  have remarked : Remarked opens mark (pad ++ mark) := .stop remark stop stop .rfl (.refl true rest)
  obtain ⟨left, scanned, -⟩ := remarked.endLine () rest alone
  rw [scanned, left_of_endLine scanned, remark.skipLine_eq stop]

theorem lineValue_of_value {p : Char → Bool} {value : String}
    (valued : Scanner.value p cs = .ok (value, pad ++ mark)) (remark : Remark opens pad)
    (stop : LineStop mark rest) : lineValue p cs = .ok (value, rest) := by
  rw [lineValue, valued]
  simp only [endLine_remark remark stop]
  rfl

/-- A word ends at the blanks or the line end behind it. -/
theorem lineValue_word (separates : Separates sep) (some : v ≠ [])
    (word : ∀ c ∈ v, isBlank c = false) (remark : Remark false pad) (stop : LineStop mark rest) :
    lineValue (!isBlank ·) (sep ++ (v ++ (pad ++ mark))) = .ok (String.ofList v, rest) := by
  refine lineValue_of_value (IsHash.value_eq ⟨some, word⟩ separates fun c first => ?_) remark stop
  cases pad with
  | nil => rcases break_cases (stop.isBreak_head first) with rfl | rfl <;> rfl
  | cons d pad =>
      cases first
      exact isBlank_of_isGap ((remark.head_cases rfl).resolve_right (by simp))

/-- The name of a file takes a word up to its first `#`, and blanks at most besides. What is left of
    the line is a comment, if anything. -/
theorem span_fileName (word : ∀ c ∈ v, isBlank c = false) (remark : Remark opens pad)
    (stop : LineStop mark rest) : ∃ gaps left, (∀ c ∈ gaps, isGap c = true) ∧
      (v ++ (pad ++ mark)).takeWhile inFileName = v.takeWhile (· ≠ '#') ++ gaps ∧
      (v ++ (pad ++ mark)).dropWhile inFileName = left ++ mark ∧ Remark true left := by
  have plain : ∀ c ∈ v, isBreak c = false := fun c member => not_break_of_visible (word c member)
  have named {name : List Char} (part : name ⊆ v) (noHash : '#' ∉ name) :
      ∀ c ∈ name, inFileName c = true ∧ decide (c ≠ '#') = true := by
    intro c member
    have other : c ≠ '#' := fun same => noHash (same ▸ member)
    simp [inFileName, plain c (part member), other]
  -- The first `#` within the word starts a comment that takes the rest of the line, `pad` too.
  by_cases hash : '#' ∈ v
  · obtain ⟨name, behind, rfl, noHash⟩ := List.eq_append_cons_of_mem hash
    have inside := named (List.subset_append_left _ _) noHash
    have stops (cs : List Char) (c : Char) (first : ('#' :: cs).head? = some c) :
        inFileName c = false ∧ decide (c ≠ '#') = false := by
      cases first
      decide
    obtain ⟨taken, left⟩ := span_append (fun c member => (inside c member).1)
      fun c first => (stops (behind ++ (pad ++ mark)) c first).1
    obtain ⟨whole, -⟩ := span_append (fun c member => (inside c member).2)
      fun c first => (stops behind c first).2
    refine ⟨[], '#' :: (behind ++ pad), List.forall_mem_nil _, ?_, ?_, .hash ?_⟩
    · rw [List.append_assoc, List.cons_append, taken, whole, List.append_nil]
    · rw [List.append_assoc, List.cons_append, left, List.cons_append, List.append_assoc]
    · exact List.forall_mem_append.mpr
        ⟨fun c member => plain c (by simp [member]), remark.plain⟩
  · have inside := named (List.Subset.refl v) hash
    obtain ⟨gaps, left, blanks, taken, dropped, remark⟩ := remark.exists_fileName stop
    refine ⟨gaps, left, blanks, ?_, ?_, remark⟩
    · rw [List.takeWhile_append_of_pos fun c member => (inside c member).1, taken,
        List.takeWhile_eq_self_iff.mpr fun c member => (inside c member).2]
    · rw [List.dropWhile_append_of_pos fun c member => (inside c member).1, dropped]

/-- The name of a file is a word up to its first `#`, which starts a comment. -/
theorem lineValue_fileName (separates : Separates sep) (some : v ≠ [])
    (word : ∀ c ∈ v, isBlank c = false) (first : v.head? ≠ .some '#') (remark : Remark false pad)
    (stop : LineStop mark rest) : lineValue inFileName (sep ++ (v ++ (pad ++ mark))) =
      .ok (String.ofList (v.takeWhile (· ≠ '#')), rest) := by
  obtain ⟨gaps, left, blanks, taken, dropped, comment⟩ := span_fileName word remark stop
  have filled : v.takeWhile (· ≠ '#') ≠ [] := by
    obtain ⟨c, v, rfl⟩ := List.exists_cons_of_ne_nil some
    have other : c ≠ '#' := fun same => first (congrArg _ same)
    simp [other]
  have part : ∀ c ∈ v.takeWhile (· ≠ '#'), isBlank c = false := fun c member =>
    word c ((List.takeWhile_prefix _).mem member)
  have visible : ∀ c, (v ++ (pad ++ mark)).head? = .some c → isGap c = false := by
    intro c first
    rw [List.head?_append_of_ne_nil _ some] at first
    exact not_gap_of_visible (word c (List.mem_of_head? first))
  refine lineValue_of_value ?_ comment stop
  rw [value_of_separates separates visible, taken, dropped, finishValue_word filled part blanks]

/-! ## The texts of entries -/

/-- The text of an entry ends at the end of the file, at a line end, or before a gap. -/
theorem splitStatement_stops (cs : List Char) : ∃ tail, cs = (splitStatement cs).1 ++ tail ∧
    (tail = [] ∨ startsBreak tail = true ∨ skipGap tail ≠ tail) := by
  induction cs using splitStatement_induction with
  | nil =>
      rw [splitStatement_nil]
      exact ⟨[], rfl, .inl rfl⟩
  | @lineEnd cs _ ends =>
      rw [splitStatement_lineEnd ends]
      exact ⟨cs, rfl, .inr (.inl ends.startsBreak)⟩
  | @plain c cs plain none ih =>
      rw [splitStatement_plain plain none]
      obtain ⟨tail, whole, stops⟩ := ih
      exact ⟨tail, congrArg (c :: ·) whole, stops⟩
  | @gap cs gap ih =>
      have moves : skipGap cs ≠ cs := by
        intro same
        rw [afterGap?_of_eq same] at gap
        cases gap
      rw [splitStatement_gap gap]
      split
      · exact ⟨cs, rfl, .inr (.inr moves)⟩
      · split
        · exact ⟨cs, rfl, .inr (.inr moves)⟩
        · obtain ⟨tail, whole, stops⟩ := ih
          refine ⟨tail, ?_, stops⟩
          calc
            cs = gapOf cs ++ skipGap cs := (gapOf_append_skipGap cs).symm
            _ = _ := by rw [List.append_assoc, ← whole]

end Scanner

/-! ## Lines with values -/

namespace ValueLine

theorem statement?_of_records (line : ValueLine key v rest start) (records : Records key make) :
    statement? start = some (.ok (make (String.ofList v), rest)) := by
  obtain ⟨separates, filled, word, -, remark, stop⟩ := line
  rw [statement?_of_key records.isKey, option_of_records records separates,
    lineValue_word separates filled word remark stop]
  rfl

theorem statement?_of_includes (line : ValueLine key v rest start)
    (includes : Includes key kind) : statement? start =
      some (.ok (.include kind ⟨String.ofList (v.takeWhile (· ≠ '#'))⟩, rest)) := by
  obtain ⟨separates, filled, word, first, remark, stop⟩ := line
  rw [statement?_of_key includes.isKey, option_of_includes includes separates,
    lineValue_fileName separates filled word first remark stop]
  rfl

end ValueLine

/-! ## Statements in their files -/

namespace Script

/-- The statements above a line. -/
def above (script : Script) (line : Nat) : List PlacedStatement :=
  script.statements.takeWhile (·.line < line)

theorem above_append {earlier later : List PlacedStatement} {s : PlacedStatement}
    (ordered : (earlier ++ s :: later).Pairwise (·.line < ·.line)) (fault? : Option Fault) :
    above ⟨earlier ++ s :: later, fault?⟩ s.line = earlier := by
  have before := (List.pairwise_append.mp ordered).2.2
  have inside : ∀ e ∈ earlier, decide (e.line < s.line) = true := fun e member =>
    decide_eq_true (before e member s List.mem_cons_self)
  rw [above, List.takeWhile_append_of_pos inside, List.takeWhile_cons_of_neg (by simp),
    List.append_nil]

/-- Nothing stands above the first line. -/
theorem above_one (content : List Char) : (read content).above 1 = [] := by
  have low : ∀ s ∈ (read content).statements, ¬ s.line < 1 := by
    intro s member
    obtain ⟨_, _, _, -, -, -, line⟩ := says_of_mem member
    omega
  rw [above]
  cases statements : (read content).statements with
  | nil => rfl
  | cons s rest =>
      rw [statements] at low
      exact List.takeWhile_cons_of_neg (by simpa using low s List.mem_cons_self)

theorem Starts.skipTrivia_start (starts : Starts cs start) : Scanner.skipTrivia start = start := by
  obtain ⟨ds, skipped⟩ := starts.skipTrivia_eq
  cases start with
  | nil => exact skipTrivia_of_nil rfl
  | cons c t =>
      obtain ⟨gap, plain, comment, single⟩ := start_of_skipTrivia skipped
      exact skipTrivia_of_other (skipGap_plain gap single) plain comment

/-- A statement is read on the line where it starts, and what is behind it further down. -/
theorem Starts.read_at (starts : Starts (before ++ start) start)
    (scanned : statement? start = some (.ok (st, rest))) : ∃ earlier front,
      before ++ start = front ++ rest ∧ read (before ++ start) = append ⟨earlier, none⟩
        (((read rest).down (lineEnds front)).cons ⟨lineEnds before + 1, st⟩) := by
  have some : start ≠ [] := by
    rintro rfl
    cases scanned
  have whole : Starts (before ++ start) (start ++ []) := by rwa [List.append_nil]
  obtain ⟨before', same, others⟩ := whole.exists_earlier some
  rw [List.append_nil] at same
  obtain rfl : before = before' := List.append_cancel_right same
  obtain ⟨earlier, next⟩ := others []
  have first := next [] (by rw [List.append_nil, starts.skipTrivia_start])
  rw [List.append_nil, List.nil_append] at first
  have line := endsAtLine_of_statement? scanned
  obtain ⟨u, split⟩ := line.suffix
  refine ⟨earlier, before ++ u, by rw [List.append_assoc, split], ?_⟩
  rw [read, first, readFrom_of_statement _ starts.skipTrivia_start scanned, Position.line_ofRest]
  rw [← split] at line ⊢
  rw [readFrom_of_endsAtLine line]

end Script

/-- Loads what stands above a line, then what the line adds, and then the rest behind `front`. -/
def Loading.around (fs : FileSystem) (path : Path) (above : List PlacedStatement) (here : Loading)
    (front rest : List Char) : Loading :=
  (ofStatements fs [fs.identity path] path none above).andThen fun a =>
    (here.andThen fun b =>
      ((RequirementsFile.loadText fs rest path).down path (lineEnds front)).map (·.map b.merge)).map
        (·.map a.merge)

/-- What a file adds that is included from the file at `path`. -/
def Loading.including (fs : FileSystem) (path target : Path) (line : Nat) (kind : IncludeKind) :
    Loading :=
  if [fs.identity path].contains (fs.identity target) then .fail (.cycle path target line)
  else .ofInclude path line kind (.ofTarget fs [fs.identity path] target)

theorem Loading.ofStatement_include (fs : FileSystem) (path name : Path) (line : Nat) :
    ofStatement fs [fs.identity path] path ⟨line, .include kind name⟩ =
      .including fs path (path.sibling name) line kind := by
  rw [ofStatement, including]

/-- From the file at `path` the statement at `start` is loaded as `here`, between what stands above its
    line and the rest behind it. -/
def RequirementsFile.LoadsAround (fs : FileSystem) (path : Path) (before start rest : List Char)
    (here : Loading) : Prop :=
  ∃ front, before ++ start = front ++ rest ∧ loadText fs (before ++ start) path =
    Loading.around fs path ((Script.read (before ++ start)).above (lineEnds before + 1)) here
      front rest

theorem Records.ofStatement_eq (records : Records key make) (fs : FileSystem)
    (opened : List Identity) (file : Path) (line : Nat) (value : String) :
    Loading.ofStatement fs opened file ⟨line, make value⟩ =
      .silent (.ok (Loading.single file line (make value))) := by
  cases records <;> rfl

namespace RequirementsFile

theorem loadText_at (fs : FileSystem) (path : Path)
    (starts : Script.Starts (before ++ start) start)
    (scanned : statement? start = some (.ok (st, rest))) : LoadsAround fs path before start rest
      (.ofStatement fs [fs.identity path] path ⟨lineEnds before + 1, st⟩) := by
  obtain ⟨earlier, front, whole, script⟩ := starts.read_at scanned
  have ordered : (Script.read (before ++ start)).statements.Pairwise (·.line < ·.line) :=
    Script.pairwise_lines List.suffix_rfl
  rw [script] at ordered
  refine ⟨front, whole, ?_⟩
  rw [loadText, script, Loading.ofStatements_append, Loading.around]
  have top := Script.above_append ordered ((Script.read rest).down (lineEnds front)).fault?
  simp only [Script.append, Script.cons] at top ⊢
  rw [top]
  refine congrArg _ (funext fun a => congrArg _ ?_)
  rw [Loading.ofStatements_cons]
  refine congrArg _ (funext fun b => congrArg _ ?_)
  exact Loading.ofStatements_down List.mem_cons_self

/-- What becomes of a `#` within a word of the statement at `start`. -/
structure HashInWord (fs : FileSystem) (path : Path) (before start : List Char) : Prop where
  /-- A value that is recorded is the whole word. -/
  recorded : ∀ key make v rest, Records key make → ValueLine key v rest start →
    LoadsAround fs path before start rest
      (.silent (.ok (Loading.single path (lineEnds before + 1) (make (String.ofList v)))))
  /-- The file that is opened has the name before the `#`. -/
  included : ∀ key kind v rest, Includes key kind → ValueLine key v rest start →
    LoadsAround fs path before start rest
      (.including fs path (path.sibling ⟨String.ofList (v.takeWhile (· ≠ '#'))⟩)
        (lineEnds before + 1) kind)
  /-- The text of an entry ends at the end of the file, at a line end, or before a gap. -/
  entry : start.head? ≠ some '-' → ∃ tail, start = (splitStatement start).1 ++ tail ∧
    (tail = [] ∨ startsBreak tail = true ∨ skipGap tail ≠ tail)

/-- A `#` within a word belongs to a recorded value, and the text of an entry never ends at it. In a
    value that names a file it starts a comment: the file that is opened has the name before it. -/
theorem hash_kept_unless_in_file_name (fs : FileSystem) (path : Path)
    (starts : Script.Starts (before ++ start) start) : HashInWord fs path before start where
  recorded key make v rest records line := by
    have loaded := loadText_at fs path starts (line.statement?_of_records records)
    rwa [records.ofStatement_eq] at loaded
  included key kind v rest includes line := by
    have loaded := loadText_at fs path starts (line.statement?_of_includes includes)
    rwa [Loading.ofStatement_include] at loaded
  entry _ := splitStatement_stops start

end RequirementsFile

/-- `-e x#y` is recorded as it stands, and `-r a#b` opens `a`, which is empty, and not `a#b`. -/
theorem recorded_hash_and_included_hash :
    let recorded := ['-', 'e', ' ', 'x', '#', 'y', '\n']
    let included := ['-', 'r', ' ', 'a', '#', 'b', '\n']
    let fs : FileSystem := ⟨[], [(["a"], .text []), (["a#b"], .text recorded)]⟩
    let load := fun text => (RequirementsFile.loadText fs text ⟨"r"⟩).value
    load recorded = .ok { editables := [⟨"x#y", ⟨⟨"r"⟩, 1⟩⟩] } ∧ load included = .ok {} := by
  intro recorded included fs load
  have gaps : ∀ c ∈ [' '], isGap c = true := by simp [isGap]
  have separates : Separates [' '] := .inr ⟨by simp, gaps⟩
  have none : Remark false [] := .blanks (List.forall_mem_nil _)
  have stop : LineStop ['\n'] [] := .lineEnd .lf
  have target : ValueLine "-e" ['x', '#', 'y'] [] recorded :=
    .mk separates (by simp) (by simp [isBlank]) (by simp) none stop
  have name : ValueLine "-r" ['a', '#', 'b'] [] included :=
    .mk separates (by simp) (by simp [isBlank]) (by simp) none stop
  have starts : Script.Starts ([] ++ recorded) recorded :=
    .here (skipTrivia_of_other rfl rfl (by decide))
  have starts' : Script.Starts ([] ++ included) included :=
    .here (skipTrivia_of_other rfl rfl (by decide))
  have nothing (fs : FileSystem) (path : Path) :
      RequirementsFile.loadText fs [] path = .silent (.ok .empty) := by
    rw [RequirementsFile.loadText, Script.read, Script.readFrom_nil, Loading.ofStatements_nil]
  have first := RequirementsFile.hash_kept_unless_in_file_name fs ⟨"r"⟩ starts
  have second := RequirementsFile.hash_kept_unless_in_file_name fs ⟨"r"⟩ starts'
  obtain ⟨front, -, loaded⟩ := first.recorded _ _ _ _ .short target
  obtain ⟨front', -, loaded'⟩ := second.included _ _ _ _ .shortRequirements name
  have one : lineEnds [] + 1 = 1 := rfl
  rw [one, Script.above_one, Loading.around, Loading.ofStatements_nil, nothing] at loaded loaded'
  have sibling : Path.sibling ⟨"r"⟩ ⟨String.ofList (['a', '#', 'b'].takeWhile (· ≠ '#'))⟩ = ⟨"a"⟩ :=
    rfl
  have outside : ¬ [fs.identity ⟨"r"⟩].contains (fs.identity ⟨"a"⟩) = true := by decide
  have opened : Loading.ofTarget fs [fs.identity ⟨"r"⟩] ⟨"a"⟩ =
      Loading.ofFile ⟨"a"⟩ (.silent (.ok .empty)) := by
    have readable : fs.read ⟨"a"⟩ = .ok [] := rfl
    simp only [Loading.ofTarget, readable, Script.read, Script.readFrom_nil,
      Loading.ofStatements_nil]
  rw [sibling, Loading.including, if_neg outside, opened] at loaded'
  exact ⟨congrArg Told.value loaded, congrArg Told.value loaded'⟩

end PinFloor
