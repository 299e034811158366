import PinFloor.Proofs.RequirementsFile.RemarkedValues

/-! # Statements with remarks behind them

Every kind of statement is read with a remark behind it as without one, and so is what follows. So a
file with remarks at the ends of its lines is loaded as without them, and each entry keeps its line.
-/

namespace PinFloor

open Scanner

variable {opens : Bool} {c : Char} {cs ds ds' pad rest : List Char}

/-! ## The text of a statement -/

/-- Splits of the two texts after a statement: the lines that its text stands for differ in blanks at
    their ends. -/
structure SplitAlike (s t : List Char × Ending × List Char) : Prop where
  text : ∃ line gaps gaps', (∀ c ∈ gaps, isGap c = true) ∧ (∀ c ∈ gaps', isGap c = true) ∧
    Joins s.1 (line ++ gaps) ∧ Joins t.1 (line ++ gaps')
  ending : t.2.1 = s.2.1
  rest : Remarked true s.2.2 t.2.2

theorem trim_append_blanks {b : List Char} (blanks : ∀ c ∈ b, isBlank c = true) (cs : List Char) :
    trim (cs ++ b) = trim cs := by
  rw [trim, trim, trimStart_append_blanks blanks]
  split
  · next none => rw [none]
  · rw [trimEnd_append_blanks blanks]

theorem Scanner.isPrefixOf_hash : ['#'].isPrefixOf cs = true ↔ cs.head? = some '#' := by
  rw [List.isPrefixOf_iff_prefix, List.head?_eq_some_iff]
  exact exists_congr fun _ => eq_comm

theorem Scanner.Joins.append_left {gaps text line : List Char} (blanks : ∀ c ∈ gaps, isGap c = true)
    (joins : Joins text line) : Joins (gaps ++ text) (gaps ++ line) := by
  induction gaps with
  | nil => exact joins
  | cons c gaps ih =>
      obtain ⟨first, others⟩ := List.forall_mem_cons.mp blanks
      exact .char (not_break_of_isGap first) (ih others)

theorem Remark.isGap_gapOf (remark : Remark opens pad) (stop : LineStop ds ds') :
    ∀ c ∈ gapOf (pad ++ ds), isGap c = true := by
  cases remark with
  | blanks gaps => rwa [gapOf_append gaps stop.skipGap_eq]
  | comment gaps _ _ =>
      rwa [List.append_assoc, List.cons_append, gapOf_append gaps (skipGap_hash _)]

/-- The gaps at the start of the two texts stand for the same blanks, unless a line ends behind. -/
theorem Remarked.joins_gap {text text' line line' : List Char} (remarked : Remarked opens cs ds)
    (first : Joins text line) (second : Joins text' line') :
    ∃ gaps gaps', (∀ c ∈ gaps, isGap c = true) ∧ (∀ c ∈ gaps', isGap c = true) ∧
      Joins (gapOf cs ++ text) (gaps ++ line) ∧ Joins (gapOf ds ++ text') (gaps' ++ line') ∧
      (gaps = gaps' ∨ ∃ rest, LineStop (Scanner.skipGap cs) rest) := by
  induction remarked with
  | nil => exact ⟨[], [], List.forall_mem_nil _, List.forall_mem_nil _, first, second, .inl rfl⟩
  | @char _ c cs ds plain single tail ih =>
      cases gap : isGap c with
      | true =>
          obtain ⟨gaps, gaps', blanks, blanks', first, second, same⟩ := ih
          rw [gapOf_gap gap, gapOf_gap gap, skipGap_gap gap]
          refine ⟨c :: gaps, c :: gaps', List.forall_mem_cons.mpr ⟨gap, blanks⟩,
            List.forall_mem_cons.mpr ⟨gap, blanks'⟩, .char plain first, .char plain second, ?_⟩
          exact same.imp (congrArg _) id
      | false =>
          rw [gapOf_none (skipGap_plain gap single),
            gapOf_none (skipGap_plain gap fun slash => tail.startsBreak_eq (single slash))]
          exact ⟨[], [], List.forall_mem_nil _, List.forall_mem_nil _, first, second, .inl rfl⟩
  | joined ends ends' _ ih =>
      obtain ⟨gaps, gaps', blanks, blanks', first, second, same⟩ := ih
      rw [skipGap_joined ends]
      exact ⟨gaps, gaps', blanks, blanks', first.joined_gap ends, second.joined_gap ends', same⟩
  | stop remark stop stop' =>
      have blanks := remark.isGap_gapOf stop'
      rw [gapOf_none stop.skipGap_eq, stop.skipGap_eq]
      exact ⟨[], _, List.forall_mem_nil _, blanks, first, second.append_left blanks, .inr ⟨_, stop⟩⟩

namespace SplitAlike

variable {s t : List Char × Ending × List Char}

theorem joinLines_eq (split : SplitAlike s t) : joinLines s.1 = joinLines t.1 := by
  obtain ⟨line, gaps, gaps', blanks, blanks', first, second⟩ := split.text
  rw [first.joinLines_eq, second.joinLines_eq,
    trim_append_blanks fun c inside => isBlank_of_isGap (blanks c inside),
    trim_append_blanks fun c inside => isBlank_of_isGap (blanks' c inside)]

theorem bare (ending : Ending) (remarked : Remarked true cs ds) :
    SplitAlike ([], ending, cs) ([], ending, ds) :=
  ⟨⟨[], [], [], List.forall_mem_nil _, List.forall_mem_nil _, .nil, .nil⟩, rfl, remarked⟩

theorem cons (split : SplitAlike s t) (plain : isBreak c = false) :
    SplitAlike (c :: s.1, s.2) (c :: t.1, t.2) := by
  obtain ⟨line, gaps, gaps', blanks, blanks', first, second⟩ := split.text
  exact ⟨⟨c :: line, gaps, gaps', blanks, blanks', .char plain first, .char plain second⟩,
    split.ending, split.rest⟩

theorem trailingHashes (split : SplitAlike s t) :
    Keeps (Scanner.trailingHashes s.2.1 s.2.2) (Scanner.trailingHashes t.2.1 t.2.2) := by
  rw [split.ending]
  cases s.2.1 with
  | line => exact .ok [] split.rest
  | options => exact split.rest.hashes

/-- Before a gap within the text of a statement. -/
theorem gap (remarked : Remarked opens cs ds)
    (next : SplitAlike (splitStatement (skipGap cs)) (splitStatement (skipGap ds))) :
    SplitAlike (gapOf cs ++ (splitStatement (skipGap cs)).1, (splitStatement (skipGap cs)).2)
      (gapOf ds ++ (splitStatement (skipGap ds)).1, (splitStatement (skipGap ds)).2) := by
  obtain ⟨line, last, last', lastBlanks, lastBlanks', first, second⟩ := next.text
  obtain ⟨gaps, gaps', blanks, blanks', whole, whole', same⟩ := remarked.joins_gap first second
  refine ⟨?_, next.ending, next.rest⟩
  rcases same with rfl | ⟨rest, stop⟩
  · rw [← List.append_assoc] at whole whole'
    exact ⟨gaps ++ line, last, last', lastBlanks, lastBlanks', whole, whole'⟩
  · rw [stop.splitStatement_eq] at first
    obtain ⟨rfl, rfl⟩ : line = [] ∧ last = [] := by
      generalize joined : line ++ last = line' at first
      cases first
      exact List.append_eq_nil_iff.mp joined
    exact ⟨[], gaps ++ [], gaps' ++ ([] ++ last'), by simpa using blanks,
      List.forall_mem_append.mpr ⟨blanks', lastBlanks'⟩, whole, whole'⟩

end SplitAlike

namespace Remarked

theorem splitStatement_gap (remarked : Remarked opens cs ds)
    (gap : afterGap? cs = some (Scanner.skipGap cs)) (gap' : afterGap? ds = some (Scanner.skipGap ds))
    (next : Remarked false (Scanner.skipGap cs) (Scanner.skipGap ds) →
      SplitAlike (splitStatement (Scanner.skipGap cs)) (splitStatement (Scanner.skipGap ds))) :
    SplitAlike (splitStatement cs) (splitStatement ds) := by
  have start := remarked.skipGap
  have options :=
    (start.isPrefixOf (w := ['-', '-']) (by simp [isBlank]) fun none => by cases none).1
  have within := remarked.joins_gap .nil .nil
  rw [Scanner.splitStatement_gap gap, Scanner.splitStatement_gap gap', options]
  split
  · exact .bare .options start
  · by_cases comment : (Scanner.skipGap ds).head? = some '#'
    · rw [if_pos (isPrefixOf_hash.mpr comment)]
      rcases start.head_or_stop with head | stop
      · rw [if_pos (isPrefixOf_hash.mpr (head ▸ comment))]
        exact .bare .line start.skipLine
      · obtain ⟨gaps, _, blanks, _, joins, _, _⟩ := within
        rw [stop.not_isPrefixOf rfl, if_neg Bool.false_ne_true, stop.splitStatement_eq]
        exact ⟨⟨[], gaps ++ [], [], by simpa using blanks, List.forall_mem_nil _, joins, .nil⟩, rfl,
          start.skipLine⟩
    · have comment' : (Scanner.skipGap cs).head? ≠ some '#' := by
        intro hash
        rcases start.head_or_stop with head | stop
        · exact comment (head.trans hash)
        · cases stop.isBreak_head hash
      rw [if_neg (mt isPrefixOf_hash.mp comment), if_neg (mt isPrefixOf_hash.mp comment')]
      exact .gap remarked (next (start.settle fun hash => absurd hash comment))

theorem splitStatement {cs ds : List Char} (remarked : Remarked false cs ds) :
    SplitAlike (Scanner.splitStatement cs) (Scanner.splitStatement ds) := by
  cases remarked with
  | nil =>
      rw [splitStatement_nil]
      exact .bare .line .nil
  | @char _ c cs ds plain single tail =>
      cases gap : isGap c with
      | true =>
          have shorter : (Scanner.skipGap (c :: cs)).length < (c :: cs).length :=
            length_lt_of_afterGap? (afterGap?_of_gap gap cs)
          have whole : Remarked false (c :: cs) (c :: ds) := .char plain single tail
          exact whole.splitStatement_gap (afterGap?_of_gap gap cs) (afterGap?_of_gap gap ds)
            fun settled => splitStatement settled
      | false =>
          rw [gap] at tail
          rw [splitStatement_plain plain (afterGap?_of_eq (skipGap_plain gap single)),
            splitStatement_plain plain (afterGap?_of_eq
              (skipGap_plain gap fun slash => tail.startsBreak_eq (single slash)))]
          exact (splitStatement tail).cons plain
  | @joined _ cs ds _ _ first second tail =>
      have shorter : (Scanner.skipGap ('\\' :: cs)).length < ('\\' :: cs).length :=
        length_lt_of_afterGap? (afterGap?_of_joined first)
      have whole : Remarked false ('\\' :: cs) ('\\' :: ds) := .joined first second tail
      exact whole.splitStatement_gap (afterGap?_of_joined first) (afterGap?_of_joined second)
        fun settled => splitStatement settled
  | stop remark first second _ tail =>
      obtain ⟨kept, blanks, split⟩ := remark.splitStatement_eq second
      have joins := Joins.of_oneLine fun c inside => not_break_of_isGap (blanks c inside)
      rw [first.splitStatement_eq, split]
      exact ⟨⟨[], [], kept, List.forall_mem_nil _, blanks, .nil, joins⟩, rfl, tail⟩
termination_by cs.length

/-! ## Statements -/

theorem unnamed (remarked : Remarked false cs ds) :
    Keeps (Scanner.unnamed cs) (Scanner.unnamed ds) := by
  have split := remarked.splitStatement
  rw [unnamed_eq, unnamed_eq, split.joinLines_eq]
  exact split.trailingHashes.map fun _ => Statement.unnamed _

theorem requirement (remarked : Remarked false cs ds) :
    Keeps (Scanner.requirement cs) (Scanner.requirement ds) := by
  have split := remarked.splitStatement
  rw [requirement_eq, requirement_eq, split.joinLines_eq]
  cases Requirement.parse? (joinLines (Scanner.splitStatement ds).1) with
  | none => exact .of_error _ _
  | some requirement => exact split.trailingHashes.map (Statement.requirement requirement)

theorem option (remarked : Remarked false cs ds) :
    Keeps (Scanner.option cs) (Scanner.option ds) := by
  have blankStops : ∀ c, isBlank c = true → (!isBlank c && c ≠ '=') = false :=
    fun c blank => by simp [blank]
  have blankStops' : ∀ c, isBlank c = true → (!isBlank c) = false := fun c blank => by simp [blank]
  obtain ⟨same, rest⟩ := remarked.word blankStops
  have fileName := rest.lineValue spans_inFileName stopsAtBreak_inFileName
  have word := rest.lineValue (spans_of_blank blankStops') stopsAtBreak_notBlank
  simp only [Scanner.option, same]
  split
  · exact fileName.map fun file => Statement.include .requirements ⟨file⟩
  · exact fileName.map fun file => Statement.include .requirements ⟨file⟩
  · exact fileName.map fun file => Statement.include .constraints ⟨file⟩
  · exact fileName.map fun file => Statement.include .constraints ⟨file⟩
  · exact word.map Statement.editable
  · exact word.map Statement.editable
  · split
    · exact word.map fun value => Statement.option (.setting _ value)
    · exact rest.endLine.map fun _ => Statement.option (.flag _)
    · exact .of_error _ _

theorem isUnnamed_eq (remarked : Remarked false cs ds) : isUnnamed ds = isUnnamed cs := by
  have same := (remarked.word (p := fun c => !isBlank c && c ≠ ';') fun c blank => by simp [blank]).1
  rw [isUnnamed, isUnnamed, same]

theorem statement? (remarked : Remarked false (c :: cs) (c :: ds)) :
    ∃ s t, Scanner.statement? (c :: cs) = some s ∧ Scanner.statement? (c :: ds) = some t ∧
      Keeps s t := by
  rw [Scanner.statement?, Scanner.statement?, remarked.isUnnamed_eq]
  split
  · exact ⟨_, _, rfl, rfl, remarked.option⟩
  · split
    · exact ⟨_, _, rfl, rfl, remarked.unnamed⟩
    · split
      · exact ⟨_, _, rfl, rfl, remarked.requirement⟩
      · exact ⟨_, _, rfl, rfl, .of_error _ _⟩

end Remarked

/-! ## Whole files -/

theorem Position.line_of_suffix {content : List Char} (part : rest <:+ content)
    (opens : startsBreak rest = false) :
    (Position.ofRest content rest).line + lineEnds rest = lineEnds content + 1 := by
  obtain ⟨before, rfl⟩ := part
  rw [Position.line_ofRest, lineEnds_append (Uncut.of_startsBreak opens before)]
  omega

theorem Script.readFrom_remarked {first second cs ds : List Char}
    (level : lineEnds first = lineEnds second) (remarked : Remarked true cs ds)
    (part : cs <:+ first) (part' : ds <:+ second) (faultless : (readFrom first cs).fault? = none) :
    readFrom second ds = readFrom first cs := by
  obtain ⟨start, nothing⟩ := remarked.skipTrivia
  have opens := startsBreak_skipTrivia cs
  have here := (skipTrivia_suffix cs).trans part
  have here' := (skipTrivia_suffix ds).trans part'
  have line : (Position.ofRest second (skipTrivia ds)).line
      = (Position.ofRest first (skipTrivia cs)).line := by
    have above := Position.line_of_suffix here opens
    have above' := Position.line_of_suffix here' (start.startsBreak_eq opens)
    rw [← start.lineEnds_eq] at above'
    omega
  cases scanned : statement? (skipTrivia cs) with
  | none =>
      have none' : statement? (skipTrivia ds) = none := by
        rw [nothing (statement?_eq_none scanned)]
        rfl
      rw [readFrom_of_none scanned, readFrom_of_none none']
  | some result =>
      cases result with
      | error refusal =>
          rw [readFrom_of_error scanned] at faultless
          cases faultless
      | ok result =>
          obtain ⟨st, rest⟩ := result
          obtain ⟨rest', scanned', left⟩ : ∃ rest',
              statement? (skipTrivia ds) = some (.ok (st, rest')) ∧ Remarked true rest rest' := by
            rcases start.head_or_stop with head | stop
            · have settled := start.settle (head ▸ id)
              generalize skipTrivia cs = text, skipTrivia ds = text' at settled head scanned
              cases text with
              | nil => cases scanned
              | cons c text =>
                  obtain ⟨text', rfl⟩ := List.head?_eq_some_iff.mp head
                  obtain ⟨s, t, first, second, keeps⟩ := settled.statement?
                  obtain ⟨rest', kept, left⟩ :=
                    keeps st rest (Option.some.inj (first.symm.trans scanned))
                  exact ⟨rest', second.trans (congrArg some kept), left⟩
            · generalize skipTrivia cs = text at stop opens scanned
              cases stop with
              | last => cases scanned
              | lineEnd ends =>
                  rw [ends.startsBreak] at opens
                  cases opens
          have shorter : rest.length < cs.length :=
            Nat.lt_of_lt_of_le (length_lt_of_statement? scanned) (length_skipTrivia_le cs)
          rw [readFrom_of_ok scanned] at faultless ⊢
          rw [readFrom_of_ok scanned', line, readFrom_remarked level left
            ((endsAtLine_of_statement? scanned).suffix.trans here)
            ((endsAtLine_of_statement? scanned').suffix.trans here') faultless]
termination_by cs.length

/-- A file that can be loaded is loaded the same with remarks at the ends of its lines. -/
theorem RequirementsFile.loadText_remarked {fs : FileSystem} {path : Path} {a : RequirementsFile}
    (loaded : (loadText fs cs path).value = .ok a) (remarked : Remarked true cs ds) :
    loadText fs ds path = loadText fs cs path := by
  have same := Script.readFrom_remarked remarked.lineEnds_eq remarked List.suffix_rfl List.suffix_rfl
    (parses_of_loadText loaded)
  rw [loadText, loadText, Script.read, same]
  rfl

/-- A remark may be put in where a line ends that no `\` joins. -/
theorem Remarked.insert {before back : List Char} (remark : Remark false pad)
    (stop : LineStop back rest) (uncut : Uncut before back) (free : before.getLast? ≠ some '\\') :
    Remarked opens (before ++ back) (before ++ (pad ++ back)) := by
  have uncut' {front : List Char} (inside : Uncut front back) : Uncut front (pad ++ back) := by
    by_cases none : pad = []
    · rwa [none]
    · exact .of_startsBreak (remark.startsBreak_append none back) front
  have free' {front behind : List Char} (part : behind <:+ front)
      (free : front.getLast? ≠ some '\\') : behind.getLast? ≠ some '\\' := by
    obtain ⟨_, rfl⟩ := part
    intro last
    rw [List.getLast?_append, last] at free
    exact free rfl
  induction before using text_induction generalizing opens with
  | nil =>
      have here : Remarked opens back (pad ++ back) :=
        .stop (remark.mono fun absurd => Bool.noConfusion absurd) stop stop .rfl (.refl true rest)
      exact here
  | @char c before plain single ih =>
      have part := List.suffix_cons c before
      have single' : c = '\\' → startsBreak (before ++ back) = false := by
        rintro rfl
        cases before with
        | nil => exact absurd rfl free
        | cons d before => exact single rfl
      exact .char plain single' (ih (uncut.of_suffix part) (free' part free))
  | @joined front before ends ih =>
      have inside := uncut.of_suffix (List.suffix_cons _ _)
      exact .joined (ends.append_of_uncut inside) (ends.append_of_uncut (uncut' inside))
        (ih (inside.of_suffix ends.suffix) (free' (ends.suffix.trans (List.suffix_cons _ _)) free))
  | lineEnd ends ih =>
      exact .lineEnd (ends.append_of_uncut uncut) (ends.append_of_uncut (uncut' uncut))
        (ih (uncut.of_suffix ends.suffix) (free' ends.suffix free))

/-- Blanks, or a comment behind a blank, may be put in before any line end and at the end of a file
    that can be loaded, unless a `\` stands there: the same is loaded, from the same lines. -/
theorem RequirementsFile.trailing_remark_irrelevant {fs : FileSystem} {path : Path}
    {a : RequirementsFile} {before back : List Char}
    (loaded : (loadText fs (before ++ back) path).value = .ok a)
    (ends : ∀ c, back.head? = some c → isBreak c = true) (uncut : Uncut before back)
    (free : before.getLast? ≠ some '\\') (remark : Remark false pad) :
    loadText fs (before ++ (pad ++ back)) path = loadText fs (before ++ back) path :=
  loadText_remarked loaded (.insert remark (.of_head ends) uncut free)

/-- Between `-e x` and its line end, a comment that ends with a `\` changes nothing. -/
theorem comment_behind_target :
    let load := fun text => (RequirementsFile.loadText ⟨[], []⟩ text ⟨"r"⟩).value
    let target := fun name line => (⟨name, ⟨⟨"r"⟩, line⟩⟩ : Target)
    let a : RequirementsFile := { editables := [target "x" 1, target "y" 2] }
    let before := ['-', 'e', ' ', 'x']
    let pad := [' ', '\t'] ++ '#' :: ['c', '\\']
    let back := ['\r', '\n', '-', 'e', ' ', 'y']
    load (before ++ back) = .ok a ∧ load (before ++ (pad ++ back)) = .ok a := by
  intro load target a before pad back
  have first : skipTrivia (before ++ back) = before ++ back :=
    skipTrivia_of_other rfl rfl (by decide)
  have second : skipTrivia ['-', 'e', ' ', 'y'] = ['-', 'e', ' ', 'y'] :=
    skipTrivia_of_other rfl rfl (by decide)
  have script : Script.read (before ++ back) = ⟨[⟨1, .editable "x"⟩, ⟨2, .editable "y"⟩], none⟩ := by
    rw [Script.read, Script.readFrom_of_statement _ first rfl,
      Script.readFrom_of_statement _ second rfl, Script.readFrom_nil]
    rfl
  have loaded : load (before ++ back) = .ok a := by
    simp only [load]
    rw [RequirementsFile.loadText, script, Loading.ofStatements_cons, Loading.ofStatements_cons,
      Loading.ofStatements_nil]
    rfl
  have remark : Remark false pad := .comment (by simp [isGap]) (by simp) (by simp [isBreak])
  have ends : ∀ c, back.head? = some c → isBreak c = true := by
    rintro c ⟨⟩
    rfl
  have uncut : Uncut before back := fun ret => absurd ret (by simp [before])
  have same :=
    RequirementsFile.trailing_remark_irrelevant loaded ends uncut (by simp [before]) remark
  exact ⟨loaded, (congrArg Told.value same).trans loaded⟩

end PinFloor
