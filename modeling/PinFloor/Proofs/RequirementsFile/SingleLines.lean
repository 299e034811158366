import PinFloor.Proofs.RequirementsFile.WrappedLines

/-! # One statement a line

Where no `\` joins two lines, each statement takes the line that it starts on and no other. So a
text says one thing on each line with something else than blanks and a comment.
-/

namespace PinFloor

open Scanner

variable {cs rest : List Char} {p : Char → Bool}

/-- The lines of a text, without their ends. -/
def linesOf : List Char → List (List Char)
  | [] => [[]]
  | '\r' :: '\n' :: rest => [] :: linesOf rest
  | '\r' :: rest => [] :: linesOf rest
  | '\n' :: rest => [] :: linesOf rest
  | c :: rest => (linesOf rest).modifyHead (c :: ·)

/-- Whether a line has more than blanks and a comment. -/
def hasCode (line : List Char) : Bool :=
  (line.dropWhile isGap).head?.any (· ≠ '#')

/-- The lines of a text that have more than blanks and a comment, counted from one. -/
def codeLines (cs : List Char) : List Nat :=
  (((linesOf cs).zipIdx 1).filter (hasCode ·.1)).map (·.2)

theorem linesOf_cons {c : Char} (plain : isBreak c = false) (cs : List Char) :
    linesOf (c :: cs) = (linesOf cs).modifyHead (c :: ·) := by
  rw [linesOf]
  · exact fun _ same => absurd same (ne_return_of_not_break plain)
  · exact ne_return_of_not_break plain
  · exact ne_newline_of_not_break plain

theorem linesOf_lineEnd (ends : LineEnd cs rest) : linesOf cs = [] :: linesOf rest := by
  cases ends with
  | lf | crlf => rfl
  | cr single =>
      rw [linesOf]
      exact fun tail same => single (same ▸ rfl)

/-- The first line of a text, and the lines of the rest. -/
theorem exists_lines (cs : List Char) : ∃ others,
    linesOf cs = cs.takeWhile (!isBreak ·) :: others ∧
      (others = linesOf (skipLine cs) ∨ others = [] ∧ skipLine cs = []) := by
  induction cs with
  | nil => exact ⟨[], rfl, .inr ⟨rfl, rfl⟩⟩
  | cons c cs ih =>
      cases isEnd : isBreak c with
      | true =>
          have starts : startsBreak (c :: cs) = true := isEnd
          obtain ⟨rest, ends⟩ := LineEnd.exists_of_startsBreak starts
          refine ⟨linesOf rest, ?_, .inl (by rw [skipLine_lineEnd ends])⟩
          rw [linesOf_lineEnd ends, List.takeWhile_cons_of_neg (by simp [isEnd])]
      | false =>
          obtain ⟨others, whole, behind⟩ := ih
          refine ⟨others, ?_, by rwa [skipLine_cons isEnd]⟩
          rw [linesOf_cons isEnd, whole, List.takeWhile_cons_of_pos (by simp [isEnd])]
          rfl

theorem codeLines_nil : codeLines [] = [] := rfl

/-- The code is on the first line, or further down. -/
theorem codeLines_eq (cs : List Char) : codeLines cs =
    (if hasCode (cs.takeWhile (!isBreak ·)) then [1] else [])
      ++ (codeLines (skipLine cs)).map (· + 1) := by
  obtain ⟨others, whole, behind⟩ := exists_lines cs
  have below : ((others.zipIdx 2).filter (hasCode ·.1)).map (·.2)
      = (codeLines (skipLine cs)).map (· + 1) := by
    rcases behind with rfl | ⟨rfl, none⟩
    · rw [codeLines, List.zipIdx_succ, List.filter_map, List.map_map, List.map_map]
      rfl
    · rw [none, codeLines_nil]
      rfl
  rw [codeLines, whole, List.zipIdx_cons, ← below, List.filter_cons]
  split <;> rfl

theorem hasCode_takeWhile (cs : List Char) :
    hasCode (cs.takeWhile (!isBreak ·))
      = ((cs.dropWhile isGap).takeWhile (!isBreak ·)).head?.any (· ≠ '#') := by
  rw [hasCode]
  induction cs with
  | nil => rfl
  | cons c cs ih =>
      cases gap : isGap c with
      | true =>
          rw [List.takeWhile_cons_of_pos (by simp [not_break_of_isGap gap]),
            List.dropWhile_cons_of_pos gap, List.dropWhile_cons_of_pos gap, ih]
      | false =>
          cases isEnd : isBreak c <;> simp [isEnd, gap]

namespace Scanner

/-! ## What is left of a line -/

theorem skipLine_dropWhile (stops : StopsAtBreak p) (cs : List Char) :
    skipLine (cs.dropWhile p) = skipLine cs := by
  induction cs with
  | nil => rfl
  | cons c cs ih =>
      by_cases inside : p c = true
      · have plain : isBreak c = false := by
          refine Bool.eq_false_iff.mpr fun isEnd => ?_
          rw [stops c isEnd] at inside
          cases inside
        rw [List.dropWhile_cons_of_pos inside, skipLine_cons plain, ih]
      · rw [List.dropWhile_cons_of_neg inside]

theorem skipGap_eq_dropWhile (single : '\\' ∉ cs) : skipGap cs = cs.dropWhile isGap := by
  induction cs with
  | nil => rfl
  | cons c cs ih =>
      cases gap : isGap c with
      | true =>
          rw [skipGap_gap gap, ih (List.not_mem_of_not_mem_cons single),
            List.dropWhile_cons_of_pos gap]
      | false =>
          rw [List.dropWhile_cons_of_neg (by simp [gap])]
          refine skipGap_plain gap ?_
          rintro rfl
          exact absurd List.mem_cons_self single

theorem skipLine_skipGap (single : '\\' ∉ cs) : skipLine (skipGap cs) = skipLine cs := by
  rw [skipGap_eq_dropWhile single, skipLine_dropWhile stopsAtBreak_isGap]

theorem left_of_endLine {u : Unit} (scanned : endLine cs = .ok (u, rest)) : rest = skipLine cs := by
  have same := skipLine_dropWhile stopsAtBreak_isGap cs
  generalize start : cs.dropWhile isGap = after at same
  rw [← same]
  cases after with
  | nil =>
      rw [endLine_of_nil start] at scanned
      cases scanned
      rfl
  | cons c after =>
      cases isEnd : isBreak c with
      | true =>
          have starts : startsBreak (c :: after) = true := isEnd
          obtain ⟨next, ends⟩ := LineEnd.exists_of_startsBreak starts
          rw [endLine_of_lineEnd start ends] at scanned
          cases scanned
          exact (skipLine_lineEnd ends).symm
      | false =>
          by_cases comment : c = '#'
          · subst comment
            rw [endLine_of_comment start] at scanned
            cases scanned
            exact (skipLine_cons rfl after).symm
          · rw [endLine_of_other start isEnd comment] at scanned
            cases scanned

theorem skipLine_of_value {text : String} (stops : StopsAtBreak p)
    (scanned : value p cs = .ok (text, rest)) : skipLine rest = skipLine cs := by
  rw [value.eq_def] at scanned
  split at scanned
  · rw [rest_of_finishValue scanned, skipLine_dropWhile stops, skipLine_cons rfl]
  · rw [rest_of_finishValue scanned, skipLine_dropWhile stops, skipLine_dropWhile stopsAtBreak_isGap]
  · rw [rest_of_finishValue scanned, skipLine_dropWhile stops, skipLine_dropWhile stopsAtBreak_isGap]
  · cases scanned

theorem left_of_lineValue {text : String} (stops : StopsAtBreak p)
    (scanned : lineValue p cs = .ok (text, rest)) : rest = skipLine cs := by
  rw [lineValue] at scanned
  split at scanned
  · cases scanned
  · next after valued =>
      obtain ⟨⟨_, next⟩, ended, same⟩ := exists_of_map_eq_ok scanned
      cases same
      rw [left_of_endLine ended, skipLine_of_value stops valued]

theorem skipLine_of_moreHashes {cs rest : List Char} {found : List String} (single : '\\' ∉ cs)
    (scanned : moreHashes cs = .ok (found, rest)) : skipLine rest = skipLine cs := by
  cases word : hashWord.isPrefixOf (skipGap cs) with
  | false =>
      rw [moreHashes_of_none word] at scanned
      cases scanned
      exact skipLine_skipGap single
  | true =>
      rw [moreHashes_of_hash word] at scanned
      split at scanned
      · cases scanned
      · next hash after valued =>
          have shorter := length_lt_of_hash word valued
          obtain ⟨⟨others, last⟩, more, same⟩ := exists_of_map_eq_ok scanned
          cases same
          obtain ⟨tail, start⟩ := List.isPrefixOf_iff_prefix.mp word
          have part : after <:+ cs := (suffix_of_value valued).trans
            ((List.drop_suffix _ _).trans (skipGap_suffix cs))
          have behind : skipLine ((skipGap cs).drop hashWord.length) = skipLine (skipGap cs) := by
            rw [← start, List.drop_left]
            rfl
          rw [skipLine_of_moreHashes (fun inside => single (part.subset inside)) more,
            skipLine_of_value stopsAtBreak_notBlank valued, behind, skipLine_skipGap single]
termination_by cs.length

theorem left_of_hashes {found : List String} (single : '\\' ∉ cs)
    (scanned : hashes cs = .ok (found, rest)) : rest = skipLine cs := by
  rw [hashes] at scanned
  split at scanned
  · cases scanned
  · split at scanned
    · cases scanned
    · next more =>
        obtain ⟨⟨_, next⟩, ended, same⟩ := exists_of_map_eq_ok scanned
        cases same
        rw [left_of_endLine ended, skipLine_of_moreHashes single more]

theorem skipLine_splitStatement (single : '\\' ∉ cs) :
    ((splitStatement cs).2.1 = .line → (splitStatement cs).2.2 = skipLine cs) ∧
      ((splitStatement cs).2.1 = .options → skipLine (splitStatement cs).2.2 = skipLine cs) := by
  induction cs using splitStatement_induction with
  | nil =>
      rw [splitStatement_nil]
      exact ⟨fun _ => rfl, nofun⟩
  | lineEnd ends =>
      rw [splitStatement_lineEnd ends]
      exact ⟨fun _ => (skipLine_lineEnd ends).symm, nofun⟩
  | @plain c cs plain none ih =>
      rw [splitStatement_plain plain none, skipLine_cons plain]
      exact ih (List.not_mem_of_not_mem_cons single)
  | @gap cs gap ih =>
      have inside := ih fun inside => single ((skipGap_suffix cs).subset inside)
      rw [skipLine_skipGap single] at inside
      rw [splitStatement_gap gap]
      split
      · exact ⟨nofun, fun _ => skipLine_skipGap single⟩
      · split
        · exact ⟨fun _ => skipLine_skipGap single, nofun⟩
        · exact inside

theorem left_of_trailingHashes {found : List String} (single : '\\' ∉ cs)
    (scanned : trailingHashes (splitStatement cs).2.1 (splitStatement cs).2.2 = .ok (found, rest)) :
    rest = skipLine cs := by
  obtain ⟨line, options⟩ := skipLine_splitStatement single
  obtain ⟨⟨between, whole⟩, -⟩ := splitStatement_parts cs
  cases ending : (splitStatement cs).2.1 with
  | line =>
      rw [ending] at scanned
      cases scanned
      exact line ending
  | options =>
      rw [ending] at scanned
      have part : (splitStatement cs).2.2 <:+ cs := ⟨_, whole.symm⟩
      rw [left_of_hashes (fun inside => single (part.subset inside)) scanned, options ending]

theorem left_of_option {st : Statement} (scanned : option cs = .ok (st, rest)) :
    rest = skipLine cs := by
  have stops : StopsAtBreak fun c => !isBlank c && c ≠ '=' :=
    .of_blank fun c blank => by simp [blank]
  rw [← skipLine_dropWhile stops cs]
  simp only [option] at scanned
  split at scanned
  case h_7 =>
    split at scanned
    · obtain ⟨⟨_, next⟩, valued, same⟩ := exists_of_map_eq_ok scanned
      cases same
      exact left_of_lineValue stopsAtBreak_notBlank valued
    · obtain ⟨⟨_, next⟩, ended, same⟩ := exists_of_map_eq_ok scanned
      cases same
      exact left_of_endLine ended
    · cases scanned
  case h_5 | h_6 =>
    obtain ⟨⟨_, next⟩, valued, same⟩ := exists_of_map_eq_ok scanned
    cases same
    exact left_of_lineValue stopsAtBreak_notBlank valued
  all_goals
    obtain ⟨⟨_, next⟩, valued, same⟩ := exists_of_map_eq_ok scanned
    cases same
    exact left_of_lineValue stopsAtBreak_inFileName valued

/-- A statement ends with its line. -/
theorem left_of_statement? {st : Statement} (single : '\\' ∉ cs)
    (scanned : statement? cs = some (.ok (st, rest))) : rest = skipLine cs := by
  cases cs with
  | nil => cases scanned
  | cons c cs =>
      rw [statement?] at scanned
      split at scanned
      · exact left_of_option (Option.some.inj scanned)
      · split at scanned
        · have scanned := Option.some.inj scanned
          rw [unnamed_eq] at scanned
          obtain ⟨⟨found, next⟩, trailing, same⟩ := exists_of_map_eq_ok scanned
          cases same
          exact left_of_trailingHashes single trailing
        · split at scanned
          · have scanned := Option.some.inj scanned
            rw [requirement_eq] at scanned
            split at scanned
            · cases scanned
            · obtain ⟨⟨found, next⟩, trailing, same⟩ := exists_of_map_eq_ok scanned
              cases same
              exact left_of_trailingHashes single trailing
          · cases scanned

end Scanner

/-! ## The lines of the statements -/

namespace Script

theorem lineEnds_of_skipLine {u : List Char} (whole : u ++ skipLine cs = cs)
    (some : skipLine cs ≠ []) : lineEnds u = 1 := by
  induction cs generalizing u with
  | nil => exact absurd rfl some
  | cons c cs ih =>
      cases isEnd : isBreak c with
      | true =>
          have starts : startsBreak (c :: cs) = true := isEnd
          obtain ⟨rest, ends⟩ := LineEnd.exists_of_startsBreak starts
          rw [skipLine_lineEnd ends] at whole
          obtain ⟨mark, same, before⟩ := ends.exists_mark
          obtain rfl : u = mark := List.append_cancel_right (whole.trans same)
          have alone := before [] nofun
          rw [List.append_nil] at alone
          exact lineEnds_lineEnd alone
      | false =>
          rw [skipLine_cons isEnd] at whole some
          cases u with
          | nil =>
              have shorter := length_skipLine_le cs
              rw [List.nil_append] at whole
              rw [whole, List.length_cons] at shorter
              exact absurd shorter (Nat.not_succ_le_self _)
          | cons d u =>
              obtain ⟨rfl, inside⟩ := List.cons.inj whole
              rw [lineEnds_cons isEnd, ih inside some]

/-- What is read behind the first line is what is read from the other lines, one line further down. -/
theorem readFrom_skipLine (cs : List Char) :
    readFrom cs (skipLine cs) = (read (skipLine cs)).down 1 := by
  have line := endsAtLine_skipLine cs
  obtain ⟨u, whole⟩ := line.suffix
  by_cases nothing : skipLine cs = []
  · rw [nothing, readFrom_nil, read, readFrom_nil]
    rfl
  · have line : EndsAtLine (u ++ skipLine cs) (skipLine cs) := whole.symm ▸ line
    have behind := readFrom_of_endsAtLine line []
    rwa [List.nil_append, List.nil_append, whole, lineEnds_of_skipLine whole nothing] at behind

/-- A line without code is skipped. -/
theorem read_of_bare (single : '\\' ∉ cs)
    (bare : hasCode (cs.takeWhile (!isBreak ·)) = false) : read cs = (read (skipLine cs)).down 1 := by
  have start := skipGap_eq_dropWhile single
  have behind := skipLine_skipGap single
  rw [hasCode_takeWhile, ← start] at bare
  rw [← readFrom_skipLine]
  refine readFrom_congr ?_
  cases after : skipGap cs with
  | nil =>
      rw [after] at behind
      rw [skipTrivia_of_nil after, ← behind]
      exact (skipTrivia_of_nil rfl).symm
  | cons c tail =>
      rw [after] at bare behind
      cases isEnd : isBreak c with
      | true =>
          have starts : startsBreak (c :: tail) = true := isEnd
          obtain ⟨rest, ends⟩ := LineEnd.exists_of_startsBreak starts
          rw [skipTrivia_of_lineEnd after ends, ← behind, skipLine_lineEnd ends]
      | false =>
          obtain rfl : c = '#' := by simpa [isEnd] using bare
          rw [skipTrivia_of_comment after, ← behind, skipLine_cons rfl]

/-- A line with code is a statement. -/
theorem exists_read_of_code (single : '\\' ∉ cs) (faultless : (read cs).fault? = none)
    (code : hasCode (cs.takeWhile (!isBreak ·)) = true) :
    ∃ st, read cs = ((read (skipLine cs)).down 1).cons ⟨1, st⟩ := by
  have start := skipGap_eq_dropWhile single
  have blanks : cs.takeWhile isGap ++ skipGap cs = cs := by
    rw [start, List.takeWhile_append_dropWhile]
  have above : lineEnds (cs.takeWhile isGap) = 0 := lineEnds_eq_zero fun c inside =>
    not_break_of_isGap (List.mem_takeWhile_imp inside)
  have line := Position.line_ofRest (cs.takeWhile isGap) (skipGap cs)
  rw [blanks, above] at line
  rw [hasCode_takeWhile, ← start] at code
  cases after : skipGap cs with
  | nil => simp [after] at code
  | cons c tail =>
      rw [after] at code line blanks
      obtain ⟨plain, other⟩ : isBreak c = false ∧ c ≠ '#' := by
        cases isEnd : isBreak c with
        | true => simp [isEnd] at code
        | false => simpa [isEnd] using code
      have trivia := skipTrivia_of_other after plain other
      cases scanned : statement? (c :: tail) with
      | none => cases statement?_eq_none scanned
      | some result =>
          cases result with
          | error refusal =>
              rw [read, readFrom_of_error (trivia.symm ▸ scanned)] at faultless
              cases faultless
          | ok result =>
              obtain ⟨st, rest⟩ := result
              have tailless : '\\' ∉ c :: tail := fun inside =>
                single (blanks ▸ List.mem_append_right _ inside)
              have left := left_of_statement? tailless scanned
              rw [← after, skipLine_skipGap single] at left
              refine ⟨st, ?_⟩
              rw [read, readFrom_of_ok (trivia.symm ▸ scanned), trivia, line, left,
                readFrom_skipLine]

theorem lines_down (n : Nat) (script : Script) : (script.down n).statements.map (·.line)
    = (script.statements.map (·.line)).map (· + n) := by
  simp [down, PlacedStatement.down, Function.comp_def]

/-- A text without `\` that can be read has a statement on each line with code, and no others. -/
theorem lines_eq_codeLines {cs : List Char} (faultless : (read cs).fault? = none)
    (single : '\\' ∉ cs) : (read cs).statements.map (·.line) = codeLines cs := by
  by_cases some : cs = []
  · subst some
    rw [read, readFrom_nil]
    rfl
  have line := endsAtLine_skipLine cs
  have shorter := line.length_lt some
  have single' : '\\' ∉ skipLine cs := fun inside => single (line.suffix.subset inside)
  rw [codeLines_eq]
  cases code : hasCode (cs.takeWhile (!isBreak ·)) with
  | false =>
      rw [read_of_bare single code] at faultless ⊢
      rw [lines_down, lines_eq_codeLines (Option.map_eq_none_iff.mp faultless) single']
      rfl
  | true =>
      obtain ⟨st, whole⟩ := exists_read_of_code single faultless code
      rw [whole] at faultless ⊢
      have below := lines_eq_codeLines (Option.map_eq_none_iff.mp faultless) single'
      rw [← below, ← lines_down]
      rfl
termination_by cs.length

end Script

end PinFloor
