import PinFloor.Proofs.RequirementsFile.Scripts
import PinFloor.Proofs.Text.LineCounts

/-! # Statements take whole lines

A statement is read up to the end of a line, or of the text. So the statements of a file stand on
different lines, further and further down.
-/

namespace PinFloor

open Scanner

variable {cs ds rest : List Char}

/-- A text is read up to the end of one of its lines, or to its own end. -/
def EndsAtLine (cs rest : List Char) : Prop :=
  rest = [] ∨ ∃ part, part <:+ cs ∧ LineEnd part rest

theorem EndsAtLine.of_suffix (ends : EndsAtLine cs rest) (part : cs <:+ ds) :
    EndsAtLine ds rest := by
  rcases ends with rfl | ⟨last, inside, ends⟩
  · exact .inl rfl
  · exact .inr ⟨last, inside.trans part, ends⟩

theorem EndsAtLine.suffix (ends : EndsAtLine cs rest) : rest <:+ cs := by
  rcases ends with rfl | ⟨last, inside, ends⟩
  · exact List.nil_suffix
  · exact ends.suffix.trans inside

theorem EndsAtLine.length_lt (ends : EndsAtLine cs rest) (some : cs ≠ []) :
    rest.length < cs.length := by
  rcases ends with rfl | ⟨last, inside, ends⟩
  · exact List.length_pos_iff.mpr some
  · exact Nat.lt_of_lt_of_le ends.length_lt inside.length_le

namespace Scanner

variable {p : Char → Bool} {α β : Type}

theorem skipGap_suffix (cs : List Char) : skipGap cs <:+ cs := by
  induction cs using text_induction with
  | nil => exact List.suffix_rfl
  | @char c cs plain single ih =>
      cases gap : isGap c with
      | true =>
          rw [skipGap_gap gap]
          exact ih.trans (List.suffix_cons c cs)
      | false => exact (skipGap_plain gap single).symm ▸ List.suffix_rfl
  | joined ends ih =>
      rw [skipGap_joined ends]
      exact ih.trans (ends.suffix.trans (List.suffix_cons _ _))
  | lineEnd ends => exact (skipGap_lineEnd ends).symm ▸ List.suffix_rfl

theorem endsAtLine_skipLine (cs : List Char) : EndsAtLine cs (skipLine cs) := by
  have part : cs.dropWhile (!isBreak ·) <:+ cs := List.dropWhile_suffix _
  rw [skipLine]
  generalize after : cs.dropWhile (!isBreak ·) = last at part
  cases last with
  | nil => exact .inl rfl
  | cons c last =>
      have starts : startsBreak (c :: last) = true := by
        have stopped := List.head?_dropWhile_not (!isBreak ·) cs
        simpa [after] using stopped
      obtain ⟨rest, ends⟩ := LineEnd.exists_of_startsBreak starts
      rw [skipBreak_lineEnd ends]
      exact .inr ⟨_, part, ends⟩

theorem endsAtLine_of_endLine {u : Unit} (scanned : endLine cs = .ok (u, rest)) :
    EndsAtLine cs rest := by
  have part : cs.dropWhile isGap <:+ cs := List.dropWhile_suffix _
  generalize start : cs.dropWhile isGap = after at part
  cases after with
  | nil =>
      rw [endLine_of_nil start] at scanned
      cases scanned
      exact .inl rfl
  | cons c after =>
      cases isEnd : isBreak c with
      | true =>
          have starts : startsBreak (c :: after) = true := isEnd
          obtain ⟨next, ends⟩ := LineEnd.exists_of_startsBreak starts
          rw [endLine_of_lineEnd start ends] at scanned
          cases scanned
          exact .inr ⟨_, part, ends⟩
      | false =>
          by_cases comment : c = '#'
          · subst comment
            rw [endLine_of_comment start] at scanned
            cases scanned
            exact (endsAtLine_skipLine after).of_suffix ((List.suffix_cons _ _).trans part)
          · rw [endLine_of_other start isEnd comment] at scanned
            cases scanned

theorem suffix_of_value {text : String} (scanned : value p cs = .ok (text, rest)) :
    rest <:+ cs := by
  rw [value.eq_def] at scanned
  split at scanned
  · rw [rest_of_finishValue scanned]
    exact (List.dropWhile_suffix _).trans (List.suffix_cons _ _)
  · rw [rest_of_finishValue scanned]
    exact (List.dropWhile_suffix _).trans (List.dropWhile_suffix _)
  · rw [rest_of_finishValue scanned]
    exact (List.dropWhile_suffix _).trans (List.dropWhile_suffix _)
  · cases scanned

theorem endsAtLine_of_lineValue {text : String} (scanned : lineValue p cs = .ok (text, rest)) :
    EndsAtLine cs rest := by
  rw [lineValue] at scanned
  split at scanned
  · cases scanned
  · next after valued =>
      obtain ⟨⟨_, next⟩, ended, same⟩ := exists_of_map_eq_ok scanned
      cases same
      exact (endsAtLine_of_endLine ended).of_suffix (suffix_of_value valued)

theorem suffix_of_moreHashes {cs rest : List Char} {found : List String}
    (scanned : moreHashes cs = .ok (found, rest)) : rest <:+ cs := by
  cases word : hashWord.isPrefixOf (skipGap cs) with
  | false =>
      rw [moreHashes_of_none word] at scanned
      cases scanned
      exact skipGap_suffix cs
  | true =>
      rw [moreHashes_of_hash word] at scanned
      split at scanned
      · cases scanned
      · next hash after valued =>
          have shorter := length_lt_of_hash word valued
          obtain ⟨⟨others, last⟩, more, same⟩ := exists_of_map_eq_ok scanned
          cases same
          exact (suffix_of_moreHashes more).trans ((suffix_of_value valued).trans
            ((List.drop_suffix _ _).trans (skipGap_suffix cs)))
termination_by cs.length

theorem endsAtLine_of_hashes {found : List String} (scanned : hashes cs = .ok (found, rest)) :
    EndsAtLine cs rest := by
  rw [hashes] at scanned
  split at scanned
  · cases scanned
  · split at scanned
    · cases scanned
    · next more =>
        obtain ⟨⟨_, next⟩, ended, same⟩ := exists_of_map_eq_ok scanned
        cases same
        exact (endsAtLine_of_endLine ended).of_suffix (suffix_of_moreHashes more)

/-- Induction along the way in which a statement is split off: over characters of its text, and over
    gaps. -/
@[elab_as_elim] theorem splitStatement_induction {motive : List Char → Prop} (cs : List Char)
    (nil : motive [])
    (lineEnd : ∀ {cs rest}, LineEnd cs rest → motive cs)
    (plain : ∀ {c cs}, isBreak c = false → afterGap? (c :: cs) = none → motive cs →
      motive (c :: cs))
    (gap : ∀ {cs}, afterGap? cs = some (skipGap cs) → motive (skipGap cs) → motive cs) :
    motive cs := by
  match cs with
  | [] => exact nil
  | c :: cs =>
      cases isEnd : isBreak c with
      | true =>
          have starts : startsBreak (c :: cs) = true := isEnd
          obtain ⟨rest, ends⟩ := LineEnd.exists_of_startsBreak starts
          exact lineEnd ends
      | false =>
          by_cases shorter : (skipGap (c :: cs)).length < (c :: cs).length
          · exact gap (afterGap?_of_lt shorter)
              (splitStatement_induction (skipGap (c :: cs)) nil lineEnd plain gap)
          · have none : afterGap? (c :: cs) = none := if_neg shorter
            exact plain isEnd none (splitStatement_induction cs nil lineEnd plain gap)
termination_by cs.length
decreasing_by
  · exact shorter
  · exact Nat.lt_succ_self cs.length

theorem gapOf_append_skipGap (cs : List Char) : gapOf cs ++ skipGap cs = cs := by
  obtain ⟨before, whole⟩ := skipGap_suffix cs
  have length : cs.length - (skipGap cs).length = before.length := by
    rw [← whole, List.length_append, whole]
    exact Nat.add_sub_cancel _ _
  have start : before = cs.take before.length := List.prefix_iff_eq_take.mp ⟨_, whole⟩
  rw [gapOf, length, ← start, whole]

/-- The text of a statement stands at the start. What is left begins behind it: at the end of the
    line, if no options follow. -/
theorem splitStatement_parts (cs : List Char) :
    (∃ between, cs = (splitStatement cs).1 ++ between ++ (splitStatement cs).2.2) ∧
      ((splitStatement cs).2.1 = .line → EndsAtLine cs (splitStatement cs).2.2) := by
  induction cs using splitStatement_induction with
  | nil =>
      rw [splitStatement_nil]
      exact ⟨⟨[], rfl⟩, fun _ => .inl rfl⟩
  | lineEnd ends =>
      rw [splitStatement_lineEnd ends]
      obtain ⟨mark, whole, -⟩ := ends.exists_mark
      exact ⟨⟨mark, whole⟩, fun _ => .inr ⟨_, List.suffix_rfl, ends⟩⟩
  | @plain c cs plain none ih =>
      rw [splitStatement_plain plain none]
      obtain ⟨⟨between, whole⟩, line⟩ := ih
      exact ⟨⟨between, congrArg (c :: ·) whole⟩,
        fun ending => (line ending).of_suffix (List.suffix_cons c cs)⟩
  | @gap cs gap ih =>
      rw [splitStatement_gap gap]
      obtain ⟨⟨between, whole⟩, line⟩ := ih
      split
      · exact ⟨⟨gapOf cs, (gapOf_append_skipGap cs).symm⟩, nofun⟩
      · split
        · have ends := (endsAtLine_skipLine (skipGap cs)).of_suffix (skipGap_suffix cs)
          obtain ⟨before, whole⟩ := ends.suffix
          exact ⟨⟨before, whole.symm⟩, fun _ => ends⟩
        · refine ⟨⟨between, ?_⟩, fun ending => (line ending).of_suffix (skipGap_suffix cs)⟩
          calc
            cs = gapOf cs ++ skipGap cs := (gapOf_append_skipGap cs).symm
            _ = gapOf cs ++ ((splitStatement (skipGap cs)).1 ++ between
                ++ (splitStatement (skipGap cs)).2.2) := congrArg (gapOf cs ++ ·) whole
            _ = _ := by simp only [List.append_assoc]

theorem endsAtLine_of_trailingHashes {found : List String}
    (scanned : trailingHashes (splitStatement cs).2.1 (splitStatement cs).2.2 = .ok (found, rest)) :
    EndsAtLine cs rest := by
  obtain ⟨⟨between, whole⟩, line⟩ := splitStatement_parts cs
  cases ending : (splitStatement cs).2.1 with
  | line =>
      rw [ending] at scanned
      cases scanned
      exact line ending
  | options =>
      rw [ending] at scanned
      exact (endsAtLine_of_hashes scanned).of_suffix ⟨_, whole.symm⟩

theorem endsAtLine_of_requirement {statement : Statement}
    (scanned : requirement cs = .ok (statement, rest)) : EndsAtLine cs rest := by
  rw [requirement_eq] at scanned
  split at scanned
  · cases scanned
  · obtain ⟨⟨found, next⟩, trailing, same⟩ := exists_of_map_eq_ok scanned
    cases same
    exact endsAtLine_of_trailingHashes trailing

theorem endsAtLine_of_unnamed {statement : Statement}
    (scanned : unnamed cs = .ok (statement, rest)) : EndsAtLine cs rest := by
  rw [unnamed_eq] at scanned
  obtain ⟨⟨found, next⟩, trailing, same⟩ := exists_of_map_eq_ok scanned
  cases same
  exact endsAtLine_of_trailingHashes trailing

theorem endsAtLine_of_option {statement : Statement}
    (scanned : option cs = .ok (statement, rest)) : EndsAtLine cs rest := by
  have part : cs.dropWhile (fun c : Char => !isBlank c && c ≠ '=') <:+ cs :=
    List.dropWhile_suffix _
  simp only [option] at scanned
  split at scanned
  case h_7 =>
    split at scanned
    · obtain ⟨⟨_, next⟩, valued, same⟩ := exists_of_map_eq_ok scanned
      cases same
      exact (endsAtLine_of_lineValue valued).of_suffix part
    · obtain ⟨⟨_, next⟩, ended, same⟩ := exists_of_map_eq_ok scanned
      cases same
      exact (endsAtLine_of_endLine ended).of_suffix part
    · cases scanned
  all_goals
    obtain ⟨⟨_, next⟩, valued, same⟩ := exists_of_map_eq_ok scanned
    cases same
    exact (endsAtLine_of_lineValue valued).of_suffix part

/-- A statement ends where a line does. -/
theorem endsAtLine_of_statement? {statement : Statement}
    (scanned : statement? cs = some (.ok (statement, rest))) : EndsAtLine cs rest := by
  cases cs with
  | nil => cases scanned
  | cons c cs =>
      rw [statement?] at scanned
      split at scanned
      · exact endsAtLine_of_option (Option.some.inj scanned)
      · split at scanned
        · exact endsAtLine_of_unnamed (Option.some.inj scanned)
        · split at scanned
          · exact endsAtLine_of_requirement (Option.some.inj scanned)
          · cases scanned

theorem skipTrivia_suffix (cs : List Char) : skipTrivia cs <:+ cs := by
  have start := skipGap_suffix cs
  fun_induction skipTrivia cs with
  | case1 cs rest gap ih =>
      rw [gap] at start
      exact (ih (skipGap_suffix _)).trans
        ((endsAtLine_skipLine rest).suffix.trans ((List.suffix_cons _ _).trans start))
  | case2 cs rest gap ih | case4 cs rest _ gap ih =>
      rw [gap] at start
      exact (ih (skipGap_suffix _)).trans ((List.suffix_cons _ _).trans start)
  | case3 cs rest gap ih =>
      rw [gap] at start
      exact (ih (skipGap_suffix _)).trans
        ((List.suffix_cons _ _).trans ((List.suffix_cons _ _).trans start))
  | case5 cs => exact start

end Scanner

/-! ## The lines of the statements -/

namespace Script

variable {content : List Char} {s : PlacedStatement}

/-- Each statement of a script is read at a tail of the text, and has the line of this tail. -/
theorem exists_start (member : s ∈ (readFrom content cs).statements) :
    ∃ start rest, start <:+ cs ∧ statement? start = some (.ok (s.statement, rest)) ∧
      startsBreak start = false ∧ s.line = (Position.ofRest content start).line := by
  fun_induction readFrom content cs with
  | case1 | case2 => cases member
  | case3 cs start statement rest scanned ih =>
      have here : start <:+ cs := skipTrivia_suffix cs
      rcases List.mem_cons.mp member with rfl | member
      · exact ⟨start, rest, here, scanned, startsBreak_skipTrivia cs, rfl⟩
      · obtain ⟨later, left, part, found⟩ := ih member
        exact ⟨later, left, part.trans ((endsAtLine_of_statement? scanned).suffix.trans here), found⟩

/-- What is read after a statement stands further down. -/
theorem line_lt_of_later {start rest : List Char} {statement : Statement}
    (part : start <:+ content) (scanned : statement? start = some (.ok (statement, rest)))
    (opens : startsBreak start = false) (member : s ∈ (readFrom content rest).statements) :
    (Position.ofRest content start).line < s.line := by
  obtain ⟨later, _, behind, found, -, line⟩ := exists_start member
  obtain ⟨before, rfl⟩ := part
  obtain ⟨between, rfl⟩ := behind
  rcases endsAtLine_of_statement? scanned with nothing | ⟨last, inside, ends⟩
  · rw [(List.append_eq_nil_iff.mp nothing).2] at found
    cases found
  · obtain ⟨read, rfl⟩ := inside
    obtain ⟨mark, same, -⟩ := ends.exists_mark
    subst same
    obtain ⟨c, inside, isEnd⟩ := ends.exists_break
    have positive : 0 < lineEnds (read ++ mark ++ between) :=
      lineEnds_pos_of_break isEnd (by simp [inside])
    have cut : Uncut before (read ++ mark ++ between) := by
      refine .of_opens (?_ : startsBreak (_ ++ later) = false) before
      simpa only [List.append_assoc] using opens
    have whole : before ++ (read ++ (mark ++ (between ++ later)))
        = before ++ (read ++ mark ++ between) ++ later := by
      simp only [List.append_assoc]
    rw [line, Position.line_ofRest, whole, Position.line_ofRest, lineEnds_append cut]
    omega

/-- The statements of a script stand on lines that go down. -/
theorem pairwise_lines (part : cs <:+ content) :
    (readFrom content cs).statements.Pairwise (·.line < ·.line) := by
  fun_induction readFrom content cs with
  | case1 | case2 => exact .nil
  | case3 cs start statement rest scanned ih =>
      have here : start <:+ content := (skipTrivia_suffix cs).trans part
      refine .cons (fun s member => ?_) (ih ((endsAtLine_of_statement? scanned).suffix.trans here))
      exact line_lt_of_later here scanned (startsBreak_skipTrivia cs) member

end Script

end PinFloor
