import PinFloor.Proofs.Text.Lines

/-! # Counting lines

The line of a place in a text is one more than the number of line ends before it. Line ends add up
when a text is cut in two, unless the cut goes through a `\r\n`.
-/

namespace PinFloor

open Scanner

variable {cs rest before after : List Char}

/-- No `\r\n` is cut in two between one text and another. -/
def Uncut (before after : List Char) : Prop :=
  before.getLast? = some '\r' → after.head? ≠ some '\n'

theorem Uncut.of_opens (opens : startsBreak (cs ++ rest) = false) (before : List Char) :
    Uncut before cs := by
  intro _ newline
  refine head_ne_newline opens ?_
  rw [List.head?_append, newline, Option.some_or]

theorem Uncut.of_startsBreak (opens : startsBreak cs = false) (before : List Char) :
    Uncut before cs :=
  fun _ newline => head_ne_newline opens newline

theorem Uncut.of_suffix (uncut : Uncut before after) (part : cs <:+ before) : Uncut cs after := by
  intro last
  obtain ⟨front, rfl⟩ := part
  refine uncut ?_
  rw [List.getLast?_append, last, Option.some_or]

theorem LineEnd.append_of_uncut (ends : LineEnd cs rest) (uncut : Uncut cs after) :
    LineEnd (cs ++ after) (rest ++ after) := by
  cases ends with
  | lf => exact .lf
  | crlf => exact .crlf
  | cr single =>
      refine .cr fun newline => ?_
      cases rest with
      | nil => exact uncut rfl newline
      | cons c rest => exact single newline

theorem lineEnds_append (uncut : Uncut before after) :
    lineEnds (before ++ after) = lineEnds before + lineEnds after := by
  induction before using text_induction with
  | nil => simp [lineEnds]
  | @char c cs plain _ ih =>
      rw [List.cons_append, lineEnds_cons plain, lineEnds_cons plain,
        ih (uncut.of_suffix (List.suffix_cons c cs))]
  | joined ends ih =>
      have inside := uncut.of_suffix (List.suffix_cons _ _)
      rw [List.cons_append, lineEnds_cons rfl, lineEnds_cons rfl, lineEnds_lineEnd ends,
        lineEnds_lineEnd (ends.append_of_uncut inside), ih (inside.of_suffix ends.suffix),
        Nat.add_right_comm]
  | lineEnd ends ih =>
      rw [lineEnds_lineEnd ends, lineEnds_lineEnd (ends.append_of_uncut uncut),
        ih (uncut.of_suffix ends.suffix), Nat.add_right_comm]

theorem lineEnds_pos_of_break {c : Char} (isEnd : isBreak c = true) (inside : c ∈ cs) :
    0 < lineEnds cs := by
  induction cs using text_induction with
  | nil => cases inside
  | @char d cs plain _ ih =>
      rw [lineEnds_cons plain]
      rcases List.mem_cons.mp inside with rfl | inside
      · rw [plain] at isEnd
        cases isEnd
      · exact ih inside
  | joined ends =>
      rw [lineEnds_cons rfl, lineEnds_lineEnd ends]
      exact Nat.succ_pos _
  | lineEnd ends =>
      rw [lineEnds_lineEnd ends]
      exact Nat.succ_pos _

theorem lineEnds_eq_zero (plain : ∀ c ∈ cs, isBreak c = false) : lineEnds cs = 0 := by
  induction cs with
  | nil => rfl
  | cons c cs ih =>
      obtain ⟨first, others⟩ := List.forall_mem_cons.mp plain
      rw [lineEnds_cons first, ih others]

theorem LineEnd.exists_break {mark : List Char} (ends : LineEnd (mark ++ rest) rest) :
    ∃ c ∈ mark, isBreak c = true := by
  cases mark with
  | nil => exact absurd ends.length_lt (Nat.lt_irrefl _)
  | cons c mark => exact ⟨c, List.mem_cons_self, ends.startsBreak⟩

namespace Position

theorem line_advance (p : Position) (cs : List Char) :
    (p.advance cs).line = p.line + lineEnds cs := by
  induction cs using text_induction generalizing p with
  | nil => rfl
  | char plain _ ih => rw [advance_cons plain, ih, lineEnds_cons plain]
  | joined ends ih =>
      rw [advance_cons rfl, advance_lineEnd ends, ih, lineEnds_cons rfl, lineEnds_lineEnd ends,
        Nat.add_right_comm, Nat.add_assoc]
  | lineEnd ends ih =>
      rw [advance_lineEnd ends, ih, lineEnds_lineEnd ends, Nat.add_right_comm, Nat.add_assoc]

/-- The line of a place is one more than the number of line ends before it. -/
theorem line_ofRest (before rest : List Char) :
    (ofRest (before ++ rest) rest).line = lineEnds before + 1 := by
  have start : (before ++ rest).take ((before ++ rest).length - rest.length) = before := by
    simp
  rw [ofRest, start, Position.after, line_advance, Nat.add_comm]
  rfl

end Position

end PinFloor
