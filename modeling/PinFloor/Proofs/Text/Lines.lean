import PinFloor.RequirementsFile.Scanner

/-! # Line ends and the places between them

Reading a text leads from place to place. A place is known by the tail of the text that is left and
by its position; a `\r\n` is never cut in two. One step over a character moves a column on, one over
a line end moves to the start of the next line.
-/

namespace PinFloor

open Scanner

/-- The text starts with a line end, which leaves `rest`. -/
inductive LineEnd : List Char → List Char → Prop where
  | lf {rest : List Char} : LineEnd ('\n' :: rest) rest
  | crlf {rest : List Char} : LineEnd ('\r' :: '\n' :: rest) rest
  /-- A `\r` before a `\n` is only the first half of a line end. -/
  | cr {rest : List Char} : rest.head? ≠ some '\n' → LineEnd ('\r' :: rest) rest

/-- Whether a text starts with a line end. -/
def startsBreak (cs : List Char) : Bool :=
  cs.head?.any isBreak

@[simp] theorem startsBreak_cons (c : Char) (cs : List Char) :
    startsBreak (c :: cs) = isBreak c :=
  rfl

theorem ne_newline_of_not_break {c : Char} (plain : isBreak c = false) : c ≠ '\n' := by
  rintro rfl
  cases plain

theorem ne_return_of_not_break {c : Char} (plain : isBreak c = false) : c ≠ '\r' := by
  rintro rfl
  cases plain

theorem break_cases {c : Char} (isEnd : isBreak c = true) : c = '\n' ∨ c = '\r' := by
  simpa [isBreak] using isEnd

theorem head_ne_newline {cs : List Char} (open_ : startsBreak cs = false) :
    cs.head? ≠ some '\n' := by
  cases cs with
  | nil => simp
  | cons c cs =>
      rw [List.head?_cons]
      exact fun same => ne_newline_of_not_break open_ (Option.some.inj same)

namespace LineEnd

variable {cs rest : List Char}

theorem startsBreak (ends : LineEnd cs rest) : startsBreak cs = true := by
  cases ends <;> rfl

theorem exists_of_startsBreak (starts : PinFloor.startsBreak cs = true) :
    ∃ rest, LineEnd cs rest := by
  match cs, starts with
  | c :: cs, starts =>
      rcases break_cases starts with rfl | rfl
      · exact ⟨cs, .lf⟩
      · by_cases newline : cs.head? = some '\n'
        · obtain ⟨tail, rfl⟩ := List.head?_eq_some_iff.mp newline
          exact ⟨tail, .crlf⟩
        · exact ⟨cs, .cr newline⟩

/-- A line end stays one whatever follows it, unless what follows completes a `\r\n`. -/
theorem exists_mark (ends : LineEnd cs rest) : ∃ mark, cs = mark ++ rest ∧
    ∀ text, (text.head? = some '\n' → rest.head? = some '\n') → LineEnd (mark ++ text) text := by
  cases ends with
  | lf => exact ⟨['\n'], rfl, fun _ _ => .lf⟩
  | crlf => exact ⟨['\r', '\n'], rfl, fun _ _ => .crlf⟩
  | cr single =>
      exact ⟨['\r'], rfl, fun _ completes => .cr fun newline => single (completes newline)⟩

theorem suffix (ends : LineEnd cs rest) : rest <:+ cs := by
  obtain ⟨mark, rfl, -⟩ := ends.exists_mark
  exact List.suffix_append mark rest

theorem length_lt (ends : LineEnd cs rest) : rest.length < cs.length := by
  cases ends <;> simp only [List.length_cons] <;> omega

/-- A `\n` at the end of the text either is in what is left or ends the first line. -/
theorem newline_rest (ends : LineEnd cs rest) (newline : ['\n'] <:+ cs) :
    rest = [] ∧ (cs = ['\n'] ∨ cs = ['\r', '\n']) ∨ ['\n'] <:+ rest := by
  cases ends with
  | lf | crlf => simpa [List.suffix_cons_iff, eq_comm] using newline
  | cr => exact .inr (by simpa [List.suffix_cons_iff] using newline)

/-- A line end stays one before any text, if a `\n` comes last. -/
theorem append (ends : LineEnd cs rest) (newline : ['\n'] <:+ cs) (more : List Char) :
    LineEnd (cs ++ more) (rest ++ more) := by
  cases ends with
  | lf => exact .lf
  | crlf => exact .crlf
  | cr single =>
      refine .cr fun starts => single ?_
      cases rest with
      | nil => simp [List.suffix_cons_iff] at newline
      | cons c rest => exact starts

end LineEnd

/-- Induction along the characters, the joined line ends and the other line ends of a text. -/
@[elab_as_elim] theorem text_induction {motive : List Char → Prop} (cs : List Char)
    (nil : motive [])
    (char : ∀ {c cs}, isBreak c = false → (c = '\\' → startsBreak cs = false) → motive cs →
      motive (c :: cs))
    (joined : ∀ {cs rest}, LineEnd cs rest → motive rest → motive ('\\' :: cs))
    (lineEnd : ∀ {cs rest}, LineEnd cs rest → motive rest → motive cs) : motive cs := by
  match cs with
  | [] => exact nil
  | c :: cs =>
      cases plain : isBreak c with
      | true =>
          have starts : startsBreak (c :: cs) = true := plain
          obtain ⟨rest, ends⟩ := LineEnd.exists_of_startsBreak starts
          have shorter := ends.length_lt
          exact lineEnd ends (text_induction rest nil char joined lineEnd)
      | false =>
          by_cases joins : c = '\\' ∧ startsBreak cs = true
          · obtain ⟨rfl, starts⟩ := joins
            obtain ⟨rest, ends⟩ := LineEnd.exists_of_startsBreak starts
            have shorter := Nat.lt_succ_of_lt ends.length_lt
            exact joined ends (text_induction rest nil char joined lineEnd)
          · have single : c = '\\' → startsBreak cs = false := by simpa using joins
            exact char plain single (text_induction cs nil char joined lineEnd)
termination_by cs.length
decreasing_by
  · exact shorter
  · exact Nat.lt_succ_self cs.length
  · exact shorter

/-- The number of line ends in a text. -/
def lineEnds : List Char → Nat
  | [] => 0
  | '\r' :: '\n' :: rest => lineEnds rest + 1
  | '\r' :: rest => lineEnds rest + 1
  | '\n' :: rest => lineEnds rest + 1
  | _ :: rest => lineEnds rest

theorem lineEnds_cons {c : Char} (plain : isBreak c = false) (cs : List Char) :
    lineEnds (c :: cs) = lineEnds cs := by
  rw [lineEnds]
  · exact fun _ same => absurd same (ne_return_of_not_break plain)
  · exact ne_return_of_not_break plain
  · exact ne_newline_of_not_break plain

theorem lineEnds_lineEnd {cs rest : List Char} (ends : LineEnd cs rest) :
    lineEnds cs = lineEnds rest + 1 := by
  cases ends with
  | lf | crlf => rfl
  | cr single =>
      rw [lineEnds]
      exact fun tail same => single (same ▸ rfl)

namespace Position

variable {content rest cs : List Char} {p : Position}

/-- The same place, some lines further down. -/
def down (n : Nat) (p : Position) : Position :=
  ⟨p.line + n, p.column⟩

theorem advance_cons {c : Char} (plain : isBreak c = false) (p : Position) (cs : List Char) :
    p.advance (c :: cs) = advance ⟨p.line, p.column + 1⟩ cs := by
  rw [advance]
  · exact fun _ same => absurd same (ne_return_of_not_break plain)
  · exact ne_return_of_not_break plain
  · exact ne_newline_of_not_break plain

theorem advance_lineEnd (ends : LineEnd cs rest) (p : Position) :
    p.advance cs = advance ⟨p.line + 1, 1⟩ rest := by
  cases ends with
  | lf | crlf => rfl
  | cr single =>
      cases rest with
      | nil => rfl
      | cons c rest =>
          have newline : c ≠ '\n' := fun same => single (congrArg some same)
          simp [advance, newline]

/-- Reading a text that ends in a `\n` leads to the start of a line. -/
theorem advance_append {text : List Char} (newline : ['\n'] <:+ text) (p : Position)
    (more : List Char) : p.advance (text ++ more) = advance ⟨p.line + lineEnds text, 1⟩ more := by
  induction text using text_induction generalizing p with
  | nil => simp at newline
  | @char c cs plain _ ih =>
      have inside : ['\n'] <:+ cs := by
        simpa [List.suffix_cons_iff, (ne_newline_of_not_break plain).symm] using newline
      rw [List.cons_append, advance_cons plain, ih inside, lineEnds_cons plain]
  | @joined cs rest ends ih =>
      have inside : ['\n'] <:+ cs := by simpa [List.suffix_cons_iff] using newline
      rw [List.cons_append, advance_cons rfl, advance_lineEnd (ends.append inside more),
        lineEnds_cons rfl, lineEnds_lineEnd ends]
      rcases ends.newline_rest inside with ⟨rfl, -⟩ | last
      · rfl
      · rw [ih last, Nat.add_right_comm, Nat.add_assoc]
  | @lineEnd cs rest ends ih =>
      rw [advance_lineEnd (ends.append newline more), lineEnds_lineEnd ends]
      rcases ends.newline_rest newline with ⟨rfl, -⟩ | last
      · rfl
      · rw [ih last, Nat.add_right_comm, Nat.add_assoc]

/-- Reading `content` leads to position `p`, where `rest` is left. What is read next goes on from
    there, so no line end is cut in two. -/
def Reaches (content : List Char) (p : Position) (rest : List Char) : Prop :=
  ∃ read, content = read ++ rest ∧ ∀ part, part <+: rest → after (read ++ part) = p.advance part

namespace Reaches

theorem refl (content : List Char) : Reaches content start content :=
  ⟨[], rfl, fun _ _ => rfl⟩

theorem append {text : List Char} (newline : ['\n'] <:+ text) (more : List Char) :
    Reaches (text ++ more) (start.down (lineEnds text)) more :=
  ⟨text, rfl, fun part _ => advance_append newline start part⟩

theorem cons {c : Char} (reached : Reaches content p (c :: rest)) (plain : isBreak c = false) :
    Reaches content ⟨p.line, p.column + 1⟩ rest := by
  obtain ⟨read, rfl, next⟩ := reached
  refine ⟨read ++ [c], by simp, fun part shorter => ?_⟩
  rw [List.append_assoc, List.singleton_append, ← advance_cons plain]
  exact next _ ((List.prefix_cons_inj c).mpr shorter)

theorem lineEnd (reached : Reaches content p cs) (ends : LineEnd cs rest) :
    Reaches content ⟨p.line + 1, 1⟩ rest := by
  obtain ⟨read, rfl, next⟩ := reached
  obtain ⟨mark, rfl, before⟩ := ends.exists_mark
  refine ⟨read ++ mark, by simp, fun part shorter => ?_⟩
  have stays : LineEnd (mark ++ part) part := by
    obtain ⟨tail, rfl⟩ := shorter
    exact before part fun newline => by rw [List.head?_append, newline, Option.some_or]
  rw [List.append_assoc, ← advance_lineEnd stays]
  exact next _ ((List.prefix_append_right_inj mark).mpr shorter)

/-- The position of a tail is the one at which reading leaves it. -/
theorem ofRest_eq (reached : Reaches content p rest) : ofRest content rest = p := by
  obtain ⟨read, rfl, next⟩ := reached
  have before : (read ++ rest).take ((read ++ rest).length - rest.length) = read := by
    simp
  rw [ofRest, before]
  simpa [advance] using next [] (List.nil_prefix)

end Reaches

end Position

end PinFloor
