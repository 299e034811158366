import PinFloor.Failure
import PinFloor.Proofs.Text.Wrapping

/-! # No word of a failure is lost

What is said about a failure has the words of its message and of the messages of its causes, in their
order, each behind its label. How it is styled and how wide it is only changes what is between them.
-/

namespace PinFloor

variable {cs : List Char} {width : Option Nat} {message : String} {causes : List String}

namespace Style

/-! ## Styled text -/

/-- A text without its styling, within a sequence or outside of one. A sequence goes from the character
    that starts it to the letter `m`. -/
def unpaintFrom (inside : Bool) : List Char → List Char
  | [] => []
  | c :: cs =>
      if inside then unpaintFrom (c ≠ 'm') cs
      else if c = '\x1b' then unpaintFrom true cs
      else c :: unpaintFrom false cs

/-- A text without its styling. Unlike `unstyled` it keeps other control characters. -/
def unpaint (cs : List Char) : List Char :=
  unpaintFrom false cs

theorem unpaint_append (quiet : '\x1b' ∉ cs) (ds : List Char) :
    unpaint (cs ++ ds) = cs ++ unpaint ds := by
  induction cs with
  | nil => rfl
  | cons c cs ih =>
      obtain ⟨first, others⟩ := not_or.mp (List.mem_cons.not.mp quiet)
      rw [List.cons_append, unpaint, unpaintFrom, if_neg Bool.false_ne_true, if_neg (Ne.symm first)]
      exact congrArg _ (ih others)

theorem unpaint_on (style : Style) (ds : List Char) :
    unpaint (style.on.toList ++ ds) = unpaint ds := by
  cases style <;> rfl

theorem unpaint_off (style : Style) (ds : List Char) :
    unpaint (style.off.toList ++ ds) = unpaint ds := by
  cases style <;> rfl

theorem unpaint_paint (style : Style) (text : String) (ds : List Char) :
    unpaint ((style.paint text).toList ++ ds) = unpaint (text.toList ++ (style.off.toList ++ ds)) := by
  rw [paint, String.toList_append, String.toList_append, List.append_assoc, List.append_assoc,
    unpaint_on]

end Style

namespace Failure

/-! ## The lines of a failure -/

theorem quiet_layout (quiet : '\x1b' ∉ message.toList) (indent : Nat) :
    '\x1b' ∉ Wrap.layout width indent message.toList := by
  rwa [mem_iff_of_words rfl (Wrap.words_layout width indent message.toList)]

theorem unpaint_head (quiet : '\x1b' ∉ message.toList) (ds : List Char) :
    Style.unpaint ((head width message).toList ++ ds) = "error: ".toList
      ++ (trim (Wrap.layout width 0 message.toList) ++ '\n' :: Style.unpaint ds) := by
  have plain : '\x1b' ∉ trim (Wrap.layout width 0 message.toList) :=
    fun inside => quiet_layout quiet 0 (mem_of_mem_trim inside)
  -- All that is written but the message is known, so that it has no escape is decided.
  simp (disch := decide) only [head, String.toList_append, String.toList_ofList, List.append_assoc,
    Style.unpaint_paint, Style.unpaint_off, Style.unpaint_append, Style.unpaint_append plain]
  rfl

/-- The rows of a cause, without its styling. -/
def causeRows (width : Option Nat) (message : String) : List (List Char) :=
  match Wrap.endedLines (Wrap.layout width causeIndent message.toList) with
  | [] => []
  | first :: rest => ("  Caused by: ".toList ++ trim first) :: rest.map trimEnd

theorem tail_causeRows (width : Option Nat) (message : String) : (causeRows width message).tail
    = (Wrap.endedLines (Wrap.layout width causeIndent message.toList)).tail.map trimEnd := by
  rw [causeRows]
  split
  · next none =>
      rw [none]
      rfl
  · next rows =>
      rw [rows]
      rfl

/-- A row of a cause is a line of its message, behind the label or without the blanks at its end. -/
theorem exists_line_of_mem_causeRows {row : List Char} (member : row ∈ causeRows width message) :
    ∃ line ∈ Wrap.endedLines (Wrap.layout width causeIndent message.toList),
      row = "  Caused by: ".toList ++ trim line ∨ row = trimEnd line := by
  rw [causeRows] at member
  split at member
  · cases member
  · next first rest rows =>
      rw [rows]
      rcases List.mem_cons.mp member with label | later
      · exact ⟨first, List.mem_cons_self, .inl label⟩
      · obtain ⟨line, among, same⟩ := List.mem_map.mp later
        exact ⟨line, List.mem_cons_of_mem first among, .inr same.symm⟩

theorem unpaint_rows {rows : List (List Char)} (quiet : ∀ row ∈ rows, '\x1b' ∉ row)
    (ds : List Char) : Style.unpaint (rows.flatMap (· ++ ['\n']) ++ ds)
      = rows.flatMap (· ++ ['\n']) ++ Style.unpaint ds := by
  refine Style.unpaint_append (fun inside => ?_) ds
  obtain ⟨row, member, inside⟩ := List.mem_flatMap.mp inside
  rcases List.mem_append.mp inside with inside | last
  · exact quiet row member inside
  · cases List.mem_singleton.mp last

theorem unpaint_cause (quiet : '\x1b' ∉ message.toList) (ds : List Char) :
    Style.unpaint ((cause width message).toList ++ ds)
      = (causeRows width message).flatMap (· ++ ['\n']) ++ Style.unpaint ds := by
  have plain : ∀ row ∈ Wrap.endedLines (Wrap.layout width causeIndent message.toList), '\x1b' ∉ row :=
    fun row member inside =>
      quiet_layout quiet causeIndent (Wrap.mem_of_mem_endedLines rfl member inside)
  rw [cause, causeRows]
  generalize Wrap.endedLines (Wrap.layout width causeIndent message.toList) = rows at plain
  cases rows with
  | nil => rfl
  | cons first rest =>
      obtain ⟨plain, others⟩ := List.forall_mem_cons.mp plain
      have start : '\x1b' ∉ trim first := fun inside => plain (mem_of_mem_trim inside)
      have later : ∀ row ∈ rest.map trimEnd, '\x1b' ∉ row := by
        intro row member inside
        obtain ⟨line, among, rfl⟩ := List.mem_map.mp member
        exact others line among ((isPrefix_trimEnd line).subset inside)
      have rows : (String.join (rest.map fun row => String.ofList (trimEnd row) ++ "\n")).toList
          = (rest.map trimEnd).flatMap (· ++ ['\n']) := by
        simp [String.toList_join, List.flatMap_map]
      simp (disch := decide) only [String.toList_append, String.toList_ofList, List.append_assoc, rows,
        Style.unpaint_paint, Style.unpaint_off, Style.unpaint_append, Style.unpaint_append start,
        unpaint_rows later, List.flatMap_cons]
      rfl

/-! ## The words of a failure -/

theorem words_rows (rows : List (List Char)) :
    words (rows.flatMap (· ++ ['\n'])) = rows.flatMap words := by
  induction rows with
  | nil => rfl
  | cons row rows ih =>
      rw [List.flatMap_cons, List.append_assoc, List.singleton_append, words_append_blank rfl, ih]
      rfl

/-- A cause that says something has rows, and their words are its label and those of its message. -/
theorem words_causeRows (width : Option Nat) (said : ∃ c ∈ message.toList, isBlank c = false) :
    (causeRows width message).flatMap words
      = "Caused".toList :: "by:".toList :: words message.toList := by
  have all := Wrap.words_endedLines (Wrap.layout width causeIndent message.toList)
  rw [Wrap.words_layout] at all
  rw [causeRows]
  cases rows : Wrap.endedLines (Wrap.layout width causeIndent message.toList) with
  | nil =>
      obtain ⟨c, inside, visible⟩ := said
      obtain ⟨word, among, -⟩ := (mem_words_iff visible).mpr inside
      rw [← all, rows] at among
      cases among
  | cons first rest =>
      have label : words ("  Caused by: ".toList ++ trim first)
          = "Caused".toList :: "by:".toList :: words first := by
        have split := words_append_blank (c := ' ') rfl "  Caused by:".toList (trim first)
        rw [words_trim] at split
        exact split
      have later : (rest.map trimEnd).flatMap words = rest.flatMap words := by
        rw [List.flatMap_map]
        exact List.flatMap_congr fun row _ => words_trimEnd row
      rw [rows, List.flatMap_cons] at all
      dsimp only
      rw [List.flatMap_cons, label, later, ← all]
      rfl

theorem unpaint_causes (quiet : ∀ m ∈ causes, '\x1b' ∉ m.toList) :
    Style.unpaint (String.join (causes.map (cause width))).toList
      = (causes.flatMap (causeRows width)).flatMap (· ++ ['\n']) := by
  induction causes with
  | nil => rfl
  | cons message causes ih =>
      obtain ⟨first, others⟩ := List.forall_mem_cons.mp quiet
      rw [List.map_cons, String.join_cons, String.toList_append, unpaint_cause first, ih others,
        List.flatMap_cons, List.flatMap_append]

theorem unpaint_text (quiet : ∀ m ∈ message :: causes, '\x1b' ∉ m.toList) :
    Style.unpaint (text width (message :: causes)).toList = "error: ".toList
      ++ (trim (Wrap.layout width 0 message.toList)
        ++ '\n' :: (causes.flatMap (causeRows width)).flatMap (· ++ ['\n'])) := by
  obtain ⟨first, others⟩ := List.forall_mem_cons.mp quiet
  rw [text, String.toList_append, unpaint_head first, unpaint_causes others]

theorem words_text (quiet : ∀ m ∈ message :: causes, '\x1b' ∉ m.toList)
    (said : ∀ m ∈ causes, ∃ c ∈ m.toList, isBlank c = false) :
    words (Style.unpaint (text width (message :: causes)).toList)
      = "error:".toList :: words message.toList
        ++ causes.flatMap fun m => "Caused".toList :: "by:".toList :: words m.toList := by
  calc
    _ = words ("error:".toList ++ ' ' :: (trim (Wrap.layout width 0 message.toList)
          ++ '\n' :: (causes.flatMap (causeRows width)).flatMap (· ++ ['\n']))) :=
      congrArg words (unpaint_text quiet)
    _ = words "error:".toList ++ (words message.toList
          ++ (causes.flatMap (causeRows width)).flatMap words) := by
      rw [words_append_blank rfl, words_append_blank rfl, words_trim, Wrap.words_layout, words_rows]
    _ = words "error:".toList ++ (words message.toList
          ++ causes.flatMap fun m => "Caused".toList :: "by:".toList :: words m.toList) := by
      rw [List.flatMap_assoc,
        List.flatMap_congr fun m member => words_causeRows width (said m member)]
    _ = _ := rfl

/-! ## The rows of a failure -/

theorem not_newline_of_mem_causeRows {row : List Char} (member : row ∈ causeRows width message) :
    '\n' ∉ row := by
  obtain ⟨line, among, rows⟩ := exists_line_of_mem_causeRows member
  have plain : '\n' ∉ line := not_mem_of_mem_splitOn (Wrap.mem_lines_of_mem_endedLines among)
  rcases rows with rfl | rfl
  · have start : '\n' ∉ trim line := fun inside => plain (mem_of_mem_trim inside)
    simpa using start
  · exact fun inside => plain ((isPrefix_trimEnd line).subset inside)

theorem endedLines_cause (quiet : '\x1b' ∉ message.toList) :
    Wrap.endedLines (Style.unpaint (cause width message).toList) = causeRows width message := by
  have printed : Style.unpaint ((cause width message).toList ++ []) = _ := unpaint_cause quiet []
  rw [List.append_nil] at printed
  rw [printed, Wrap.endedLines_rows fun row => not_newline_of_mem_causeRows]
  exact List.append_nil _

theorem endedLines_text (quiet : ∀ m ∈ message :: causes, '\x1b' ∉ m.toList) :
    Wrap.endedLines (Style.unpaint (text width (message :: causes)).toList)
      = Wrap.endedLines (Style.unpaint (head width message).toList)
        ++ causes.flatMap (causeRows width) := by
  obtain ⟨first, -⟩ := List.forall_mem_cons.mp quiet
  have later : ∀ row ∈ causes.flatMap (causeRows width), '\n' ∉ row := by
    intro row member
    obtain ⟨m, -, inside⟩ := List.mem_flatMap.mp member
    exact not_newline_of_mem_causeRows inside
  have alone : Style.unpaint ((head width message).toList ++ []) = _ := unpaint_head first []
  rw [List.append_nil] at alone
  have rows := Wrap.endedLines_rows later []
  rw [List.append_nil] at rows
  have none : Wrap.endedLines [] = [] := rfl
  rw [unpaint_text quiet, alone, ← List.append_assoc, ← List.append_assoc,
    Wrap.endedLines_append_newline, Wrap.endedLines_append_newline, rows, Style.unpaint,
    Style.unpaintFrom, none, List.append_nil, List.append_nil]

theorem row_of_mem_tail {row : List Char} (later : row ∈ (causeRows none message).tail) :
    (row = [] ∨ List.replicate 13 ' ' <+: row) ∧ ∀ c, row.getLast? = some c → isBlank c = false := by
  rw [tail_causeRows] at later
  obtain ⟨line, among, rfl⟩ := List.mem_map.mp later
  refine ⟨?_, fun c => not_blank_of_getLast?_trimEnd⟩
  have blanks : ∀ c ∈ List.replicate causeIndent ' ', isBlank c = true :=
    fun c inside => List.eq_of_mem_replicate inside ▸ rfl
  rcases Wrap.indented_of_mem_tail among with rfl | indented
  · exact .inl rfl
  · exact isPrefix_trimEnd_of_blanks blanks indented

/-- A cause that says something has a first row, behind its label. -/
theorem exists_head_causeRows (said : ∃ c ∈ message.toList, isBlank c = false) :
    ∃ first, (causeRows width message).head? = some ("  Caused by: ".toList ++ first) := by
  have told := words_causeRows width said
  rw [causeRows] at told ⊢
  cases rows : Wrap.endedLines (Wrap.layout width causeIndent message.toList) with
  | nil =>
      rw [rows] at told
      cases told
  | cons first rest => exact ⟨trim first, rfl⟩

/-- The words of what is said about a failure are `error:` and those of its message, and for each cause
    in order `Caused by:` and those of its message, at any width and without one. The rows for the
    message stand before those for each cause, and the first row of a cause has its label. Without a
    width, those after it are empty or indented, and end in no blank. -/
theorem every_word_told (width : Option Nat) (message : String) (causes : List String)
    (quiet : ∀ m ∈ message :: causes, '\x1b' ∉ m.toList)
    (said : ∀ m ∈ causes, ∃ c ∈ m.toList, isBlank c = false) :
    let told (s : String) := Style.unpaint s.toList
    let rows (s : String) := Wrap.endedLines (told s)
    words (told (text width (message :: causes))) = "error:".toList :: words message.toList
      ++ causes.flatMap (fun m => "Caused".toList :: "by:".toList :: words m.toList) ∧
    rows (text width (message :: causes))
      = rows (head width message) ++ causes.flatMap (fun m => rows (cause width m)) ∧
    ∀ m ∈ causes,
      (∃ first, (rows (cause width m)).head? = some ("  Caused by: ".toList ++ first)) ∧
      ∀ row ∈ (rows (cause none m)).tail,
        (row = [] ∨ List.replicate 13 ' ' <+: row) ∧
          ∀ c, row.getLast? = some c → isBlank c = false := by
  intro told rows
  obtain ⟨-, others⟩ := List.forall_mem_cons.mp quiet
  have same (width : Option Nat) (m : String) (member : m ∈ causes) :
      rows (cause width m) = causeRows width m := endedLines_cause (others m member)
  refine ⟨words_text quiet said, ?_, fun m member => ⟨?_, fun row later => ?_⟩⟩
  · rw [List.flatMap_congr (same width)]
    exact endedLines_text quiet
  · rw [same width m member]
    exact exists_head_causeRows (said m member)
  · rw [same none m member] at later
    exact row_of_mem_tail later

/-- A cause of several lines, with a blank one among them, in rows that are too narrow for its words. -/
theorem words_of_narrow_rows :
    let told (s : String) := Style.unpaint s.toList
    let rows (s : String) := Wrap.endedLines (told s)
    let causes := ["no such\n\n directory\t", "gave up"]
    (∀ m ∈ "Failed to read" :: causes, '\x1b' ∉ m.toList) ∧
    (∀ m ∈ causes, ∃ c ∈ m.toList, isBlank c = false) ∧
    words (told (text (some 9) ("Failed to read" :: causes)))
      = "error:".toList :: words "Failed to read".toList
        ++ causes.flatMap (fun m => "Caused".toList :: "by:".toList :: words m.toList) ∧
    rows (text (some 9) ("Failed to read" :: causes))
      = rows (head (some 9) "Failed to read") ++ causes.flatMap (fun m => rows (cause (some 9) m)) ∧
    ∀ m ∈ causes,
      (∃ first, (rows (cause (some 9) m)).head? = some ("  Caused by: ".toList ++ first)) ∧
      ∀ row ∈ (rows (cause none m)).tail,
        (row = [] ∨ List.replicate 13 ' ' <+: row) ∧
          ∀ c, row.getLast? = some c → isBlank c = false := by
  have quiet : ∀ m ∈ ["Failed to read", "no such\n\n directory\t", "gave up"], '\x1b' ∉ m.toList := by
    decide
  have said : ∀ m ∈ ["no such\n\n directory\t", "gave up"], ∃ c ∈ m.toList, isBlank c = false :=
    List.forall_mem_cons.mpr
      ⟨⟨'n', by decide, rfl⟩, List.forall_mem_singleton.mpr ⟨'g', by decide, rfl⟩⟩
  exact ⟨quiet, said, every_word_told (some 9) "Failed to read" _ quiet said⟩

end Failure

end PinFloor
