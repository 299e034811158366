import PinFloor.Proofs.Requirement.Names
import PinFloor.Proofs.RequirementsFile.Concatenation
import PinFloor.Proofs.RequirementsFile.Locality

/-! # The spelling of names in a file

A named entry starts with the name of its package. The name may be written in several ways, and over
several lines that are joined. Whichever way is taken, the entry is read the same, as long as its
lines are.
-/

namespace PinFloor

open Scanner Requirement PackageName

/-! ## Names in the text of a file -/

/-- A text that spells out a name, with joined line ends between its characters. Two dashes after a
    joined line end would start an option. -/
inductive Spells : List Char → List Char → Prop where
  | last {c : Char} : c.isAlphanum = true → Spells [c] [c]
  | char {c : Char} {w n : List Char} : inName c = true → Spells w n → Spells (c :: w) (c :: n)
  | lineEnd {cs w n : List Char} : LineEnd cs w → ['-', '-'].isPrefixOf w = false → Spells w n →
      Spells ('\\' :: cs) n

/-- A text that is the name of an entry where it stands at the start of a statement. -/
structure NameText (w n : List Char) : Prop where
  name : IsName n
  spells : Spells w n
  head : w.head? = n.head?

variable {w n text line X : List Char} {c : Char}

theorem ne_of_alphanum {d : Char} (letter : c.isAlphanum = true) (other : d.isAlphanum = false) :
    c ≠ d := by
  rintro rfl
  rw [letter] at other
  cases other

theorem not_gap_of_inName (inside : inName c = true) : isGap c = false := by
  refine Bool.eq_false_iff.mpr fun gap => ?_
  have blank : c = ' ' ∨ c = '\t' := by simpa [isGap] using gap
  rcases blank with rfl | rfl <;> cases inside

theorem not_break_of_inName (inside : inName c = true) : isBreak c = false := by
  refine Bool.eq_false_iff.mpr fun isEnd => ?_
  rcases break_cases isEnd with rfl | rfl <;> cases inside

theorem skipGap_inName (inside : inName c = true) (cs : List Char) : skipGap (c :: cs) = c :: cs :=
  skipGap_plain (not_gap_of_inName inside) fun slash => absurd slash (ne_of_inName inside rfl)

theorem splitStatement_inName (inside : inName c = true) (cs : List Char) :
    splitStatement (c :: cs) = (c :: (splitStatement cs).1, (splitStatement cs).2) :=
  splitStatement_plain (not_break_of_inName inside) (afterGap?_of_eq (skipGap_inName inside cs))

/-- A joined line end in the text of a statement is part of it, if no option and no comment follows. -/
theorem splitStatement_joined {mark rest : List Char} (ends : LineEnd (mark ++ rest) rest)
    (noOptions : ['-', '-'].isPrefixOf (skipGap rest) = false)
    (noComment : ['#'].isPrefixOf (skipGap rest) = false) : splitStatement ('\\' :: (mark ++ rest)) =
      ('\\' :: (mark ++ (splitStatement rest).1), (splitStatement rest).2) := by
  rw [splitStatement_gap (afterGap?_of_joined ends), skipGap_joined ends, noOptions, noComment,
    gapOf_joined ends]
  by_cases shorter : (skipGap rest).length < rest.length
  · rw [splitStatement_gap (afterGap?_of_lt shorter), noOptions, noComment]
    simp
  · have same : skipGap rest = rest :=
      (skipGap_suffix rest).eq_of_length_le (Nat.not_lt.mp shorter)
    rw [gapOf_none same, same]
    simp

/-- The word that a text starts with, by which a path or URL is known. -/
def firstWord (cs : List Char) : List Char :=
  cs.takeWhile fun c => !isBlank c && c ≠ ';'

theorem firstWord_inName (inside : inName c = true) (cs : List Char) :
    firstWord (c :: cs) = c :: firstWord cs := by
  have blank := not_blank_of_inName inside
  have other : c ≠ ';' := ne_of_inName inside rfl
  exact List.takeWhile_cons_of_pos (by simp [blank, other])

theorem LineEnd.append_of_some {cs rest : List Char} (ends : LineEnd cs rest) (some : rest ≠ [])
    (more : List Char) : LineEnd (cs ++ more) (rest ++ more) := by
  cases ends with
  | lf => exact .lf
  | crlf => exact .crlf
  | cr single =>
      cases rest with
      | nil => exact absurd rfl some
      | cons c rest => exact .cr single

namespace Spells

theorem ne_nil (spells : Spells w n) : w ≠ [] := by
  cases spells <;> exact List.cons_ne_nil _ _

/-- A name ends in a letter or a digit. -/
theorem exists_last (spells : Spells w n) : ∃ c, w.getLast? = some c ∧ c.isAlphanum = true := by
  induction spells with
  | last letter => exact ⟨_, rfl, letter⟩
  | char _ spells ih =>
      obtain ⟨c, last, letter⟩ := ih
      exact ⟨c, by rw [List.getLast?_cons, last]; rfl, letter⟩
  | lineEnd ends _ spells ih =>
      obtain ⟨c, last, letter⟩ := ih
      obtain ⟨mark, rfl, -⟩ := ends.exists_mark
      refine ⟨c, ?_, letter⟩
      rw [List.getLast?_cons, List.getLast?_append, last]
      rfl

theorem uncut (spells : Spells w n) (after : List Char) : Uncut w after := by
  intro ret
  obtain ⟨c, last, letter⟩ := spells.exists_last
  cases ret.symm.trans last
  cases letter

theorem joins (spells : Spells w n) (rest : Joins text line) : Joins (w ++ text) (n ++ line) := by
  induction spells with
  | last letter => exact .char (not_break_of_inName (inName_of_alphanum letter)) rest
  | char inside _ ih => exact .char (not_break_of_inName inside) ih
  | lineEnd ends _ spells ih => exact .lineEnd (ends.append_of_some spells.ne_nil text) ih

/-- No option and no comment starts at a name. -/
theorem not_option (spells : Spells w n) (dashes : ['-', '-'].isPrefixOf w = false)
    (X : List Char) : ['-', '-'].isPrefixOf (skipGap (w ++ X)) = false ∧
      ['#'].isPrefixOf (skipGap (w ++ X)) = false := by
  induction spells with
  | @last c letter =>
      have inside := inName_of_alphanum letter
      have dash : ('-' == c) = false := beq_false_of_ne (ne_of_alphanum letter rfl).symm
      have hash : ('#' == c) = false := beq_false_of_ne (ne_of_alphanum letter rfl).symm
      rw [List.singleton_append, skipGap_inName inside, List.isPrefixOf_cons_cons,
        List.isPrefixOf_cons_cons, dash, hash]
      exact ⟨rfl, rfl⟩
  | @char c w n inside spells ih =>
      have hash : ('#' == c) = false := beq_false_of_ne (ne_of_inName inside rfl).symm
      rw [List.cons_append, skipGap_inName inside]
      refine ⟨?_, by rw [List.isPrefixOf_cons_cons, hash]; rfl⟩
      cases w with
      | nil => exact absurd rfl spells.ne_nil
      | cons d w => simpa [List.isPrefixOf_cons_cons] using dashes
  | lineEnd ends single spells ih =>
      rw [List.cons_append, skipGap_joined (ends.append_of_some spells.ne_nil X)]
      exact ih single

theorem splitStatement (spells : Spells w n) (X : List Char) : Scanner.splitStatement (w ++ X) =
    (w ++ (Scanner.splitStatement X).1, (Scanner.splitStatement X).2) := by
  induction spells with
  | last letter => exact splitStatement_inName (inName_of_alphanum letter) X
  | @char c w n inside _ ih =>
      rw [List.cons_append, splitStatement_inName inside, ih]
      rfl
  | @lineEnd cs w n ends dashes spells ih =>
      have whole := ends.append_of_some spells.ne_nil X
      obtain ⟨mark, rfl, -⟩ := ends.exists_mark
      obtain ⟨noOptions, noComment⟩ := spells.not_option dashes X
      rw [List.append_assoc] at whole
      rw [List.cons_append, List.append_assoc, splitStatement_joined whole noOptions noComment, ih]
      simp

/-- A name is written on one line, or the word at the start of its text ends within it. -/
theorem whole_or_cut (spells : Spells w n) : (w = n ∧ lineEnds w = 0) ∨ (0 < lineEnds w ∧
    ∀ X, ':' ∉ firstWord (w ++ X)) := by
  induction spells with
  | @last c letter =>
      have plain := not_break_of_inName (inName_of_alphanum letter)
      exact .inl ⟨rfl, lineEnds_cons plain []⟩
  | @char c w n inside _ ih =>
      rw [lineEnds_cons (not_break_of_inName inside)]
      rcases ih with ⟨rfl, none⟩ | ⟨some, cut⟩
      · exact .inl ⟨rfl, none⟩
      · refine .inr ⟨some, fun X found => ?_⟩
        have colon : c ≠ ':' := ne_of_inName inside rfl
        rw [List.cons_append, firstWord_inName inside] at found
        rcases List.mem_cons.mp found with same | found
        · exact colon same.symm
        · exact cut X found
  | @lineEnd cs w n ends _ spells _ =>
      refine .inr ⟨?_, fun X => ?_⟩
      · rw [lineEnds_cons rfl, lineEnds_lineEnd ends]
        exact Nat.succ_pos _
      · have stops : StopsAtBreak fun c => !isBlank c && c ≠ ';' :=
          .of_blank fun c blank => by simp [blank]
        rw [firstWord, List.cons_append, List.takeWhile_cons_of_pos rfl,
          stops.takeWhile (ends.append_of_some spells.ne_nil X)]
        decide

end Spells

/-! ## Entries that start with a name -/

/-- In a statement, `cs` does not go on with the name that stands before it. -/
def EndsNameText (cs : List Char) : Prop :=
  ∀ line, Joins (splitStatement cs).1 line → EndsName line

theorem exists_joins (cs : List Char) : ∃ line, Joins (splitStatement cs).1 line := by
  have both : (Comparison.following [] cs).Abreast cs cs :=
    ⟨⟨.start, .refl _, .refl _⟩, Comparison.alike_self rfl rfl cs⟩
  have split := both.splitStatement
  generalize splitStatement cs = parts at split
  cases split with
  | line joins | options joins => exact ⟨_, joins⟩

/-- The first character of a statement's text is the first of its line, unless it joins lines. -/
theorem head_of_joins {cs : List Char} (plain : isBreak c = false) (word : isGap c = false)
    (slash : c ≠ '\\') (joins : Joins (splitStatement (c :: cs)).1 line) : line.head? = some c := by
  have gapless : skipGap (c :: cs) = c :: cs := skipGap_plain word fun same => absurd same slash
  rw [splitStatement_plain plain (afterGap?_of_eq gapless)] at joins
  cases joins with
  | char => rfl
  | lineEnd => exact absurd rfl slash

theorem occursIn_append {part : List Char} (before : c ∉ n) (cs : List Char) :
    occursIn (c :: part) (n ++ cs) = occursIn (c :: part) cs := by
  induction n with
  | nil => rfl
  | cons d n ih =>
      have start : (c == d) = false := beq_false_of_ne (List.ne_of_not_mem_cons before)
      rw [List.cons_append, occursIn, List.isPrefixOf_cons_cons, start,
        ih (List.not_mem_of_not_mem_cons before)]
      rfl

theorem not_occursIn {part cs : List Char} (absent : c ∉ cs) : occursIn (c :: part) cs = false := by
  rw [← List.append_nil cs, occursIn_append absent]
  rfl

theorem isUnnamed_letter (letter : c.isAlphanum = true) (cs : List Char) : isUnnamed (c :: cs) =
    ("file:".toList.isPrefixOf (firstWord (c :: cs))
      || occursIn "://".toList ((firstWord (c :: cs)).takeWhile (· ≠ '@'))) := by
  have path : ∀ d : Char, d.isAlphanum = false → c ≠ d := fun d => ne_of_alphanum letter
  have word := firstWord_inName (inName_of_alphanum letter) cs
  rw [firstWord, firstWord] at word
  simp only [isUnnamed, firstWord, word]
  simp [path]

/-- A text without a `:` in its first word is no path or URL, if a letter or digit comes first. -/
theorem isUnnamed_of_cut {cs : List Char} (letter : c.isAlphanum = true)
    (cut : ':' ∉ firstWord (c :: cs)) : isUnnamed (c :: cs) = false := by
  have file : "file:".toList.isPrefixOf (firstWord (c :: cs)) = false := by
    refine Bool.eq_false_iff.mpr fun start => cut ?_
    exact (List.isPrefixOf_iff_prefix.mp start).subset (by decide)
  have scheme : occursIn "://".toList ((firstWord (c :: cs)).takeWhile (· ≠ '@')) = false :=
    not_occursIn fun found => cut ((List.takeWhile_prefix _).subset found)
  rw [isUnnamed_letter letter, file, scheme]
  rfl

/-- Whether a text that starts with a name is a path or URL does not depend on the name. -/
theorem isUnnamed_name (name : IsName n) (ends : EndsName X) (colon : X.head? ≠ some ':') :
    isUnnamed (n ++ X) = occursIn "://".toList ((firstWord X).takeWhile (· ≠ '@')) := by
  have all : ∀ c ∈ n, inName c = true := fun c inside => inName_of_isName name inside
  have word : firstWord (n ++ X) = n ++ firstWord X := by
    refine List.takeWhile_append_of_pos fun c inside => ?_
    have blank := not_blank_of_inName (all c inside)
    have other : c ≠ ';' := ne_of_inName (all c inside) rfl
    simp [blank, other]
  have before : (n ++ firstWord X).takeWhile (· ≠ '@') = n ++ (firstWord X).takeWhile (· ≠ '@') := by
    refine List.takeWhile_append_of_pos fun c inside => ?_
    have other : c ≠ '@' := ne_of_inName (all c inside) rfl
    simp [other]
  have absent : ':' ∉ n := fun inside => absurd (all ':' inside) (by decide)
  have file : "file:".toList.isPrefixOf (n ++ firstWord X) = false := by
    refine Bool.eq_false_iff.mpr fun start => ?_
    obtain ⟨more, whole⟩ := List.isPrefixOf_iff_prefix.mp start
    have part : firstWord X <+: X := List.takeWhile_prefix _
    obtain rfl : n = ['f', 'i', 'l', 'e'] := by
      rw [← takeWhile_name name (ends.of_prefix part), ← whole]
      rfl
    have word : ':' :: more = firstWord X := by simpa using whole
    obtain ⟨left, same⟩ := part
    exact colon (by rw [← same, ← word]; rfl)
  obtain ⟨c, first, letter⟩ := name.first
  obtain ⟨more, rfl⟩ := List.head?_eq_some_iff.mp first
  rw [List.cons_append, isUnnamed_letter letter, ← List.cons_append, word, file, before]
  exact occursIn_append absent _

theorem statement?_nameText (text : NameText w n) (X : List Char) : statement? (w ++ X) =
    if isUnnamed (w ++ X) then some (unnamed (w ++ X)) else some (requirement (w ++ X)) := by
  obtain ⟨c, first, letter⟩ := text.name.first
  obtain ⟨more, rfl⟩ := List.head?_eq_some_iff.mp (text.head.trans first)
  rw [List.cons_append, statement?, if_neg (ne_of_alphanum letter rfl), if_pos letter]

/-- What is read from an entry is known from its name and from the line that follows the name. -/
theorem requirement_nameText (text : NameText w n) (joins : Joins (splitStatement X).1 line) :
    requirement (w ++ X) = match Requirement.parse? (n ++ trimEnd line) with
      | none => .error (.invalidRequirement (w ++ X))
      | some requirement =>
          (trailingHashes (splitStatement X).2.1 (splitStatement X).2.2).map fun (hashes, rest) =>
            (.requirement requirement hashes, rest) := by
  have whole := (text.spells.joins joins).joinLines_eq
  rw [trim_name text.name] at whole
  cases parsed : Requirement.parse? (n ++ trimEnd line) <;>
    simp only [requirement_eq, text.spells.splitStatement, whole, parsed]

theorem EndsNameText.endsName (ends : EndsNameText X) : EndsName X := by
  intro c first
  obtain ⟨more, rfl⟩ := List.head?_eq_some_iff.mp first
  obtain ⟨line, joins⟩ := exists_joins (c :: more)
  refine Bool.eq_false_iff.mpr fun inside => ?_
  have head := head_of_joins (not_break_of_inName inside) (not_gap_of_inName inside)
    (ne_of_inName inside rfl) joins
  have outside := ends line joins c head
  rw [inside] at outside
  cases outside

/-- A text that is no path or URL is none with another spelling of the name at its start. -/
theorem isUnnamed_respelled {w' n' : List Char} (first : NameText w n) (second : NameText w' n')
    (lines : lineEnds w' = lineEnds w) (ends : EndsName X) (colon : X.head? ≠ some ':')
    (named : isUnnamed (w ++ X) = false) : isUnnamed (w' ++ X) = false := by
  rcases second.spells.whole_or_cut with ⟨rfl, none⟩ | ⟨-, cut⟩
  · rcases first.spells.whole_or_cut with ⟨rfl, -⟩ | ⟨some, -⟩
    · rwa [isUnnamed_name second.name ends colon, ← isUnnamed_name first.name ends colon]
    · exact absurd (lines.symm.trans none) (Nat.ne_of_gt some)
  · obtain ⟨c, head, letter⟩ := second.name.first
    obtain ⟨more, rfl⟩ := List.head?_eq_some_iff.mp (second.head.trans head)
    exact isUnnamed_of_cut letter (cut X)

/-- With another spelling of its name an entry is read the same, unless it is a bare name and the
    spelling looks like the file name of an archive. -/
theorem statement?_respelled {w' n' : List Char} (first : NameText w n) (second : NameText w' n')
    (same : collapse n = collapse n') (lines : lineEnds w' = lineEnds w) (ends : EndsNameText X)
    {r : Requirement} {hashes : List String} {rest : List Char}
    (scanned : statement? (w ++ X) = some (.ok (.requirement r hashes, rest)))
    (admitted : ¬ (r.source = .any ∧ looksLikeArchive n' = true)) :
    statement? (w' ++ X) = some (.ok (.requirement r hashes, rest)) := by
  obtain ⟨line, joins⟩ := exists_joins X
  rw [statement?_nameText first] at scanned
  split at scanned
  · rw [unnamed_eq] at scanned
    obtain ⟨_, -, other⟩ := exists_of_map_eq_ok (Option.some.inj scanned)
    cases other
  · next named =>
      have read := Option.some.inj scanned
      rw [requirement_nameText first joins] at read
      split at read
      · cases read
      · next parsed =>
          obtain ⟨⟨found, left⟩, trailing, whole⟩ := exists_of_map_eq_ok read
          cases whole
          have colon : X.head? ≠ some ':' := fun head => by
            obtain ⟨more, rfl⟩ := List.head?_eq_some_iff.mp head
            exact not_colon_of_parse? first.name (ends line joins) parsed
              (head_of_joins rfl rfl (by decide) joins)
          have named' := isUnnamed_respelled first second lines ends.endsName colon
            (Bool.eq_false_iff.mpr named)
          rw [statement?_nameText second, named', requirement_nameText second joins,
            parse?_respelled ⟨first.name, second.name, same⟩ (ends line joins).trimEnd parsed,
            if_neg admitted, trailing]
          rfl

/-! ## Every named entry starts with a name -/

theorem LineEnd.unique {cs first second : List Char} (a : LineEnd cs first) (b : LineEnd cs second) :
    first = second := by
  cases a with
  | lf => cases b; rfl
  | crlf =>
      cases b with
      | crlf => rfl
      | cr single => exact absurd rfl single
  | cr single =>
      cases b with
      | crlf => exact absurd rfl single
      | cr => rfl

namespace Scanner.Joins

theorem unique {first second : List Char} (a : Joins text first) (b : Joins text second) :
    first = second :=
  a.removed.2.2.symm.trans b.removed.2.2

theorem ne_nil (joins : Joins text (n ++ line)) (some : n ≠ []) : text ≠ [] := by
  rintro rfl
  exact some (List.append_eq_nil_iff.mp (joins.unique .nil)).1

end Scanner.Joins

/-- The text of a statement, if there is any, starts where the statement starts. -/
theorem exists_cons_of_splitStatement {cs : List Char}
    (some : (splitStatement (c :: cs)).1 ≠ []) : ∃ more, (splitStatement (c :: cs)).1 = c :: more := by
  obtain ⟨between, whole⟩ := (splitStatement_parts (c :: cs)).1
  obtain ⟨d, more, same⟩ := List.exists_cons_of_ne_nil some
  rw [same] at whole
  obtain rfl : c = d := (List.cons.inj whole).1
  exact ⟨more, same⟩

/-- No option and no comment starts behind a joined line end in the text of a statement. -/
theorem plain_of_joined {cs rest : List Char} (ends : LineEnd cs rest)
    (some : (splitStatement ('\\' :: cs)).1 ≠ []) :
    ['-', '-'].isPrefixOf (skipGap rest) = false ∧ ['#'].isPrefixOf (skipGap rest) = false := by
  have gap := splitStatement_gap (afterGap?_of_joined ends)
  rw [skipGap_joined ends] at gap
  have noOptions : ['-', '-'].isPrefixOf (skipGap rest) = false :=
    Bool.eq_false_iff.mpr fun options => some (by rw [gap, if_pos options])
  have noComment : ['#'].isPrefixOf (skipGap rest) = false :=
    Bool.eq_false_iff.mpr fun comment => some (by rw [gap, noOptions, comment]; rfl)
  exact ⟨noOptions, noComment⟩

/-- The name that the line of a statement starts with is spelled out at the start of its text. -/
theorem exists_spells {cs n t : List Char} (joins : Joins (splitStatement cs).1 (n ++ t))
    (all : ∀ c ∈ n, inName c = true) (last : ∃ c, n.getLast? = some c ∧ c.isAlphanum = true) :
    ∃ w X, cs = w ++ X ∧ Spells w n ∧ Joins (splitStatement X).1 t := by
  obtain ⟨d, n, rfl⟩ : ∃ d more, n = d :: more := by
    obtain ⟨c, last, -⟩ := last
    exact List.exists_cons_of_ne_nil (List.ne_nil_of_mem (List.mem_of_getLast? last))
  have inside := all d List.mem_cons_self
  have text : (splitStatement cs).1 ≠ [] := joins.ne_nil (List.cons_ne_nil d n)
  induction cs using text_induction generalizing d n with
  | nil => exact absurd (congrArg Prod.fst splitStatement_nil) text
  | lineEnd ends => exact absurd (congrArg Prod.fst (splitStatement_lineEnd ends)) text
  | @char c cs plain single ih =>
      cases gap : isGap c with
      | true =>
          -- The line would start with a blank.
          obtain ⟨more, same⟩ := exists_cons_of_splitStatement text
          rw [same] at joins
          cases joins with
          | char => cases gap.symm.trans (not_gap_of_inName inside)
          | lineEnd => cases gap
      | false =>
          rw [splitStatement_plain plain (afterGap?_of_eq (skipGap_plain gap single))] at joins
          cases joins with
          | lineEnd ends =>
              obtain ⟨line, opens⟩ := exists_joins cs
              cases opens.startsBreak_eq_false.symm.trans ends.startsBreak
          | char _ joins =>
              cases n with
              | nil =>
                  obtain ⟨e, here, letter⟩ := last
                  cases here
                  exact ⟨[c], cs, rfl, .last letter, joins⟩
              | cons e n =>
                  rw [List.getLast?_cons_cons] at last
                  have others := (List.forall_mem_cons.mp all).2
                  obtain ⟨w, X, rfl, spells, rest⟩ := ih e n joins others last
                    (others e List.mem_cons_self) (joins.ne_nil (List.cons_ne_nil e n))
                  exact ⟨c :: w, X, rfl, .char inside spells, rest⟩
  | @joined cs rest ends ih =>
      obtain ⟨noOptions, noComment⟩ := plain_of_joined ends text
      obtain ⟨mark, rfl, before⟩ := ends.exists_mark
      rw [splitStatement_joined ends noOptions noComment] at joins
      cases joins with
      | char => cases inside
      | @lineEnd _ text' _ ends' joins =>
          obtain ⟨line, opens⟩ := exists_joins rest
          have same := ends'.unique (before _ fun newline =>
            absurd newline (head_ne_newline opens.startsBreak_eq_false))
          subst same
          obtain ⟨w, X, rfl, spells, rest⟩ :=
            ih d n joins all last inside (joins.ne_nil (List.cons_ne_nil d n))
          have dashes : ['-', '-'].isPrefixOf w = false := by
            refine Bool.eq_false_iff.mpr fun start => ?_
            obtain ⟨more, rfl⟩ := List.isPrefixOf_iff_prefix.mp start
            rw [List.cons_append, List.cons_append, skipGap_inName rfl] at noOptions
            cases noOptions
          have ends : LineEnd (mark ++ w) w := before w fun newline => by
            rw [List.head?_append, newline, Option.some_or]
          exact ⟨'\\' :: (mark ++ w), X, by simp, .lineEnd ends dashes spells, rest⟩

/-- No option is an entry with a text of its own. -/
theorem not_entry_of_option {cs rest : List Char} {st : Statement}
    (scanned : option cs = .ok (st, rest)) :
    (∀ r hashes, st ≠ .requirement r hashes) ∧ ∀ target, st ≠ .unnamed target := by
  rw [option] at scanned
  repeat' split at scanned
  all_goals first
    | cases scanned
    | obtain ⟨_, -, same⟩ := exists_of_map_eq_ok scanned
      cases same
      simp

theorem requirement_of_statement? {cs rest : List Char} {r : Requirement} {hashes : List String}
    (scanned : statement? (c :: cs) = some (.ok (.requirement r hashes, rest))) :
    c.isAlphanum = true ∧ requirement (c :: cs) = .ok (.requirement r hashes, rest) := by
  rw [statement?] at scanned
  split at scanned
  · exact absurd rfl ((not_entry_of_option (Option.some.inj scanned)).1 r hashes)
  · split at scanned
    · rw [unnamed_eq] at scanned
      obtain ⟨_, -, other⟩ := exists_of_map_eq_ok (Option.some.inj scanned)
      cases other
    · split at scanned
      · next letter => exact ⟨letter, Option.some.inj scanned⟩
      · cases scanned

/-- A named statement is a requirement that was parsed, and the hashes behind it. -/
theorem parsed_of_statement? {cs rest : List Char} {r : Requirement} {hashes : List String}
    (scanned : statement? cs = some (.ok (.requirement r hashes, rest))) :
    Requirement.parse? (joinLines (splitStatement cs).1) = some r ∧
      trailingHashes (splitStatement cs).2.1 (splitStatement cs).2.2 = .ok (hashes, rest) := by
  cases cs with
  | nil => cases scanned
  | cons c cs =>
      obtain ⟨-, read⟩ := requirement_of_statement? scanned
      rw [requirement_eq] at read
      split at read
      · cases read
      · next parsed =>
          obtain ⟨_, trailing, same⟩ := exists_of_map_eq_ok read
          cases same
          exact ⟨parsed, trailing⟩

theorem unnamed_of_statement? {cs rest : List Char} {target : String}
    (scanned : statement? cs = some (.ok (.unnamed target, rest))) :
    unnamed cs = .ok (.unnamed target, rest) := by
  cases cs with
  | nil => cases scanned
  | cons c cs =>
      rw [statement?] at scanned
      split at scanned
      · exact absurd rfl ((not_entry_of_option (Option.some.inj scanned)).2 target)
      · split at scanned
        · exact Option.some.inj scanned
        · split at scanned
          · have read := Option.some.inj scanned
            rw [requirement_eq] at read
            split at read
            · cases read
            · obtain ⟨_, -, other⟩ := exists_of_map_eq_ok read
              cases other
          · cases scanned

theorem Script.exists_parsed {content : List Char} {line : Nat} {r : Requirement}
    {hashes : List String}
    (member : ⟨line, .requirement r hashes⟩ ∈ (Script.read content).statements) :
    ∃ cs rest, Requirement.parse? (joinLines (splitStatement cs).1) = some r ∧
      trailingHashes (splitStatement cs).2.1 (splitStatement cs).2.2 = .ok (hashes, rest) := by
  obtain ⟨start, rest, -, scanned, -⟩ := exists_start member
  exact ⟨start, rest, parsed_of_statement? scanned⟩

/-- Every named entry starts with the text of its name, and what follows is no part of it. -/
theorem exists_nameText {cs rest : List Char} {r : Requirement} {hashes : List String}
    (scanned : statement? cs = some (.ok (.requirement r hashes, rest))) : ∃ w n X,
      cs = w ++ (X ++ rest) ∧ NameText w n ∧ EndsNameText (X ++ rest) ∧
        r.name = ⟨String.ofList (collapse n)⟩ := by
  cases cs with
  | nil => cases scanned
  | cons c cs =>
      have inside := inName_of_alphanum (requirement_of_statement? scanned).1
      obtain ⟨line, joins⟩ := exists_joins (c :: cs)
      have head := head_of_joins (not_break_of_inName inside) (not_gap_of_inName inside)
        (ne_of_inName inside rfl) joins
      obtain ⟨more, rfl⟩ := List.head?_eq_some_iff.mp head
      obtain ⟨parsed, trailing⟩ := parsed_of_statement? scanned
      rw [joins.joinLines_eq] at parsed
      obtain ⟨n, t, split, name, ends, named⟩ := exists_name_of_line inside parsed
      rw [split] at joins
      obtain ⟨w, Y, whole, spells, joins⟩ :=
        exists_spells joins (fun d => inName_of_isName name) name.last
      have head : w.head? = n.head? := by
        obtain ⟨d, w, rfl⟩ := List.exists_cons_of_ne_nil spells.ne_nil
        obtain ⟨e, n, rfl⟩ := List.exists_cons_of_ne_nil name.ne_nil
        rw [List.head?_cons, List.head?_cons, ← (List.cons.inj whole).1,
          (List.cons.inj split).1]
      rw [whole, spells.splitStatement] at trailing
      obtain ⟨X, rfl⟩ := (endsAtLine_of_trailingHashes trailing).suffix
      refine ⟨w, n, X, whole, ⟨name, spells, head⟩, fun other joins' => ?_, named⟩
      rw [joins'.unique joins]
      exact ends

/-! ## Lines with a bare name -/

theorem endsName_nil : EndsName [] := by
  intro c none
  cases none

theorem endsName_newline : EndsName ['\n'] := by
  intro c first
  cases first
  rfl

theorem Spells.of_isName (name : IsName n) : Spells n n := by
  have all : ∀ c ∈ n, inName c = true := fun c => inName_of_isName name
  have last := name.last
  clear name
  induction n with
  | nil =>
      obtain ⟨c, none, -⟩ := last
      cases none
  | cons c n ih =>
      have others := (List.forall_mem_cons.mp all).2
      cases n with
      | nil =>
          obtain ⟨d, same, letter⟩ := last
          cases same
          exact .last letter
      | cons d n =>
          rw [List.getLast?_cons_cons] at last
          exact .char (all c List.mem_cons_self) (ih others last)

theorem NameText.of_isName (name : IsName n) : NameText n n :=
  ⟨name, .of_isName name, rfl⟩

theorem lineEnds_name (name : IsName n) : lineEnds n = 0 :=
  lineEnds_eq_zero fun _ inside => not_break_of_inName (inName_of_isName name inside)

/-- The requirement that a name makes alone. -/
def bareRequirement (n : List Char) : Requirement where
  name := ⟨String.ofList (collapse n)⟩
  extras := []
  source := .any
  marker := .leaf true

/-- On a line of its own a name is an entry, unless it looks like the file name of an archive. -/
theorem statement?_bareName (name : IsName n) : statement? (n ++ ['\n']) =
    if looksLikeArchive n then some (.error (.invalidRequirement (n ++ ['\n'])))
    else some (.ok (.requirement (bareRequirement n) [], [])) := by
  have split : splitStatement ['\n'] = ([], .line, []) := splitStatement_lineEnd .lf
  have line : Joins (splitStatement ['\n']).1 [] := by
    rw [split]
    exact .nil
  have parsed : Requirement.parse? (n ++ trimEnd []) =
      if looksLikeArchive n then none else some (bareRequirement n) := by
    rw [show trimEnd [] = [] from rfl, parse?_name name endsName_nil]
    cases looksLikeArchive n <;> rfl
  have named : isUnnamed (n ++ ['\n']) = false := by
    rw [isUnnamed_name name endsName_newline (by decide)]
    rfl
  rw [statement?_nameText (.of_isName name), named, requirement_nameText (.of_isName name) line,
    split, parsed]
  cases looksLikeArchive n <;> rfl

end PinFloor
