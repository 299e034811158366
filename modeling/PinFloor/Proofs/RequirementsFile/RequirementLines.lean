import PinFloor.Proofs.Requirement.TrailingBlanks
import PinFloor.Proofs.RequirementsFile.Loading
import PinFloor.Proofs.RequirementsFile.UrlComments

/-! # Requirements on lines of their own

A text that can be read as a requirement is an entry wherever it stands on a line, with blanks around
it and with a comment behind it, if no comment and no option starts within it. It is an entry without
a name only where a URL is in a comment that directly follows its parenthesis.
-/

namespace PinFloor

open Scanner

/-- A text of one line in which no comment and no option starts. -/
structure Uninterrupted (t : List Char) : Prop where
  oneLine : ∀ c ∈ t, isBreak c = false
  noComment : ∀ gap, isGap gap = true → ¬ [gap, '#'] <:+: t
  noOption : ∀ gap, isGap gap = true → ¬ [gap, '-', '-'] <:+: t

/-- The end of a text, or the line end before it. -/
inductive EndsText : List Char → Prop where
  | nil : EndsText []
  | lineEnd {mark : List Char} : LineEnd mark [] → EndsText mark

/-- Blanks at the end of a line, and a comment that may follow one of them. -/
inductive Closes : List Char → Prop where
  | blanks {gaps mark : List Char} : (∀ c ∈ gaps, isGap c = true) → EndsText mark →
      Closes (gaps ++ mark)
  | comment {gaps comment mark : List Char} : (∀ c ∈ gaps, isGap c = true) → gaps ≠ [] →
      (∀ c ∈ comment, isBreak c = false) → EndsText mark →
      Closes (gaps ++ '#' :: (comment ++ mark))

variable {t s tail gaps cs rest : List Char} {c : Char}

theorem Uninterrupted.of_isInfix (text : Uninterrupted t) (part : s <:+: t) : Uninterrupted s where
  oneLine c inside := text.oneLine c (part.subset inside)
  noComment gap isGap within := text.noComment gap isGap (within.trans part)
  noOption gap isGap within := text.noOption gap isGap (within.trans part)

theorem isBlank_of_isGap (gap : isGap c = true) : isBlank c = true := by
  have blank : c = ' ' ∨ c = '\t' := by simpa [isGap] using gap
  rcases blank with rfl | rfl <;> rfl

theorem not_break_of_isGap (gap : isGap c = true) : isBreak c = false := by
  have blank : c = ' ' ∨ c = '\t' := by simpa [isGap] using gap
  rcases blank with rfl | rfl <;> rfl

theorem not_gap_of_visible (visible : isBlank c = false) : isGap c = false :=
  Bool.eq_false_iff.mpr fun gap => Bool.false_ne_true (visible.symm.trans (isBlank_of_isGap gap))

theorem not_break_of_visible (visible : isBlank c = false) : isBreak c = false := by
  refine Bool.eq_false_iff.mpr fun isEnd => ?_
  rcases break_cases isEnd with rfl | rfl <;> cases visible

/-! ## Blanks -/

namespace Scanner

theorem skipGap_append (blanks : ∀ c ∈ gaps, isGap c = true) (cs : List Char) :
    skipGap (gaps ++ cs) = skipGap cs := by
  induction gaps with
  | nil => rfl
  | cons c gaps ih =>
      obtain ⟨first, others⟩ := List.forall_mem_cons.mp blanks
      rw [List.cons_append, skipGap_gap first, ih others]

theorem gapOf_append (blanks : ∀ c ∈ gaps, isGap c = true) (none : skipGap cs = cs) :
    gapOf (gaps ++ cs) = gaps := by
  induction gaps with
  | nil => exact gapOf_none none
  | cons c gaps ih =>
      obtain ⟨first, others⟩ := List.forall_mem_cons.mp blanks
      rw [List.cons_append, gapOf_gap first, ih others]

theorem splitStatement_of_blanks (blanks : ∀ c ∈ gaps, isGap c = true) (some : gaps ≠ [])
    (none : skipGap cs = cs) : splitStatement (gaps ++ cs) =
      if ['-', '-'].isPrefixOf cs then ([], .options, cs)
      else if ['#'].isPrefixOf cs then ([], .line, skipLine cs)
      else (gaps ++ (splitStatement cs).1, (splitStatement cs).2) := by
  have start : afterGap? (gaps ++ cs) = .some (skipGap (gaps ++ cs)) := by
    cases gaps with
    | nil => exact absurd rfl some
    | cons c gaps => exact afterGap?_of_gap (blanks c List.mem_cons_self) (gaps ++ cs)
  rw [splitStatement_gap start, skipGap_append blanks, none, gapOf_append blanks none]

/-- A blank within the text of a statement is part of it. -/
theorem splitStatement_blank (gap : isGap c = true)
    (noOption : ['-', '-'].isPrefixOf (skipGap cs) = false)
    (noComment : ['#'].isPrefixOf (skipGap cs) = false) :
    splitStatement (c :: cs) = (c :: (splitStatement cs).1, (splitStatement cs).2) := by
  rw [splitStatement_gap (afterGap?_of_gap gap cs), skipGap_gap gap, noOption, noComment,
    gapOf_gap gap]
  by_cases shorter : (skipGap cs).length < cs.length
  · rw [splitStatement_gap (afterGap?_of_lt shorter), noOption, noComment]
    rfl
  · have same : skipGap cs = cs := (skipGap_suffix cs).eq_of_length_le (Nat.not_lt.mp shorter)
    rw [gapOf_none same, same]
    rfl

end Scanner

theorem EndsText.skipGap_eq {mark : List Char} (ends : EndsText mark) : skipGap mark = mark := by
  cases ends with
  | nil => rfl
  | lineEnd ends => exact skipGap_lineEnd ends

theorem EndsText.splitStatement_eq {mark : List Char} (ends : EndsText mark) :
    splitStatement mark = ([], .line, []) := by
  cases ends with
  | nil => exact splitStatement_nil
  | lineEnd ends => exact splitStatement_lineEnd ends

/-! ## The text of a requirement -/

namespace Uninterrupted

/-- The gap within a text is followed by more of the text, where no option and no comment starts. -/
theorem not_option_of_gap (text : Uninterrupted (c :: t)) (gap : isGap c = true)
    (last : ∀ d, (c :: t).getLast? = some d → isGap d = false)
    (single : (c :: t).getLast? = some '\\' → startsBreak tail = false)
    (dash : tail.head? ≠ some '-') : ['-', '-'].isPrefixOf (skipGap (t ++ tail)) = false ∧
      ['#'].isPrefixOf (skipGap (t ++ tail)) = false := by
  induction t generalizing c with
  | nil =>
      rw [last c rfl] at gap
      cases gap
  | cons d t ih =>
      cases next : isGap d with
      | true =>
          rw [List.cons_append, skipGap_gap next]
          exact ih (text.of_isInfix (List.suffix_cons c _).isInfix) next last single
      | false =>
          have opens : d = '\\' → startsBreak (t ++ tail) = false := by
            rintro rfl
            cases t with
            | nil => exact single rfl
            | cons e t => exact text.oneLine e (by simp)
          rw [List.cons_append, skipGap_plain next opens]
          refine ⟨Bool.eq_false_iff.mpr fun option => ?_, Bool.eq_false_iff.mpr fun comment => ?_⟩
          · obtain ⟨more, start⟩ := List.isPrefixOf_iff_prefix.mp option
            cases t with
            | nil =>
                cases start
                exact dash rfl
            | cons e t =>
                cases start
                exact text.noOption c gap ⟨[], t, rfl⟩
          · obtain ⟨more, start⟩ := List.isPrefixOf_iff_prefix.mp comment
            cases start
            exact text.noComment c gap ⟨[], t, rfl⟩

theorem splitStatement_eq (text : Uninterrupted t)
    (last : ∀ d, t.getLast? = some d → isGap d = false)
    (single : t.getLast? = some '\\' → startsBreak tail = false)
    (dash : tail.head? ≠ some '-') :
    splitStatement (t ++ tail) = (t ++ (splitStatement tail).1, (splitStatement tail).2) := by
  induction t with
  | nil => rfl
  | cons c t ih =>
      have rest : splitStatement (t ++ tail) = (t ++ (splitStatement tail).1, (splitStatement tail).2) := by
        cases t with
        | nil => rfl
        | cons d t => exact ih (text.of_isInfix (List.suffix_cons c _).isInfix) last single
      cases gap : isGap c with
      | true =>
          obtain ⟨noOption, noComment⟩ := text.not_option_of_gap gap last single dash
          rw [List.cons_append, splitStatement_blank gap noOption noComment, rest]
          rfl
      | false =>
          have plain : isBreak c = false := text.oneLine c List.mem_cons_self
          have opens : c = '\\' → startsBreak (t ++ tail) = false := by
            rintro rfl
            cases t with
            | nil => exact single rfl
            | cons d t => exact text.oneLine d (by simp)
          rw [List.cons_append,
            splitStatement_plain plain (afterGap?_of_eq (skipGap_plain gap opens)), rest]
          rfl

end Uninterrupted

theorem Joins.of_oneLine (oneLine : ∀ c ∈ t, isBreak c = false) : Joins t t := by
  induction t with
  | nil => exact .nil
  | cons c t ih =>
      obtain ⟨first, others⟩ := List.forall_mem_cons.mp oneLine
      exact .char first (ih others)

/-- What follows a requirement. The text of the requirement ends before it, and before the blanks at
    its own end. -/
structure Follows (tail : List Char) (ending : Ending) (rest : List Char) : Prop where
  split : ∀ gaps, (∀ c ∈ gaps, isGap c = true) →
    ∃ kept, (∀ c ∈ kept, isGap c = true) ∧ splitStatement (gaps ++ tail) = (kept, ending, rest)
  blank : ∀ c, tail.head? = some c → isBlank c = true

theorem EndsText.not_isPrefixOf {mark w : List Char} (ends : EndsText mark)
    (plain : isBreak c = false) : (c :: w).isPrefixOf mark = false := by
  cases ends with
  | nil => rfl
  | lineEnd ends => exact not_isPrefixOf_lineEnd plain ends

theorem EndsText.isBlank_head {mark : List Char} (ends : EndsText mark)
    (first : mark.head? = some c) : isBlank c = true := by
  cases ends with
  | nil => cases first
  | lineEnd ends =>
      have isEnd := ends.startsBreak
      rw [startsBreak, first] at isEnd
      rcases break_cases isEnd with rfl | rfl <;> rfl

theorem EndsText.skipLine_eq {comment mark : List Char} (ends : EndsText mark)
    (oneLine : ∀ c ∈ comment, isBreak c = false) : skipLine (comment ++ mark) = [] := by
  induction comment with
  | nil =>
      cases ends with
      | nil => rfl
      | lineEnd ends => exact skipLine_lineEnd ends
  | cons c comment ih =>
      obtain ⟨first, others⟩ := List.forall_mem_cons.mp oneLine
      rw [List.cons_append, skipLine_cons first, ih others]

theorem isBlank_head_append (blanks : ∀ c ∈ gaps, isGap c = true)
    (blank : ∀ c, cs.head? = some c → isBlank c = true) (first : (gaps ++ cs).head? = some c) :
    isBlank c = true := by
  cases gaps with
  | nil => exact blank c first
  | cons d gaps =>
      cases first
      exact isBlank_of_isGap (blanks c List.mem_cons_self)

theorem Closes.follows (closes : Closes tail) : Follows tail .line [] := by
  cases closes with
  | @blanks inner mark blanks ends =>
      refine ⟨fun gaps before => ⟨gaps ++ inner, ?_, ?_⟩, fun c first =>
        isBlank_head_append blanks (fun _ => ends.isBlank_head) first⟩
      · exact List.forall_mem_append.mpr ⟨before, blanks⟩
      · rw [← List.append_assoc]
        by_cases some : gaps ++ inner = []
        · rw [some, List.nil_append, ends.splitStatement_eq]
        · rw [splitStatement_of_blanks (List.forall_mem_append.mpr ⟨before, blanks⟩) some
            ends.skipGap_eq, ends.not_isPrefixOf rfl, ends.not_isPrefixOf rfl,
            ends.splitStatement_eq]
          simp
  | @comment inner comment mark blanks some oneLine ends =>
      refine ⟨fun gaps before => ⟨[], by simp, ?_⟩, fun c first => ?_⟩
      · have start : skipGap ('#' :: (comment ++ mark)) = '#' :: (comment ++ mark) :=
          skipGap_plain rfl fun slash => absurd slash (by decide)
        have more : gaps ++ inner ≠ [] := fun none => some (List.append_eq_nil_iff.mp none).2
        rw [← List.append_assoc, splitStatement_of_blanks
          (List.forall_mem_append.mpr ⟨before, blanks⟩) more start, skipLine_cons rfl,
          ends.skipLine_eq oneLine]
        rfl
      · cases inner with
        | nil => exact absurd rfl some
        | cons d inner =>
            cases first
            exact isBlank_of_isGap (blanks c List.mem_cons_self)

/-- A text ends in blanks behind a part that does not. -/
theorem exists_gaps (t : List Char) : ∃ s gaps, t = s ++ gaps ∧ (∀ c ∈ gaps, isGap c = true) ∧
    ∀ d, s.getLast? = some d → isGap d = false := by
  refine ⟨(t.reverse.dropWhile isGap).reverse, (t.reverse.takeWhile isGap).reverse, ?_, ?_, ?_⟩
  · rw [← List.reverse_append, List.takeWhile_append_dropWhile, List.reverse_reverse]
  · intro c inside
    exact List.mem_takeWhile_imp (List.mem_reverse.mp inside)
  · intro d last
    have stop := List.head?_dropWhile_not isGap t.reverse
    rw [List.getLast?_reverse] at last
    rw [last] at stop
    simpa using stop

namespace Uninterrupted

variable {ending : Ending} {r : Requirement} {hashes : List String} {left : List Char}

/-- The text of a statement, where it stands. -/
theorem exists_split (text : Uninterrupted t) (follows : Follows tail ending rest)
    (single : t.getLast? = some '\\' → startsBreak tail = false)
    (letter : ∃ c, t.head? = some c ∧ c.isAlphanum = true) : ∃ whole,
      splitStatement (t ++ tail) = (whole, ending, rest) ∧ joinLines whole = trimEnd t := by
  obtain ⟨s, gaps, rfl, blanks, last⟩ := exists_gaps t
  obtain ⟨kept, keptBlanks, split⟩ := follows.split gaps blanks
  have within : Uninterrupted s := text.of_isInfix (List.prefix_append s gaps).isInfix
  have opens : s.getLast? = some '\\' → startsBreak (gaps ++ tail) = false := by
    intro slash
    cases gaps with
    | nil => exact single (by rw [List.append_nil, slash])
    | cons g gaps => exact not_break_of_isGap (blanks g List.mem_cons_self)
  have dash : (gaps ++ tail).head? ≠ some '-' := by
    intro dash
    cases isBlank_head_append blanks follows.blank dash
  refine ⟨s ++ kept, by rw [List.append_assoc, within.splitStatement_eq last opens dash, split], ?_⟩
  have oneLine : ∀ c ∈ s ++ kept, isBreak c = false := List.forall_mem_append.mpr
    ⟨within.oneLine, fun c inside => not_break_of_isGap (keptBlanks c inside)⟩
  have start : trimStart (s ++ kept) = s ++ kept := by
    obtain ⟨c, first, letter⟩ := letter
    have visible := Requirement.not_blank_of_inName (Requirement.inName_of_alphanum letter)
    cases s with
    | nil =>
        rw [isBlank_of_isGap (blanks c (List.mem_of_head? first))] at visible
        cases visible
    | cons d s =>
        cases first
        exact List.dropWhile_cons_of_neg (by simp [visible])
  rw [(Joins.of_oneLine oneLine).joinLines_eq, trim, start,
    trimEnd_append_blanks fun c inside => isBlank_of_isGap (keptBlanks c inside),
    trimEnd_append_blanks fun c inside => isBlank_of_isGap (blanks c inside)]

theorem isUnnamed_eq (follows : Follows tail ending rest) :
    isUnnamed (t ++ tail) = isUnnamed t := by
  have word : firstWord (t ++ tail) = firstWord t := by
    have nothing : tail.takeWhile (fun c => !isBlank c && c ≠ ';') = [] := by
      cases tail with
      | nil => rfl
      | cons c tail => simp [follows.blank c rfl]
    rw [firstWord, List.takeWhile_append, nothing, List.append_nil]
    split
    · next whole => exact ((List.takeWhile_prefix _).eq_of_length whole).symm
    · rfl
  rw [firstWord, firstWord] at word
  rw [isUnnamed, isUnnamed, word]

/-- A text that can be read as a requirement is one where it stands, unless it looks like a URL. -/
theorem statement?_eq (text : Uninterrupted t) (follows : Follows tail ending rest)
    (single : t.getLast? = some '\\' → startsBreak tail = false)
    (letter : ∃ c, t.head? = some c ∧ c.isAlphanum = true)
    (parsed : Requirement.parse? t = some r)
    (trailing : trailingHashes ending rest = .ok (hashes, left)) :
    (¬ HasUrlComment t → statement? (t ++ tail) = some (.ok (.requirement r hashes, left))) ∧
      (HasUrlComment t →
        statement? (t ++ tail) = some (.ok (.unnamed (String.ofList (trimEnd t)), left))) := by
  obtain ⟨whole, split, joined⟩ := text.exists_split follows single letter
  have target := isUnnamed_eq (t := t) follows
  obtain ⟨c, first, alphanum⟩ := letter
  obtain ⟨more, rfl⟩ := List.head?_eq_some_iff.mp first
  have option : c ≠ '-' := ne_of_alphanum alphanum rfl
  have shape : statement? (c :: more ++ tail) = if isUnnamed (c :: more) then
      some (unnamed (c :: more ++ tail)) else some (requirement (c :: more ++ tail)) := by
    rw [← target, List.cons_append, statement?, if_neg option, if_pos alphanum]
  refine ⟨fun plain => ?_, fun looks => ?_⟩
  · have named : isUnnamed (c :: more) = false := Bool.eq_false_iff.mpr fun looks =>
      plain (Requirement.hasUrlComment_of_isUnnamed ⟨c, rfl, alphanum⟩ parsed looks)
    rw [shape, named, requirement_eq, split, joined, Requirement.parse?_trimEnd parsed]
    simp only [trailing]
    rfl
  · rw [shape, isUnnamed_of_hasUrlComment looks, if_pos rfl, unnamed_eq, split, joined]
    simp only [trailing]
    rfl

end Uninterrupted

/-! ## A file of one statement -/

namespace RequirementsFile

variable {statement : Statement}

/-- A text with one statement says what this statement says. -/
theorem loadText_statement (fs : FileSystem) (path : Path) (start : skipTrivia cs = t)
    (scanned : statement? t = some (.ok (statement, [])))
    (plain : ∀ kind name, statement ≠ .include kind name) : loadText fs cs path =
      .silent (.ok (Loading.single path (Position.ofRest cs t).line statement)) := by
  rw [loadText, Script.read, Script.readFrom_of_ok (start ▸ scanned), start, Script.readFrom_nil]
  simp only [Script.cons]
  rw [Loading.ofStatements_cons, Loading.ofStatements_nil]
  cases statement with
  | «include» kind name => exact absurd rfl (plain kind name)
  | requirement | editable | unnamed | option =>
      simp only [Loading.ofStatement, Told.silent_andThen]
      simp only [Told.map, Told.silent, Except.map, merge_empty]

/-- Blanks before a statement do not matter. -/
theorem loadText_indented (fs : FileSystem) (path : Path) (blanks : ∀ c ∈ gaps, isGap c = true)
    (letter : ∃ c, t.head? = some c ∧ c.isAlphanum = true)
    (scanned : statement? t = some (.ok (statement, [])))
    (plain : ∀ kind name, statement ≠ .include kind name) :
    loadText fs (gaps ++ t) path = .silent (.ok (Loading.single path 1 statement)) := by
  have start : skipTrivia (gaps ++ t) = t := by
    obtain ⟨c, first, letter⟩ := letter
    obtain ⟨more, rfl⟩ := List.head?_eq_some_iff.mp first
    have inside := Requirement.inName_of_alphanum letter
    refine skipTrivia_of_other ?_ (not_break_of_inName inside) (Requirement.ne_of_inName inside rfl)
    rw [skipGap_append blanks, skipGap_inName inside]
  rw [loadText_statement fs path start scanned plain, Position.line_ofRest,
    lineEnds_eq_zero fun c inside => not_break_of_isGap (blanks c inside)]

end RequirementsFile

/-- On a line of its own, with blanks around it and a comment behind it, a text that can be read as a
    requirement is an entry with just this requirement, whatever its extras, its URL, its parentheses
    and its marker are. Only where a comment directly follows its parenthesis, and a URL is in the
    first word of this comment, it is an entry without a name. -/
theorem named_unless_url_comment (fs : FileSystem) (path : Path) {t lead tail : List Char}
    {r : Requirement} (letter : ∃ c, t.head? = some c ∧ c.isAlphanum = true)
    (text : Uninterrupted t) (single : t.getLast? ≠ some '\\')
    (parsed : Requirement.parse? t = some r) (blanks : ∀ c ∈ lead, isGap c = true)
    (closes : Closes tail) :
    (¬ HasUrlComment t → RequirementsFile.loadText fs (lead ++ (t ++ tail)) path =
      .silent (.ok { requirements := [⟨r, [], ⟨path, 1⟩⟩] })) ∧
    (HasUrlComment t → RequirementsFile.loadText fs (lead ++ (t ++ tail)) path =
      .silent (.ok { unnamed := [⟨String.ofList (trimEnd t), ⟨path, 1⟩⟩] })) := by
  obtain ⟨named, target⟩ := text.statement?_eq closes.follows (fun slash => absurd slash single)
    letter parsed rfl
  have letter' : ∃ c, (t ++ tail).head? = some c ∧ c.isAlphanum = true := by
    obtain ⟨c, first, letter⟩ := letter
    exact ⟨c, by rw [List.head?_append, first, Option.some_or], letter⟩
  refine ⟨fun plain => ?_, fun looks => ?_⟩
  · exact RequirementsFile.loadText_indented fs path blanks letter' (named plain) nofun
  · exact RequirementsFile.loadText_indented fs path blanks letter' (target looks) nofun

theorem not_hasUrlComment_of_no_hash (absent : '#' ∉ t) : ¬ HasUrlComment t := by
  rintro ⟨front, comment, rfl, -⟩
  exact absent (by simp)

theorem Uninterrupted.of_any (oneLine : t.any isBreak = false)
    (space : ¬ [' ', '#'] <:+: t ∧ ¬ [' ', '-', '-'] <:+: t)
    (tab : ¬ ['\t', '#'] <:+: t ∧ ¬ ['\t', '-', '-'] <:+: t) : Uninterrupted t where
  oneLine c inside := by simpa using List.any_eq_false.mp oneLine c inside
  noComment gap isGap := by
    have blank : gap = ' ' ∨ gap = '\t' := by simpa [Scanner.isGap] using isGap
    rcases blank with rfl | rfl
    · exact space.1
    · exact tab.1
  noOption gap isGap := by
    have blank : gap = ' ' ∨ gap = '\t' := by simpa [Scanner.isGap] using isGap
    rcases blank with rfl | rfl
    · exact space.2
    · exact tab.2

/-- A requirement with an extra, a URL of a user's, and a marker. -/
theorem named_with_user_url :
    let t := ['f', '[', 'b', ']', '@', 'h', 't', 't', 'p', ':', '/', '/', 'u', '@', 'h', '/', 'x',
      ' ', ';', 'o', 's', '_', 'n', 'a', 'm', 'e', '=', '=', '\'', 'a', '\'']
    let r : Requirement := ⟨⟨"f"⟩, [⟨"b"⟩], .url ⟨"http://u@h/x"⟩,
      .node (.text .osName (.before "a")) (.leaf false)
        (.node (.text .osName (.after "a")) (.leaf true) (.leaf false))⟩
    (Uninterrupted t ∧ Requirement.parse? t = some r ∧ ¬ HasUrlComment t) ∧
      RequirementsFile.loadText ⟨[], []⟩ ([' '] ++ (t ++ [' ', '#', 'c', '\n'])) ⟨"r"⟩
        = .silent (.ok { requirements := [⟨r, [], ⟨⟨"r"⟩, 1⟩⟩] }) := by
  intro t r
  have text : Uninterrupted t :=
    .of_any (by decide) (by decide +kernel) (by decide +kernel)
  have parsed : Requirement.parse? t = some r := by cbv
  have plain : ¬ HasUrlComment t := not_hasUrlComment_of_no_hash (by decide +kernel)
  have closes : Closes ([' '] ++ '#' :: (['c'] ++ ['\n'])) :=
    .comment (List.all_eq_true.mp (by decide)) (by decide) (by simp [isBreak]) (.lineEnd .lf)
  exact ⟨⟨text, parsed, plain⟩, (named_unless_url_comment _ _ ⟨'f', rfl, by decide⟩ text
    (by decide +kernel) parsed (List.all_eq_true.mp (by decide)) closes).1 plain⟩

/-- `foo(>=1)#://x` is a requirement with a comment, and an entry without a name. -/
theorem url_comment_not_named :
    let t := ['f', 'o', 'o', '(', '>', '=', '1', ')', '#', ':', '/', '/', 'x']
    (Uninterrupted t ∧ t.getLast? ≠ some '\\' ∧ Requirement.parse? t
        = some ⟨⟨"foo"⟩, [], .specifiers [⟨.atLeast, .ofRelease [1]⟩], .leaf true⟩) ∧
      RequirementsFile.loadText ⟨[], []⟩ (t ++ ['\n']) ⟨"r"⟩
        = .silent (.ok { unnamed := [⟨"foo(>=1)#://x", ⟨⟨"r"⟩, 1⟩⟩] }) := by
  intro t
  have text : Uninterrupted t :=
    .of_any (by decide) (by decide +kernel) (by decide +kernel)
  have parsed : Requirement.parse? t
      = some ⟨⟨"foo"⟩, [], .specifiers [⟨.atLeast, .ofRelease [1]⟩], .leaf true⟩ := by cbv
  have closes : Closes ([] ++ ['\n']) := .blanks (by simp) (.lineEnd .lf)
  have looks : HasUrlComment t :=
    ⟨['f', 'o', 'o', '(', '>', '=', '1'], [':', '/', '/', 'x'], rfl,
      List.all_eq_true.mp (by decide), by decide⟩
  have single : t.getLast? ≠ some '\\' := by decide +kernel
  have scanned := (text.statement?_eq closes.follows (fun slash => absurd slash single)
    ⟨'f', rfl, by decide⟩ parsed rfl).2 looks
  have blanks : ∀ c ∈ [], isGap c = true := by simp
  exact ⟨⟨text, single, parsed⟩,
    RequirementsFile.loadText_indented _ _ blanks ⟨'f', rfl, by decide⟩ scanned (by simp)⟩

end PinFloor
