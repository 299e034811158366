import PinFloor.Proofs.Text.Lines

/-! # The scanner at a character and at a line end

The parts of the scanner stop at a line end and go on at other characters; a `\` before a line end
is skipped together with it. So the text of a statement on several lines stands for one line, which
is the text without the joined line ends, whichever way they are written.
-/

namespace PinFloor.Scanner

variable {c : Char} {cs rest after text line : List Char} {p : Char → Bool}

/-! ## Gaps, words and lines -/

theorem skipGap_gap (gap : isGap c = true) (cs : List Char) : skipGap (c :: cs) = skipGap cs := by
  have blank : c = ' ' ∨ c = '\t' := by simpa [isGap] using gap
  rcases blank with rfl | rfl <;> rw [skipGap]

theorem skipGap_plain (plain : isGap c = false) (single : c = '\\' → startsBreak cs = false) :
    skipGap (c :: cs) = c :: cs := by
  rw [skipGap.eq_def]
  split <;> simp_all [isGap, isBreak]

theorem skipGap_lineEnd (ends : LineEnd cs rest) : skipGap cs = cs := by
  cases ends <;> simp [skipGap]

theorem skipGap_joined (ends : LineEnd cs rest) : skipGap ('\\' :: cs) = skipGap rest := by
  cases ends with
  | lf | crlf => simp [skipGap]
  | cr single =>
      rw [skipGap]
      exact fun tail same => single (same ▸ rfl)

theorem length_le_of_skipGap (start : skipGap cs = after) : after.length ≤ cs.length :=
  start ▸ length_skipGap_le cs

theorem skipBreak_lineEnd (ends : LineEnd cs rest) : skipBreak cs = rest := by
  cases ends with
  | lf | crlf => rfl
  | cr single =>
      rw [skipBreak]
      exact fun tail same => single (same ▸ rfl)

/-- A predicate that no character of a line end satisfies. -/
def StopsAtBreak (p : Char → Bool) : Prop :=
  ∀ c, isBreak c = true → p c = false

theorem StopsAtBreak.takeWhile (stops : StopsAtBreak p) (ends : LineEnd cs rest) :
    cs.takeWhile p = [] := by
  cases ends <;> simp [stops '\n' rfl, stops '\r' rfl]

theorem StopsAtBreak.dropWhile (stops : StopsAtBreak p) (ends : LineEnd cs rest) :
    cs.dropWhile p = cs := by
  cases ends <;> simp [stops '\n' rfl, stops '\r' rfl]

theorem stopsAtBreak_isGap : StopsAtBreak isGap := by
  intro c isEnd
  rcases break_cases isEnd with rfl | rfl <;> rfl

theorem StopsAtBreak.of_blank (stops : ∀ c, isBlank c = true → p c = false) : StopsAtBreak p := by
  intro c isEnd
  refine stops c ?_
  rcases break_cases isEnd with rfl | rfl <;> rfl

theorem stopsAtBreak_notBlank : StopsAtBreak (!isBlank ·) :=
  .of_blank fun c blank => by simp [blank]

theorem stopsAtBreak_inFileName : StopsAtBreak inFileName := by
  intro c isEnd
  simp [inFileName, isEnd]

theorem not_isPrefixOf_lineEnd {w : List Char} (plain : isBreak c = false)
    (ends : LineEnd cs rest) : (c :: w).isPrefixOf cs = false := by
  have newline := ne_newline_of_not_break plain
  have ret := ne_return_of_not_break plain
  cases ends <;> simp [List.isPrefixOf, newline, ret]

theorem skipLine_cons (plain : isBreak c = false) (cs : List Char) :
    skipLine (c :: cs) = skipLine cs := by
  simp [skipLine, plain]

theorem skipLine_lineEnd (ends : LineEnd cs rest) : skipLine cs = rest := by
  have stops : StopsAtBreak (!isBreak ·) := fun c isEnd => by simp [isEnd]
  rw [skipLine, stops.dropWhile ends, skipBreak_lineEnd ends]

theorem endLine_of_nil (start : cs.dropWhile isGap = []) : endLine cs = .ok ((), []) := by
  simp [endLine, start]

theorem endLine_of_comment (start : cs.dropWhile isGap = '#' :: rest) :
    endLine cs = .ok ((), skipLine rest) := by
  simp [endLine, start]

theorem endLine_of_lineEnd (start : cs.dropWhile isGap = after) (ends : LineEnd after rest) :
    endLine cs = .ok ((), rest) := by
  rw [endLine]
  cases ends <;> split <;> grind

theorem endLine_of_other (start : cs.dropWhile isGap = c :: rest) (plain : isBreak c = false)
    (other : c ≠ '#') : endLine cs = .error (.malformed (.trailing c) (c :: rest)) := by
  rw [endLine, start]
  split <;> simp_all [isBreak]

theorem skipTrivia_of_comment (start : skipGap cs = '#' :: rest) :
    skipTrivia cs = skipTrivia (skipLine rest) := by
  rw [skipTrivia]
  split <;> simp_all

theorem skipTrivia_of_lineEnd (start : skipGap cs = after) (ends : LineEnd after rest) :
    skipTrivia cs = skipTrivia rest := by
  rw [skipTrivia]
  cases ends <;> split <;> grind

theorem skipTrivia_of_nil (start : skipGap cs = []) : skipTrivia cs = [] := by
  rw [skipTrivia]
  split <;> simp_all

theorem skipTrivia_of_other (start : skipGap cs = c :: rest) (plain : isBreak c = false)
    (other : c ≠ '#') : skipTrivia cs = c :: rest := by
  have newline := ne_newline_of_not_break plain
  have ret := ne_return_of_not_break plain
  rw [skipTrivia]
  split <;> grind

theorem startsBreak_skipTrivia (cs : List Char) : startsBreak (skipTrivia cs) = false := by
  fun_induction skipTrivia cs with
  | case1 _ _ _ ih | case2 _ _ _ ih | case3 _ _ _ ih | case4 _ _ _ _ ih => exact ih
  | case5 cs comment newline _ ret =>
      cases start : skipGap cs with
      | nil => rfl
      | cons c rest => simp_all [isBreak]

theorem value_of_gap (gap : isGap c = true) (cs : List Char) : value p (c :: cs) =
    finishValue (((c :: cs).dropWhile isGap).takeWhile p)
      (((c :: cs).dropWhile isGap).dropWhile p) := by
  have blank : c = ' ' ∨ c = '\t' := by simpa [isGap] using gap
  rcases blank with rfl | rfl <;> rfl

theorem span_append {w r : List Char} (inside : ∀ c ∈ w, p c = true)
    (stops : ∀ c, r.head? = some c → p c = false) :
    (w ++ r).takeWhile p = w ∧ (w ++ r).dropWhile p = r := by
  rw [List.takeWhile_append_of_pos inside, List.dropWhile_append_of_pos inside]
  cases r with
  | nil => simp
  | cons c r => simp [stops c rfl]

theorem value_of_gaps {gap : List Char} (gaps : ∀ c ∈ gap, isGap c = true) (some : gap ≠ [])
    (stops : ∀ c, cs.head? = .some c → isGap c = false) :
    value p (gap ++ cs) = finishValue (cs.takeWhile p) (cs.dropWhile p) := by
  have start := (span_append gaps stops).2
  obtain ⟨c, gap, rfl⟩ := List.exists_cons_of_ne_nil some
  rw [List.cons_append] at start ⊢
  rw [value_of_gap (gaps c List.mem_cons_self), start]

theorem not_separator_of_lineEnd (ends : LineEnd cs rest) (c : Char) (head : cs.head? = some c) :
    c ≠ '=' ∧ isGap c = false := by
  cases ends <;> cases head <;> decide

theorem value_of_refused (other : ∀ c, cs.head? = some c → c ≠ '=' ∧ isGap c = false) :
    value p cs = .error (.malformed (.missingSeparator cs.head?) cs) := by
  rw [value]
  all_goals
    rintro rest rfl
    have refused := other _ rfl
    simp [isGap] at refused

/-! ## Joined lines -/

/-- A text that stands for one line: each line end in it comes after a `\`, and the line is the text
    without these. -/
inductive Joins : List Char → List Char → Prop where
  | nil : Joins [] []
  | char {c : Char} {text line : List Char} : isBreak c = false → Joins text line →
      Joins (c :: text) (c :: line)
  | lineEnd {cs text line : List Char} : LineEnd cs text → Joins text line →
      Joins ('\\' :: cs) line

theorem Joins.startsBreak_eq_false (joins : Joins text line) : startsBreak text = false := by
  cases joins with
  | nil | lineEnd => rfl
  | char plain => exact plain

theorem joinCrLf_cons (c : Char) (opens : startsBreak cs = false) :
    joinCrLf (c :: cs) = c :: joinCrLf cs := by
  rw [joinCrLf]
  rintro tail rfl rfl
  cases opens

theorem joinLf_cons (c : Char) (opens : startsBreak cs = false) :
    joinLf (c :: cs) = c :: joinLf cs := by
  rw [joinLf]
  rintro tail rfl rfl
  cases opens

theorem joinCr_cons (c : Char) (opens : startsBreak cs = false) :
    joinCr (c :: cs) = c :: joinCr cs := by
  rw [joinCr]
  rintro tail rfl rfl
  cases opens

/-- Removing the three kinds of joined line ends one after the other removes all of them, and no
    step makes a new one: what is left never starts with half of one. -/
theorem Joins.removed (joins : Joins text line) :
    startsBreak (joinCrLf text) = false ∧ startsBreak (joinLf (joinCrLf text)) = false ∧
      joinCr (joinLf (joinCrLf text)) = line := by
  induction joins with
  | nil => exact ⟨rfl, rfl, rfl⟩
  | @char c text line plain joins ih =>
      obtain ⟨first, second, all⟩ := ih
      rw [joinCrLf_cons c joins.startsBreak_eq_false, joinLf_cons c first, joinCr_cons c second,
        all]
      exact ⟨plain, plain, rfl⟩
  | @lineEnd cs text line ends joins ih =>
      obtain ⟨first, second, all⟩ := ih
      have opens := joins.startsBreak_eq_false
      cases ends with
      | lf =>
          have kept : joinCrLf ('\\' :: '\n' :: text) = '\\' :: '\n' :: joinCrLf text := by
            simp [joinCrLf]
          rw [kept]
          exact ⟨rfl, second, all⟩
      | crlf => exact ⟨first, second, all⟩
      | cr single =>
          have kept : joinCrLf ('\\' :: '\r' :: text) = '\\' :: '\r' :: joinCrLf text := by
            rw [joinCrLf, joinCrLf_cons '\r' opens]
            exact fun tail _ same => single (by simp_all)
          have kept' : joinLf ('\\' :: '\r' :: joinCrLf text)
              = '\\' :: '\r' :: joinLf (joinCrLf text) := by
            simp [joinLf]
          rw [kept, kept']
          exact ⟨rfl, rfl, all⟩

theorem Joins.joinLines_eq (joins : Joins text line) : joinLines text = trim line := by
  rw [joinLines, joins.removed.2.2]

/-! ## The gap before the rest of a text -/

/-- The blanks and joined line ends that a text starts with. -/
def gapOf (cs : List Char) : List Char :=
  cs.take (cs.length - (skipGap cs).length)

theorem gapOf_none (none : skipGap cs = cs) : gapOf cs = [] := by
  simp [gapOf, none]

theorem gapOf_gap (gap : isGap c = true) (cs : List Char) : gapOf (c :: cs) = c :: gapOf cs := by
  have shorter := length_skipGap_le cs
  have more : cs.length + 1 - (skipGap cs).length = cs.length - (skipGap cs).length + 1 := by omega
  rw [gapOf, skipGap_gap gap, List.length_cons, more, List.take_succ_cons, gapOf]

theorem gapOf_joined {mark : List Char} (ends : LineEnd (mark ++ rest) rest) :
    gapOf ('\\' :: (mark ++ rest)) = '\\' :: (mark ++ gapOf rest) := by
  have shorter := length_skipGap_le rest
  have more : ('\\' :: (mark ++ rest)).length - (skipGap rest).length
      = mark.length + (rest.length - (skipGap rest).length) + 1 := by
    rw [List.length_cons, List.length_append]
    omega
  rw [gapOf, skipGap_joined ends, more, List.take_succ_cons, List.take_length_add_append, gapOf]

theorem Joins.joined_gap (ends : LineEnd cs rest) (joins : Joins (gapOf rest ++ text) line) :
    Joins (gapOf ('\\' :: cs) ++ text) line := by
  obtain ⟨mark, rfl, before⟩ := ends.exists_mark
  rw [gapOf_joined ends, List.cons_append, List.append_assoc]
  refine .lineEnd (before _ fun newline => ?_) joins
  exact absurd newline (head_ne_newline joins.startsBreak_eq_false)

/-! ## The end of a statement -/

theorem afterGap?_of_lt (shorter : (skipGap cs).length < cs.length) :
    afterGap? cs = some (skipGap cs) :=
  if_pos shorter

theorem afterGap?_of_eq (same : skipGap cs = cs) : afterGap? cs = none := by
  rw [afterGap?, same, if_neg (Nat.lt_irrefl _)]

theorem afterGap?_of_gap (gap : isGap c = true) (cs : List Char) :
    afterGap? (c :: cs) = some (skipGap (c :: cs)) := by
  refine afterGap?_of_lt ?_
  rw [skipGap_gap gap]
  exact Nat.lt_succ_of_le (length_skipGap_le cs)

theorem afterGap?_of_joined (ends : LineEnd cs rest) :
    afterGap? ('\\' :: cs) = some (skipGap ('\\' :: cs)) := by
  refine afterGap?_of_lt ?_
  rw [skipGap_joined ends]
  exact Nat.lt_succ_of_lt (Nat.lt_of_le_of_lt (length_skipGap_le rest) ends.length_lt)

theorem afterGap?_of_startsBreak (starts : startsBreak cs = true) : afterGap? cs = none := by
  obtain ⟨rest, ends⟩ := LineEnd.exists_of_startsBreak starts
  exact afterGap?_of_eq (skipGap_lineEnd ends)

theorem splitStatement_nil : splitStatement [] = ([], .line, []) := by
  rw [splitStatement]

theorem splitStatement_lineEnd (ends : LineEnd cs rest) :
    splitStatement cs = ([], .line, rest) := by
  cases ends with
  | lf | crlf => rw [splitStatement]
  | cr single =>
      rw [splitStatement]
      exact fun tail same => single (same ▸ rfl)

theorem splitStatement_plain (plain : isBreak c = false) (none : afterGap? (c :: cs) = none) :
    splitStatement (c :: cs) = (c :: (splitStatement cs).1, (splitStatement cs).2) := by
  generalize whole : c :: cs = all at none
  fun_cases splitStatement all with
  | case1 => cases whole
  | case2 | case3 | case4 =>
      obtain ⟨rfl, -⟩ := List.cons.inj whole
      simp [isBreak] at plain
  | case5 c' rest _ _ _ _ text ending left next =>
      obtain ⟨rfl, rfl⟩ := List.cons.inj whole
      rw [next]
  | case6 _ _ _ _ _ _ gap | case7 _ _ _ _ _ _ gap | case8 _ _ _ _ _ _ _ _ gap =>
      rw [none] at gap
      cases gap

/-- After a gap the text of a statement may end: before `--`, and before a comment. -/
theorem splitStatement_gap (gap : afterGap? cs = some (skipGap cs)) : splitStatement cs =
    if ['-', '-'].isPrefixOf (skipGap cs) then ([], .options, skipGap cs)
    else if ['#'].isPrefixOf (skipGap cs) then ([], .line, skipLine (skipGap cs))
    else (gapOf cs ++ (splitStatement (skipGap cs)).1, (splitStatement (skipGap cs)).2) := by
  fun_cases splitStatement cs with
  | case1 => cases gap
  | case2 | case3 | case4 =>
      rw [afterGap?_of_startsBreak rfl] at gap
      cases gap
  | case5 _ _ _ _ _ none =>
      rw [none] at gap
      cases gap
  | case6 _ _ _ _ _ more found =>
      have rest : skipGap _ = '-' :: '-' :: more := Option.some.inj (gap.symm.trans found)
      simp [rest]
  | case7 _ _ _ _ _ more found =>
      have rest : skipGap _ = '#' :: more := Option.some.inj (gap.symm.trans found)
      have start : skipLine ('#' :: more) = skipLine more := skipLine_cons rfl more
      simp [rest, start]
  | case8 c rest _ _ _ after options comment found text ending left next =>
      obtain rfl : skipGap _ = after := Option.some.inj (gap.symm.trans found)
      have noOptions : ['-', '-'].isPrefixOf (skipGap (c :: rest)) = false := by
        rw [Bool.eq_false_iff, ne_eq, List.isPrefixOf_iff_prefix]
        rintro ⟨more, start⟩
        exact options more start.symm
      have noComment : ['#'].isPrefixOf (skipGap (c :: rest)) = false := by
        rw [Bool.eq_false_iff, ne_eq, List.isPrefixOf_iff_prefix]
        rintro ⟨more, start⟩
        exact comment more start.symm
      rw [noOptions, noComment, next]
      rfl

/-! ## Hashes -/

theorem moreHashes_of_none (none : hashWord.isPrefixOf (skipGap cs) = false) :
    moreHashes cs = .ok ([], skipGap cs) := by
  simp [moreHashes, none]

theorem moreHashes_of_hash (hash : hashWord.isPrefixOf (skipGap cs) = true) :
    moreHashes cs = match value (!isBlank ·) ((skipGap cs).drop hashWord.length) with
      | .error refusal => .error refusal
      | .ok (hash, rest) => (moreHashes rest).map fun (hashes, rest) => (hash :: hashes, rest) := by
  rw [moreHashes]
  simp only [hash, if_true]
  split
  · next refused => rw [refused]
  · next hash rest valued =>
      simp only [valued]
      cases moreHashes rest <;> rfl

theorem length_lt_of_hash {hash : String} (word : hashWord.isPrefixOf (skipGap cs) = true)
    (valued : value p ((skipGap cs).drop hashWord.length) = .ok (hash, rest)) :
    rest.length < cs.length := by
  have start := length_skipGap_le cs
  have shorter := length_le_of_value valued
  have inside := (List.isPrefixOf_iff_prefix.mp word).length_le
  rw [List.length_drop] at shorter
  have some : 0 < hashWord.length := by decide
  omega

/-! ## Requirements and targets -/

theorem unnamed_eq (cs : List Char) : unnamed cs =
    (trailingHashes (splitStatement cs).2.1 (splitStatement cs).2.2).map fun (_, rest) =>
      (.unnamed (String.ofList (joinLines (splitStatement cs).1)), rest) :=
  rfl

theorem requirement_eq (cs : List Char) : requirement cs =
    match Requirement.parse? (joinLines (splitStatement cs).1) with
    | none => .error (.invalidRequirement cs)
    | some requirement =>
        (trailingHashes (splitStatement cs).2.1 (splitStatement cs).2.2).map fun (hashes, rest) =>
          (.requirement requirement hashes, rest) := by
  unfold requirement
  obtain ⟨text, ending, rest⟩ := splitStatement cs
  cases parsed : Requirement.parse? (joinLines text) <;> simp only [parsed]

theorem statement?_eq_none (none : statement? cs = none) : cs = [] := by
  cases cs with
  | nil => rfl
  | cons c cs =>
      rw [statement?] at none
      split at none
      · cases none
      · split at none
        · cases none
        · split at none <;> cases none

end PinFloor.Scanner
