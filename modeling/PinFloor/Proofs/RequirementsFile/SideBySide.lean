import PinFloor.Proofs.RequirementsFile.Alike

/-! # Scanning two texts side by side

Each part of the scanner takes alike tails to alike tails at the same place, and reads the same on
the way. Where it refuses one text it refuses the other, for the same reason and at the same place.
-/

namespace PinFloor

open Scanner

namespace Comparison

variable {k : Comparison} {c : Char} {cs ds : List Char} {p : Char → Bool}

theorem Abreast.skipGap (both : k.Abreast cs ds) :
    k.Abreast (Scanner.skipGap cs) (Scanner.skipGap ds) := by
  obtain ⟨level, alike⟩ := both
  induction alike with
  | nil more => exact ⟨level, .nil more⟩
  | @char c cs ds plain single tail ih =>
      cases gap : isGap c with
      | true =>
          rw [skipGap_gap gap, skipGap_gap gap]
          exact ih (level.cons plain)
      | false =>
          have single' : c = '\\' → startsBreak ds = false := tail.startsBreak_eq ▸ single
          rw [skipGap_plain gap single, skipGap_plain gap single']
          exact ⟨level, .char plain single tail⟩
  | joined ends tail ih =>
      rw [skipGap_joined ends.first, skipGap_joined ends.second]
      exact ih ((level.cons rfl).lineEnd ends)
  | lineEnd ends tail =>
      rw [skipGap_lineEnd ends.first, skipGap_lineEnd ends.second]
      exact ⟨level, .lineEnd ends tail⟩
  | last ends =>
      rw [skipGap_lineEnd ends.first, skipGap_lineEnd ends.second]
      exact ⟨level, .last ends⟩

/-- A word that ends at a line end at the latest is the same in both texts. -/
theorem Abreast.span (both : k.Abreast cs ds) (stops : StopsAtBreak p) :
    cs.takeWhile p = ds.takeWhile p ∧ k.Abreast (cs.dropWhile p) (ds.dropWhile p) := by
  obtain ⟨level, alike⟩ := both
  induction alike with
  | nil more => exact ⟨rfl, level, .nil more⟩
  | @char c cs ds plain single tail ih =>
      by_cases inside : p c = true
      · obtain ⟨same, rest⟩ := ih (level.cons plain)
        simp only [List.takeWhile_cons_of_pos inside, List.dropWhile_cons_of_pos inside, same]
        exact ⟨trivial, rest⟩
      · simp only [List.takeWhile_cons_of_neg inside, List.dropWhile_cons_of_neg inside]
        exact ⟨trivial, level, .char plain single tail⟩
  | joined ends tail =>
      -- The word may take the `\`, which then joins nothing.
      by_cases inside : p '\\' = true
      · simp only [List.takeWhile_cons_of_pos inside, List.dropWhile_cons_of_pos inside,
          stops.takeWhile ends.first, stops.takeWhile ends.second, stops.dropWhile ends.first,
          stops.dropWhile ends.second]
        exact ⟨trivial, level.cons rfl, .lineEnd ends tail⟩
      · simp only [List.takeWhile_cons_of_neg inside, List.dropWhile_cons_of_neg inside]
        exact ⟨trivial, level, .joined ends tail⟩
  | lineEnd ends tail =>
      rw [stops.takeWhile ends.first, stops.takeWhile ends.second, stops.dropWhile ends.first,
        stops.dropWhile ends.second]
      exact ⟨rfl, level, .lineEnd ends tail⟩
  | last ends =>
      rw [stops.takeWhile ends.first, stops.takeWhile ends.second, stops.dropWhile ends.first,
        stops.dropWhile ends.second]
      exact ⟨rfl, level, .last ends⟩

theorem Abreast.skipLine (both : k.Abreast cs ds) :
    k.After (Scanner.skipLine cs) (Scanner.skipLine ds) := by
  obtain ⟨level, alike⟩ := both
  induction alike with
  | nil more => exact .within ⟨level, .nil more⟩
  | char plain _ _ ih =>
      rw [skipLine_cons plain, skipLine_cons plain]
      exact ih (level.cons plain)
  | joined ends tail =>
      rw [skipLine_cons rfl, skipLine_cons rfl, skipLine_lineEnd ends.first,
        skipLine_lineEnd ends.second]
      exact .within ⟨(level.cons rfl).lineEnd ends, tail⟩
  | lineEnd ends tail =>
      rw [skipLine_lineEnd ends.first, skipLine_lineEnd ends.second]
      exact .within ⟨level.lineEnd ends, tail⟩
  | last ends =>
      rw [skipLine_lineEnd ends.first, skipLine_lineEnd ends.second]
      exact .atEnd

/-- Refusals of the two texts for one reason at one place. -/
inductive Refused (k : Comparison) : Refusal → Refusal → Prop where
  | malformed {cs ds : List Char} (error : SyntaxError) : k.Level cs ds →
      Refused k (.malformed error cs) (.malformed (error.quoting k.quote) ds)
  | unsupportedOption {cs ds : List Char} (name : String) : k.Level cs ds →
      Refused k (.unsupportedOption name cs) (.unsupportedOption name ds)
  | invalidRequirement {cs ds : List Char} : k.Level cs ds →
      Refused k (.invalidRequirement cs) (.invalidRequirement ds)

/-- Scans of the two texts that read the same and leave related tails, or are both refused. -/
inductive Agree (k : Comparison) {α : Type} (Left : List Char → List Char → Prop) :
    Scan α → Scan α → Prop where
  | ok {a : α} {cs ds : List Char} : Left cs ds → Agree k Left (.ok (a, cs)) (.ok (a, ds))
  | error {r s : Refusal} : k.Refused r s → Agree k Left (.error r) (.error s)

section

variable {α β : Type} {Left Left' : List Char → List Char → Prop} {s t : Scan α}

theorem Agree.map (agree : k.Agree Left s t) (f : α → β) :
    k.Agree Left (s.map fun (a, rest) => (f a, rest)) (t.map fun (a, rest) => (f a, rest)) := by
  cases agree with
  | ok left => exact .ok left
  | error refused => exact .error refused

end

theorem Abreast.endLine (both : k.Abreast cs ds) :
    k.Agree k.After (Scanner.endLine cs) (Scanner.endLine ds) := by
  obtain ⟨-, level, alike⟩ := both.span stopsAtBreak_isGap
  generalize first : cs.dropWhile isGap = cs', second : ds.dropWhile isGap = ds' at level alike
  cases alike with
  | nil more =>
      rw [endLine_of_nil first, endLine_of_nil second]
      exact .ok (.within ⟨level, .nil more⟩)
  | @char c cs' ds' plain single tail =>
      by_cases comment : c = '#'
      · subst comment
        rw [endLine_of_comment first, endLine_of_comment second]
        exact .ok (Abreast.skipLine ⟨level.cons rfl, tail⟩)
      · rw [endLine_of_other first plain comment, endLine_of_other second plain comment]
        exact .error (.malformed (.trailing c) level)
  | joined ends tail =>
      rw [endLine_of_other first rfl (by decide), endLine_of_other second rfl (by decide)]
      exact .error (.malformed (.trailing '\\') level)
  | lineEnd ends tail =>
      rw [endLine_of_lineEnd first ends.first, endLine_of_lineEnd second ends.second]
      exact .ok (.within ⟨level.lineEnd ends, tail⟩)
  | last ends =>
      rw [endLine_of_lineEnd first ends.first, endLine_of_lineEnd second ends.second]
      exact .ok .atEnd

theorem After.skipTrivia {cs ds : List Char} (after : k.After cs ds) :
    k.Abreast (Scanner.skipTrivia cs) (Scanner.skipTrivia ds) ∨
      Scanner.skipTrivia cs = [] ∧ Scanner.skipTrivia ds = Scanner.skipTrivia k.more := by
  cases after with
  | atEnd => exact .inr ⟨skipTrivia_of_nil rfl, rfl⟩
  | within both =>
      obtain ⟨level, alike⟩ := both.skipGap
      generalize first : Scanner.skipGap cs = cs', second : Scanner.skipGap ds = ds' at level alike
      cases alike with
      | nil more =>
          rw [skipTrivia_of_nil first, skipTrivia_of_nil second]
          exact .inl ⟨level, .nil more⟩
      | @char c cs' ds' plain single tail =>
          by_cases comment : c = '#'
          · subst comment
            rw [skipTrivia_of_comment first, skipTrivia_of_comment second]
            have shorter : (Scanner.skipLine cs').length < cs.length :=
              Nat.lt_of_le_of_lt (length_skipLine_le cs') (length_le_of_skipGap first)
            exact After.skipTrivia (Abreast.skipLine ⟨level.cons rfl, tail⟩)
          · rw [skipTrivia_of_other first plain comment, skipTrivia_of_other second plain comment]
            exact .inl ⟨level, .char plain single tail⟩
      | joined ends tail =>
          rw [skipTrivia_of_other first rfl (by decide), skipTrivia_of_other second rfl (by decide)]
          exact .inl ⟨level, .joined ends tail⟩
      | lineEnd ends tail =>
          rw [skipTrivia_of_lineEnd first ends.first, skipTrivia_of_lineEnd second ends.second]
          have shorter := Nat.lt_of_lt_of_le ends.first.length_lt (length_le_of_skipGap first)
          exact After.skipTrivia (.within ⟨level.lineEnd ends, tail⟩)
      | last ends =>
          rw [skipTrivia_of_lineEnd first ends.first, skipTrivia_of_lineEnd second ends.second]
          exact .inr ⟨skipTrivia_of_nil rfl, rfl⟩
termination_by cs.length

/-! ## Values -/

theorem Abreast.finishValue (both : k.Abreast cs ds) (text : List Char) :
    k.Agree k.Abreast (Scanner.finishValue text cs) (Scanner.finishValue text ds) := by
  rw [Scanner.finishValue, Scanner.finishValue]
  split
  · exact .error (.malformed .missingValue both.level)
  · exact .ok both

theorem Abreast.value_refused (both : k.Abreast cs ds)
    (first : ∀ c, cs.head? = some c → c ≠ '=' ∧ isGap c = false)
    (second : ∀ c, ds.head? = some c → c ≠ '=' ∧ isGap c = false) :
    k.Agree k.Abreast (value p cs) (value p ds) := by
  rw [value_of_refused first, value_of_refused second, both.alike.head_eq]
  exact .error (.malformed (.missingSeparator cs.head?) both.level)

theorem Abreast.value (both : k.Abreast cs ds) (stops : StopsAtBreak p) :
    k.Agree k.Abreast (Scanner.value p cs) (Scanner.value p ds) := by
  have afterBlanks := (both.span stopsAtBreak_isGap).2
  cases both.alike with
  | nil => exact both.value_refused (by simp) (by simp)
  | @char c cs ds plain single tail =>
      by_cases separated : c = '='
      · subst separated
        obtain ⟨same, rest⟩ := Abreast.span ⟨both.level.cons plain, tail⟩ stops
        rw [Scanner.value, Scanner.value, same]
        exact rest.finishValue _
      cases gap : isGap c with
      | true =>
          obtain ⟨same, rest⟩ := afterBlanks.span stops
          rw [value_of_gap gap, value_of_gap gap, same]
          exact rest.finishValue _
      | false =>
          have other : ∀ d, some c = some d → d ≠ '=' ∧ isGap d = false := by
            rintro d ⟨⟩
            exact ⟨separated, gap⟩
          exact both.value_refused other other
  | joined =>
      have other : ∀ d, some '\\' = some d → d ≠ '=' ∧ isGap d = false := by
        rintro d ⟨⟩
        decide
      exact both.value_refused other other
  | lineEnd ends | last ends =>
      exact both.value_refused (not_separator_of_lineEnd ends.first)
        (not_separator_of_lineEnd ends.second)

theorem Abreast.lineValue (both : k.Abreast cs ds) (stops : StopsAtBreak p) :
    k.Agree k.After (Scanner.lineValue p cs) (Scanner.lineValue p ds) := by
  have agree := both.value stops
  rw [Scanner.lineValue, Scanner.lineValue]
  generalize Scanner.value p cs = s, Scanner.value p ds = t at agree
  cases agree with
  | error refused => exact .error refused
  | @ok value _ _ rest => exact rest.endLine.map fun _ => value

/-! ## Words without a line end -/

/-- Both texts start with a word that needs no `\`, or neither does. -/
theorem Abreast.word {cs ds w : List Char} (both : k.Abreast cs ds)
    (plain : (w.all fun c => !isBreak c && c != '\\') = true) :
    w.isPrefixOf cs = false ∧ w.isPrefixOf ds = false ∨
      w.isPrefixOf cs = true ∧ w.isPrefixOf ds = true ∧
        k.Abreast (cs.drop w.length) (ds.drop w.length) := by
  induction w generalizing cs ds with
  | nil => exact .inr ⟨List.isPrefixOf_nil_left, List.isPrefixOf_nil_left, both⟩
  | cons c w ih =>
      obtain ⟨level, alike⟩ := both
      obtain ⟨⟨noBreak, noJoin⟩, others⟩ : (isBreak c = false ∧ c ≠ '\\') ∧ _ := by
        simpa only [List.all_cons, Bool.and_eq_true, Bool.not_eq_true', bne_iff_ne] using plain
      cases alike with
      | nil => exact .inl ⟨rfl, rfl⟩
      | @char d cs ds plain' single tail =>
          simp only [List.isPrefixOf_cons_cons, List.length_cons, List.drop_succ_cons]
          cases c == d with
          | false => exact .inl ⟨rfl, rfl⟩
          | true =>
              exact ih ⟨level.cons plain', tail⟩ others
      | joined => simp [List.isPrefixOf_cons_cons, noJoin]
      | lineEnd ends | last ends =>
          exact .inl ⟨not_isPrefixOf_lineEnd noBreak ends.first,
            not_isPrefixOf_lineEnd noBreak ends.second⟩

theorem Abreast.isUnnamed_eq (both : k.Abreast cs ds) : isUnnamed cs = isUnnamed ds := by
  have stops : StopsAtBreak fun c => !isBlank c && c ≠ ';' :=
    .of_blank fun c blank => by simp [blank]
  rw [isUnnamed, isUnnamed, (both.span stops).1]

/-! ## Hashes -/

theorem Abreast.moreHashes {cs ds : List Char} (both : k.Abreast cs ds) :
    k.Agree k.Abreast (Scanner.moreHashes cs) (Scanner.moreHashes ds) := by
  rcases both.skipGap.word (w := hashWord) rfl with ⟨none, none'⟩ | ⟨hash, hash', start⟩
  · rw [moreHashes_of_none none, moreHashes_of_none none']
    exact .ok both.skipGap
  · rw [moreHashes_of_hash hash, moreHashes_of_hash hash']
    have agree := start.value stopsAtBreak_notBlank
    generalize valued : Scanner.value _ ((Scanner.skipGap cs).drop _) = s at agree
    generalize Scanner.value _ ((Scanner.skipGap ds).drop _) = t at agree
    cases agree with
    | error refused => exact .error refused
    | ok rest =>
        have shorter := length_lt_of_hash hash valued
        exact (Abreast.moreHashes rest).map (List.cons _)
termination_by cs.length

theorem Abreast.hashes (both : k.Abreast cs ds) :
    k.Agree k.After (Scanner.hashes cs) (Scanner.hashes ds) := by
  rw [Scanner.hashes, Scanner.hashes]
  rcases both.word (w := hashWord) rfl with ⟨none, none'⟩ | ⟨hash, hash', -⟩
  · rw [none, none']
    obtain ⟨same, rest⟩ := both.span stopsAtBreak_notBlank
    rw [same]
    exact .error (.malformed (.expectedHash _) rest.level)
  · rw [hash, hash']
    have agree := both.moreHashes
    generalize Scanner.moreHashes cs = s, Scanner.moreHashes ds = t at agree
    cases agree with
    | error refused => exact .error refused
    | @ok hashes _ _ rest => exact rest.endLine.map fun _ => hashes

/-! ## The text of a statement -/

/-- Splits of the two texts after a statement: its lines joined give one line. -/
inductive Split (k : Comparison) :
    List Char × Ending × List Char → List Char × Ending × List Char → Prop where
  | line {text text' line cs ds : List Char} : Joins text line → Joins text' line →
      k.After cs ds → Split k (text, .line, cs) (text', .line, ds)
  | options {text text' line cs ds : List Char} : Joins text line → Joins text' line →
      k.Abreast cs ds → Split k (text, .options, cs) (text', .options, ds)

section

variable {s t : List Char × Ending × List Char}

theorem Split.joinLines_eq (split : k.Split s t) : joinLines s.1 = joinLines t.1 := by
  cases split with
  | line first second | options first second => rw [first.joinLines_eq, second.joinLines_eq]

theorem Split.cons (split : k.Split s t) (plain : isBreak c = false) :
    k.Split (c :: s.1, s.2) (c :: t.1, t.2) := by
  cases split with
  | line first second left => exact .line (.char plain first) (.char plain second) left
  | options first second left => exact .options (.char plain first) (.char plain second) left

theorem Alike.joins_gap {text text' line : List Char} (alike : k.Alike cs ds)
    (first : Joins text line) (second : Joins text' line) :
    ∃ line, Joins (gapOf cs ++ text) line ∧ Joins (gapOf ds ++ text') line := by
  induction alike with
  | nil => exact ⟨line, first, second⟩
  | @char c cs ds plain single tail ih =>
      cases gap : isGap c with
      | true =>
          obtain ⟨line, first, second⟩ := ih
          rw [gapOf_gap gap, gapOf_gap gap]
          exact ⟨c :: line, .char plain first, .char plain second⟩
      | false =>
          have single' : c = '\\' → startsBreak ds = false := tail.startsBreak_eq ▸ single
          rw [gapOf_none (skipGap_plain gap single), gapOf_none (skipGap_plain gap single')]
          exact ⟨line, first, second⟩
  | joined ends tail ih =>
      obtain ⟨line, first, second⟩ := ih
      exact ⟨line, first.joined_gap ends.first, second.joined_gap ends.second⟩
  | lineEnd ends | last ends =>
      rw [gapOf_none (skipGap_lineEnd ends.first), gapOf_none (skipGap_lineEnd ends.second)]
      exact ⟨line, first, second⟩

theorem Split.gap (split : k.Split s t) (alike : k.Alike cs ds) :
    k.Split (gapOf cs ++ s.1, s.2) (gapOf ds ++ t.1, t.2) := by
  cases split with
  | line first second left =>
      obtain ⟨line, first, second⟩ := alike.joins_gap first second
      exact .line first second left
  | options first second left =>
      obtain ⟨line, first, second⟩ := alike.joins_gap first second
      exact .options first second left

theorem Split.trailingHashes (split : k.Split s t) :
    k.Agree k.After (Scanner.trailingHashes s.2.1 s.2.2) (Scanner.trailingHashes t.2.1 t.2.2) := by
  cases split with
  | line _ _ left => exact .ok left
  | options _ _ left => exact left.hashes

end

theorem Abreast.splitStatement_gap (both : k.Abreast cs ds)
    (gap : afterGap? cs = some (Scanner.skipGap cs))
    (gap' : afterGap? ds = some (Scanner.skipGap ds))
    (next : k.Split (splitStatement (Scanner.skipGap cs)) (splitStatement (Scanner.skipGap ds))) :
    k.Split (splitStatement cs) (splitStatement ds) := by
  have start := both.skipGap
  rw [Scanner.splitStatement_gap gap, Scanner.splitStatement_gap gap']
  rcases start.word (w := ['-', '-']) rfl with ⟨none, none'⟩ | ⟨options, options', -⟩
  · rw [none, none']
    rcases start.word (w := ['#']) rfl with ⟨none, none'⟩ | ⟨comment, comment', -⟩
    · rw [none, none']
      exact next.gap both.alike
    · rw [comment, comment']
      exact .line .nil .nil start.skipLine
  · rw [options, options']
    exact .options .nil .nil start

theorem Abreast.splitStatement {cs ds : List Char} (both : k.Abreast cs ds) :
    k.Split (Scanner.splitStatement cs) (Scanner.splitStatement ds) := by
  cases both.alike with
  | nil more =>
      rw [splitStatement_nil]
      exact .line .nil .nil (.within both)
  | @char c cs ds plain single tail =>
      cases gap : isGap c with
      | true =>
          have shorter : (Scanner.skipGap (c :: cs)).length < (c :: cs).length :=
            length_lt_of_afterGap? (afterGap?_of_gap gap cs)
          exact both.splitStatement_gap (afterGap?_of_gap gap cs) (afterGap?_of_gap gap ds)
            (Abreast.splitStatement both.skipGap)
      | false =>
          have single' : c = '\\' → startsBreak ds = false := tail.startsBreak_eq ▸ single
          rw [splitStatement_plain plain (afterGap?_of_eq (skipGap_plain gap single)),
            splitStatement_plain plain (afterGap?_of_eq (skipGap_plain gap single'))]
          exact (Abreast.splitStatement ⟨both.level.cons plain, tail⟩).cons plain
  | @joined cs ds _ _ ends tail =>
      have shorter : (Scanner.skipGap ('\\' :: cs)).length < ('\\' :: cs).length :=
        length_lt_of_afterGap? (afterGap?_of_joined ends.first)
      exact both.splitStatement_gap (afterGap?_of_joined ends.first)
        (afterGap?_of_joined ends.second) (Abreast.splitStatement both.skipGap)
  | lineEnd ends tail =>
      rw [splitStatement_lineEnd ends.first, splitStatement_lineEnd ends.second]
      exact .line .nil .nil (.within ⟨both.level.lineEnd ends, tail⟩)
  | last ends =>
      rw [splitStatement_lineEnd ends.first, splitStatement_lineEnd ends.second]
      exact .line .nil .nil .atEnd
termination_by cs.length

/-! ## Statements -/

theorem Abreast.unnamed (both : k.Abreast cs ds) :
    k.Agree k.After (Scanner.unnamed cs) (Scanner.unnamed ds) := by
  have split := both.splitStatement
  rw [unnamed_eq, unnamed_eq, split.joinLines_eq]
  exact split.trailingHashes.map fun _ => Statement.unnamed _

theorem Abreast.requirement (both : k.Abreast cs ds) :
    k.Agree k.After (Scanner.requirement cs) (Scanner.requirement ds) := by
  have split := both.splitStatement
  rw [requirement_eq, requirement_eq, split.joinLines_eq]
  cases Requirement.parse? (joinLines (Scanner.splitStatement ds).1) with
  | none => exact .error (.invalidRequirement both.level)
  | some requirement => exact split.trailingHashes.map (Statement.requirement requirement)

theorem Abreast.option (both : k.Abreast cs ds) :
    k.Agree k.After (Scanner.option cs) (Scanner.option ds) := by
  have stops : StopsAtBreak fun c => !isBlank c && c ≠ '=' :=
    .of_blank fun c blank => by simp [blank]
  obtain ⟨same, rest⟩ := both.span stops
  have fileName := rest.lineValue stopsAtBreak_inFileName
  have word := rest.lineValue stopsAtBreak_notBlank
  simp only [Scanner.option, same]
  split
  · exact fileName.map fun file => Statement.include .requirements ⟨file⟩
  · exact fileName.map fun file => Statement.include .requirements ⟨file⟩
  · exact fileName.map fun file => Statement.include .constraints ⟨file⟩
  · exact fileName.map fun file => Statement.include .constraints ⟨file⟩
  · exact word.map Statement.editable
  · exact word.map Statement.editable
  · split
    · exact word.map fun value => Statement.option (.setting _ value)
    · exact rest.endLine.map fun _ => Statement.option (.flag _)
    · exact .error (.unsupportedOption _ rest.level)

theorem Abreast.statement?_cons (both : k.Abreast (c :: cs) (c :: ds)) :
    Option.Rel (k.Agree k.After) (statement? (c :: cs)) (statement? (c :: ds)) := by
  rw [statement?, statement?, both.isUnnamed_eq]
  split
  · exact .some both.option
  · split
    · exact .some both.unnamed
    · split
      · exact .some both.requirement
      · exact .some (.error (.malformed (.unexpectedStart c) both.level))

theorem Abreast.statement? (both : k.Abreast cs ds) (opens : startsBreak cs = false) :
    Option.Rel (k.Agree k.After) (Scanner.statement? cs) (Scanner.statement? ds) := by
  cases both.alike with
  | nil => exact .none
  | char | joined => exact both.statement?_cons
  | lineEnd ends | last ends =>
      rw [ends.first.startsBreak] at opens
      cases opens

end Comparison

end PinFloor
