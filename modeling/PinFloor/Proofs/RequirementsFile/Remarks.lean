import PinFloor.Proofs.RequirementsFile.SingleLines

/-! # Remarks at the ends of lines

A remark is some blanks, or a comment behind them. It may be put in before any line end that no `\`
joins, and at the end of the text. What a part of the scanner reads from the first text it reads
from the one with the remarks, and the tails that it leaves differ in remarks again.
-/

namespace PinFloor

open Scanner

/-- Blanks, or a comment behind blanks. A comment without a blank before it is one only where a
    comment may start. -/
inductive Remark (opens : Bool) : List Char → Prop where
  | blanks {gaps : List Char} : (∀ c ∈ gaps, isGap c = true) → Remark opens gaps
  | comment {gaps text : List Char} : (∀ c ∈ gaps, isGap c = true) → (gaps = [] → opens = true) →
      (∀ c ∈ text, isBreak c = false) → Remark opens (gaps ++ '#' :: text)

/-- The end of the text, or a line end, which leaves the rest. -/
inductive LineStop : List Char → List Char → Prop where
  | last : LineStop [] []
  | lineEnd {cs rest : List Char} : LineEnd cs rest → LineStop cs rest

/-- The second text is the first one with remarks put in where lines end. A comment may start at the
    start of the two texts if `opens`; within them it may at the start of a line and behind a blank. -/
inductive Remarked : Bool → List Char → List Char → Prop where
  | nil {opens : Bool} : Remarked opens [] []
  | char {opens : Bool} {c : Char} {cs ds : List Char} : isBreak c = false →
      (c = '\\' → startsBreak cs = false) → Remarked (isGap c) cs ds →
      Remarked opens (c :: cs) (c :: ds)
  | joined {opens : Bool} {cs ds cs' ds' : List Char} : LineEnd cs cs' → LineEnd ds ds' →
      Remarked true cs' ds' → Remarked opens ('\\' :: cs) ('\\' :: ds)
  | stop {opens : Bool} {pad cs ds cs' ds' : List Char} : Remark opens pad → LineStop cs cs' →
      LineStop ds ds' → (cs = [] ↔ ds = []) → Remarked true cs' ds' →
      Remarked opens cs (pad ++ ds)

variable {opens : Bool} {c : Char} {cs ds cs' ds' pad rest : List Char} {p : Char → Bool}

theorem Scanner.skipGap_hash (cs : List Char) : skipGap ('#' :: cs) = '#' :: cs :=
  skipGap_plain rfl fun slash => absurd slash (by decide)

theorem Scanner.skipLine_append {text : List Char} (plain : ∀ c ∈ text, isBreak c = false)
    (cs : List Char) : skipLine (text ++ cs) = skipLine cs := by
  induction text with
  | nil => rfl
  | cons c text ih =>
      obtain ⟨first, others⟩ := List.forall_mem_cons.mp plain
      rw [List.cons_append, skipLine_cons first, ih others]

namespace LineStop

theorem skipGap_eq (stop : LineStop cs rest) : skipGap cs = cs := by
  cases stop with
  | last => rfl
  | lineEnd ends => exact skipGap_lineEnd ends

theorem skipLine_eq (stop : LineStop cs rest) : skipLine cs = rest := by
  cases stop with
  | last => rfl
  | lineEnd ends => exact skipLine_lineEnd ends

theorem splitStatement_eq (stop : LineStop cs rest) : splitStatement cs = ([], .line, rest) := by
  cases stop with
  | last => exact splitStatement_nil
  | lineEnd ends => exact splitStatement_lineEnd ends

theorem skipTrivia_eq (stop : LineStop cs rest) : skipTrivia cs = skipTrivia rest := by
  cases stop with
  | last => rfl
  | lineEnd ends => exact skipTrivia_of_lineEnd (skipGap_lineEnd ends) ends

theorem span (stop : LineStop cs rest) (stops : StopsAtBreak p) :
    cs.takeWhile p = [] ∧ cs.dropWhile p = cs := by
  cases stop with
  | last => exact ⟨rfl, rfl⟩
  | lineEnd ends => exact ⟨stops.takeWhile ends, stops.dropWhile ends⟩

theorem isBreak_head (stop : LineStop cs rest) (first : cs.head? = some c) : isBreak c = true := by
  cases stop with
  | last => cases first
  | lineEnd ends =>
      have starts := ends.startsBreak
      rwa [startsBreak, first] at starts

theorem not_isPrefixOf {w : List Char} (stop : LineStop cs rest) (plain : isBreak c = false) :
    (c :: w).isPrefixOf cs = false := by
  cases stop with
  | last => rfl
  | lineEnd ends => exact not_isPrefixOf_lineEnd plain ends

theorem of_head (ends : ∀ c, cs.head? = some c → isBreak c = true) : LineStop cs (skipLine cs) := by
  cases cs with
  | nil => exact .last
  | cons c cs =>
      have starts : startsBreak (c :: cs) = true := ends c rfl
      obtain ⟨rest, ends⟩ := LineEnd.exists_of_startsBreak starts
      rw [skipLine_lineEnd ends]
      exact .lineEnd ends

end LineStop

namespace Remark

theorem hash {text : List Char} (plain : ∀ c ∈ text, isBreak c = false) :
    Remark true ('#' :: text) :=
  (Remark.comment (List.forall_mem_nil _) (fun _ => rfl) plain : Remark true ([] ++ '#' :: text))

theorem mono {opens' : Bool} (remark : Remark opens pad) (weaker : opens = true → opens' = true) :
    Remark opens' pad := by
  cases remark with
  | blanks gaps => exact .blanks gaps
  | comment gaps needed plain => exact .comment gaps (fun none => weaker (needed none)) plain

theorem plain (remark : Remark opens pad) : ∀ c ∈ pad, isBreak c = false := by
  cases remark with
  | blanks gaps => exact fun c inside => not_break_of_isGap (gaps c inside)
  | comment gaps _ plain =>
      intro c inside
      rcases List.mem_append.mp inside with inside | inside
      · exact not_break_of_isGap (gaps c inside)
      · rcases List.mem_cons.mp inside with rfl | inside
        · rfl
        · exact plain c inside

theorem head_cases (remark : Remark opens pad) (first : pad.head? = some c) :
    isGap c = true ∨ c = '#' ∧ opens = true := by
  cases remark with
  | blanks gaps => exact .inl (gaps c (List.mem_of_head? first))
  | @comment gaps text blanks needed _ =>
      cases gaps with
      | nil =>
          cases first
          exact .inr ⟨rfl, needed rfl⟩
      | cons d gaps =>
          cases first
          exact .inl (blanks c List.mem_cons_self)

theorem startsBreak_append (remark : Remark opens pad) (some : pad ≠ []) (ds : List Char) :
    startsBreak (pad ++ ds) = false := by
  obtain ⟨c, pad, rfl⟩ := List.exists_cons_of_ne_nil some
  exact remark.plain c List.mem_cons_self

/-- Where blanks are skipped, a comment is left at most. -/
theorem exists_left (skip : List Char → List Char) (remark : Remark opens pad)
    (blanks : ∀ gaps cs, (∀ c ∈ gaps, isGap c = true) → skip (gaps ++ cs) = skip cs)
    (comment : ∀ cs, skip ('#' :: cs) = '#' :: cs) (here : skip ds = ds) :
    ∃ pad', Remark true pad' ∧ skip (pad ++ ds) = pad' ++ ds := by
  cases remark with
  | blanks gaps =>
      refine ⟨[], .blanks (List.forall_mem_nil _), ?_⟩
      rw [blanks _ _ gaps, here, List.nil_append]
  | @comment gaps text first _ plain =>
      refine ⟨'#' :: text, .hash plain, ?_⟩
      rw [List.append_assoc, blanks _ _ first, List.cons_append, comment]

theorem skipLine_eq (remark : Remark opens pad) (stop : LineStop ds ds') :
    skipLine (pad ++ ds) = ds' := by
  rw [skipLine_append remark.plain, stop.skipLine_eq]

theorem skipTrivia_eq (remark : Remark opens pad) (stop : LineStop ds ds') :
    skipTrivia (pad ++ ds) = skipTrivia ds' := by
  cases remark with
  | blanks gaps => rw [skipTrivia_congr (skipGap_append gaps ds), stop.skipTrivia_eq]
  | @comment gaps text blanks _ plain =>
      rw [List.append_assoc, skipTrivia_congr (skipGap_append blanks _), List.cons_append,
        skipTrivia_of_comment (skipGap_hash _), skipLine_append plain, stop.skipLine_eq]

/-- Behind something else than a blank, a remark ends a statement without adding to its text. -/
theorem splitStatement_eq (remark : Remark false pad) (stop : LineStop ds ds') :
    ∃ kept, (∀ c ∈ kept, isGap c = true) ∧ splitStatement (pad ++ ds) = (kept, .line, ds') := by
  cases remark with
  | blanks gaps =>
      by_cases none : pad = []
      · subst none
        exact ⟨[], List.forall_mem_nil _, stop.splitStatement_eq⟩
      · refine ⟨pad, gaps, ?_⟩
        rw [splitStatement_of_blanks gaps none stop.skipGap_eq, stop.not_isPrefixOf rfl,
          stop.not_isPrefixOf rfl, stop.splitStatement_eq]
        simp
  | @comment gaps text blanks needed plain =>
      have some : gaps ≠ [] := fun none => Bool.noConfusion (needed none)
      refine ⟨[], List.forall_mem_nil _, ?_⟩
      rw [List.append_assoc, List.cons_append, splitStatement_of_blanks blanks some (skipGap_hash _),
        skipLine_cons rfl, skipLine_append plain, stop.skipLine_eq]
      rfl

end Remark

/-! ## Two texts that differ in remarks -/

namespace Remarked

theorem mono (remarked : Remarked opens cs ds) : Remarked true cs ds := by
  cases remarked with
  | nil => exact .nil
  | char plain single tail => exact .char plain single tail
  | joined first second tail => exact .joined first second tail
  | stop remark first second both tail =>
      exact .stop (remark.mono fun _ => rfl) first second both tail

theorem lineEnd (first : LineEnd cs cs') (second : LineEnd ds ds') (tail : Remarked true cs' ds') :
    Remarked opens cs ds := by
  have none : Remark opens [] := .blanks (List.forall_mem_nil _)
  have both : cs = [] ↔ ds = [] := by
    constructor <;> rintro rfl
    · cases first
    · cases second
  exact .stop none (.lineEnd first) (.lineEnd second) both tail

/-- A text is one with remarks in no place. -/
theorem refl (opens : Bool) (cs : List Char) : Remarked opens cs cs := by
  induction cs using text_induction generalizing opens with
  | nil => exact .nil
  | @char c _ plain single ih => exact .char plain single (ih (isGap c))
  | joined ends ih => exact .joined ends ends (ih true)
  | lineEnd ends ih => exact .lineEnd ends ends (ih true)

theorem lineEnds_eq (remarked : Remarked opens cs ds) : lineEnds cs = lineEnds ds := by
  induction remarked with
  | nil => rfl
  | char plain _ _ ih => rw [lineEnds_cons plain, lineEnds_cons plain, ih]
  | joined first second _ ih =>
      rw [lineEnds_cons rfl, lineEnds_cons rfl, lineEnds_lineEnd first, lineEnds_lineEnd second, ih]
  | @stop _ pad cs ds cs' ds' remark first second both _ ih =>
      have uncut : Uncut pad ds := fun ret => absurd ret fun ret =>
        absurd (remark.plain _ (List.mem_of_getLast? ret)) (by decide)
      rw [lineEnds_append uncut, lineEnds_eq_zero remark.plain, Nat.zero_add]
      cases first with
      | last => rw [both.mp rfl]
      | lineEnd first =>
          cases second with
          | last => cases both.mpr rfl ▸ first
          | lineEnd second => rw [lineEnds_lineEnd first, lineEnds_lineEnd second, ih]

theorem startsBreak_eq (remarked : Remarked opens cs ds) (within : startsBreak cs = false) :
    startsBreak ds = false := by
  cases remarked with
  | nil => rfl
  | char | joined => exact within
  | @stop _ pad _ ds _ _ remark first second both =>
      by_cases some : pad = []
      · subst some
        cases first with
        | last => rw [both.mp rfl]; rfl
        | lineEnd ends =>
            rw [ends.startsBreak] at within
            cases within
      · exact remark.startsBreak_append some ds

theorem head_or_stop (remarked : Remarked opens cs ds) :
    ds.head? = cs.head? ∨ LineStop cs (Scanner.skipLine cs) := by
  cases remarked with
  | nil | char | joined => exact .inl rfl
  | stop _ first => exact .inr (first.skipLine_eq ▸ first)

/-- Where no comment is put in at the very start, none may start there. -/
theorem settle (remarked : Remarked opens cs ds)
    (keeps : ds.head? = some '#' → cs.head? = some '#') : Remarked false cs ds := by
  cases remarked with
  | nil => exact .nil
  | char plain single tail => exact .char plain single tail
  | joined first second tail => exact .joined first second tail
  | stop remark first second both tail =>
      refine .stop ?_ first second both tail
      cases remark with
      | blanks gaps => exact .blanks gaps
      | @comment gaps text blanks _ plain =>
          refine .comment blanks (fun none => ?_) plain
          subst none
          cases first.isBreak_head (keeps rfl)

theorem skipGap (remarked : Remarked opens cs ds) :
    Remarked true (Scanner.skipGap cs) (Scanner.skipGap ds) := by
  induction remarked with
  | nil => exact .nil
  | @char opens c cs ds plain single tail ih =>
      cases gap : isGap c with
      | true =>
          rw [skipGap_gap gap, skipGap_gap gap]
          exact ih
      | false =>
          have single' := fun slash => tail.startsBreak_eq (single slash)
          rw [skipGap_plain gap single, skipGap_plain gap single']
          exact .char plain single tail
  | joined first second _ ih =>
      rw [skipGap_joined first, skipGap_joined second]
      exact ih
  | stop remark first second both tail =>
      obtain ⟨pad, remark, left⟩ := remark.exists_left Scanner.skipGap
        (fun _ cs gaps => skipGap_append gaps cs) skipGap_hash second.skipGap_eq
      rw [first.skipGap_eq, left]
      exact .stop remark first second both tail

theorem dropGaps (remarked : Remarked opens cs ds) :
    Remarked true (cs.dropWhile isGap) (ds.dropWhile isGap) := by
  induction remarked with
  | nil => exact .nil
  | @char opens c cs ds plain single tail ih =>
      cases gap : isGap c with
      | true =>
          rw [List.dropWhile_cons_of_pos gap, List.dropWhile_cons_of_pos gap]
          exact ih
      | false =>
          rw [List.dropWhile_cons_of_neg (by simp [gap]), List.dropWhile_cons_of_neg (by simp [gap])]
          exact .char plain single tail
  | joined first second tail =>
      rw [List.dropWhile_cons_of_neg (by decide), List.dropWhile_cons_of_neg (by decide)]
      exact .joined first second tail
  | stop remark first second both tail =>
      obtain ⟨pad, remark, left⟩ := remark.exists_left (List.dropWhile isGap)
        (fun _ _ gaps => List.dropWhile_append_of_pos gaps)
        (fun _ => List.dropWhile_cons_of_neg (by decide)) (second.span stopsAtBreak_isGap).2
      rw [(first.span stopsAtBreak_isGap).2, left]
      exact .stop remark first second both tail

theorem skipLine (remarked : Remarked opens cs ds) :
    Remarked true (Scanner.skipLine cs) (Scanner.skipLine ds) := by
  induction remarked with
  | nil => exact .nil
  | char plain _ _ ih =>
      rw [skipLine_cons plain, skipLine_cons plain]
      exact ih
  | joined first second tail =>
      rw [skipLine_cons rfl, skipLine_cons rfl, skipLine_lineEnd first, skipLine_lineEnd second]
      exact tail
  | stop remark first second _ tail =>
      rw [first.skipLine_eq, remark.skipLine_eq second]
      exact tail

theorem skipTrivia {opens : Bool} {cs ds : List Char} (remarked : Remarked opens cs ds) :
    Remarked true (Scanner.skipTrivia cs) (Scanner.skipTrivia ds) ∧
      (Scanner.skipTrivia cs = [] → Scanner.skipTrivia ds = []) := by
  cases remarked with
  | nil => exact ⟨.refl true _, id⟩
  | @char _ c cs ds plain single tail =>
      cases gap : isGap c with
      | true =>
          rw [skipTrivia_congr (skipGap_gap gap cs), skipTrivia_congr (skipGap_gap gap ds)]
          exact skipTrivia tail
      | false =>
          have first := skipGap_plain gap single
          have second := skipGap_plain gap fun slash => tail.startsBreak_eq (single slash)
          by_cases comment : c = '#'
          · subst comment
            have shorter := length_skipLine_le cs
            rw [skipTrivia_of_comment first, skipTrivia_of_comment second]
            exact skipTrivia tail.skipLine
          · rw [skipTrivia_of_other first plain comment, skipTrivia_of_other second plain comment]
            exact ⟨.char plain single tail, fun nothing => absurd nothing (List.cons_ne_nil _ _)⟩
  | @joined _ cs ds cs' ds' first second tail =>
      have shorter := first.suffix.length_le
      rw [skipTrivia_congr (skipGap_joined first), skipTrivia_congr (skipGap_joined second)]
      exact skipTrivia tail
  | @stop _ pad cs ds cs' ds' remark first second both tail =>
      rw [remark.skipTrivia_eq second]
      cases first with
      | last =>
          obtain rfl := both.mp rfl
          cases second with
          | last => exact ⟨.refl true _, id⟩
          | lineEnd ends => cases ends
      | lineEnd ends =>
          have shorter := ends.length_lt
          rw [(LineStop.lineEnd ends).skipTrivia_eq]
          exact skipTrivia tail
termination_by cs.length

end Remarked

end PinFloor
