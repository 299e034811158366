import PinFloor.Proofs.RequirementsFile.Hashes
import PinFloor.Proofs.RequirementsFile.Respelling

/-! # How far a statement is read

The scanner goes through the text of a statement up to a gap, and through its hashes up to the next
gap. What it takes on the way does not depend on what comes behind the gap.
-/

namespace PinFloor

open Scanner

/-- In splitting off the statement that `t ++ x` starts with, `t` is taken as a part of its text, and
    `x` comes next. -/
inductive Passes : List Char → List Char → Prop where
  | nil {x : List Char} : Passes [] x
  | plain {c : Char} {t x : List Char} : isBreak c = false → afterGap? (c :: (t ++ x)) = none →
      Passes t x → Passes (c :: t) x
  | gap {fill t x : List Char} : fill ≠ [] → skipGap (fill ++ (t ++ x)) = t ++ x →
      ['-', '-'].isPrefixOf (t ++ x) = false → ['#'].isPrefixOf (t ++ x) = false → Passes t x →
      Passes (fill ++ t) x

/-- The hashes that `cs` starts with are read up to a place where `left` follows. -/
inductive HashesUpTo : List Char → List String → List Char → Prop where
  | nil {cs : List Char} : HashesUpTo cs [] cs
  | cons {cs rest left : List Char} {hash : String} {found : List String} :
      hashWord.isPrefixOf (skipGap cs) = true →
      value (!isBlank ·) ((skipGap cs).drop hashWord.length) = .ok (hash, rest) →
      HashesUpTo rest found left → HashesUpTo cs (hash :: found) left

/-- The text ends in a blank. -/
def EndsInGap (text : List Char) : Prop :=
  ∃ c, text.getLast? = some c ∧ isGap c = true

variable {c : Char} {a b t x y cs fill text left front back w : List Char}

theorem EndsInGap.ne_nil (blank : EndsInGap text) : text ≠ [] := by
  obtain ⟨c, last, -⟩ := blank
  exact List.ne_nil_of_mem (List.mem_of_getLast? last)

theorem EndsInGap.of_append (blank : EndsInGap (a ++ b)) (some : b ≠ []) : EndsInGap b := by
  obtain ⟨c, last, gap⟩ := blank
  refine ⟨c, ?_, gap⟩
  rwa [List.getLast?_append, List.getLast?_eq_some_getLast some, Option.some_or,
    ← List.getLast?_eq_some_getLast some] at last

theorem EndsInGap.of_singleton (blank : EndsInGap [c]) : isGap c = true := by
  obtain ⟨d, last, gap⟩ := blank
  obtain rfl : c = d := Option.some.inj last
  exact gap

theorem EndsInGap.of_slash (blank : EndsInGap ('\\' :: text)) : EndsInGap text := by
  refine EndsInGap.of_append blank ?_ (a := ['\\'])
  rintro rfl
  cases blank.of_singleton

/-! ## Blanks and joined line ends -/

theorem fills_gapOf (cs : List Char) : Fills (gapOf cs) := by
  induction cs using text_induction with
  | nil => exact .nil
  | @char c cs plain single ih =>
      cases gap : isGap c with
      | true =>
          rw [gapOf_gap gap]
          exact .blank gap ih
      | false =>
          rw [gapOf_none (skipGap_plain gap single)]
          exact .nil
  | @joined cs rest ends ih =>
      obtain ⟨mark, rfl, before⟩ := ends.exists_mark
      have alone := before [] nofun
      rw [List.append_nil] at alone
      rw [gapOf_joined ends]
      exact .lineEnd alone ih
  | lineEnd ends =>
      rw [gapOf_none (skipGap_lineEnd ends)]
      exact .nil

theorem not_gap_of_lineEnd {mark : List Char} (ends : LineEnd mark []) (inside : c ∈ mark) :
    isGap c = false := by
  cases ends with
  | lf =>
      obtain rfl := List.mem_singleton.mp inside
      rfl
  | crlf =>
      rcases List.mem_cons.mp inside with rfl | inside
      · rfl
      · obtain rfl := List.mem_singleton.mp inside
        rfl
  | cr =>
      obtain rfl := List.mem_singleton.mp inside
      rfl

/-- No blank is within a line end. -/
theorem exists_behind_mark {mark : List Char} (ends : LineEnd mark []) (whole : a ++ b = mark ++ text)
    (blank : EndsInGap a) : ∃ more, a = mark ++ more ∧ text = more ++ b ∧ EndsInGap more := by
  obtain ⟨c, last, gap⟩ := blank
  have outside : ∀ more, mark ≠ a ++ more := by
    rintro more rfl
    have plain := not_gap_of_lineEnd ends (List.mem_append_left more (List.mem_of_getLast? last))
    rw [plain] at gap
    cases gap
  rcases List.append_eq_append_iff.mp whole with ⟨more, same, -⟩ | ⟨more, same, behind⟩
  · exact absurd same (outside more)
  · subst same
    refine ⟨more, rfl, behind, EndsInGap.of_append (a := mark) ⟨c, last, gap⟩ ?_⟩
    rintro rfl
    exact outside [] (by simp)

/-- A blank within a gap cuts it into two. -/
theorem Fills.of_append (fills : Fills (a ++ b)) (blank : EndsInGap a) : Fills a ∧ Fills b := by
  generalize whole : a ++ b = fill at fills
  induction fills generalizing a with
  | nil => exact absurd (List.append_eq_nil_iff.mp whole).1 blank.ne_nil
  | @blank c fill gap fills ih =>
      cases a with
      | nil => exact absurd rfl blank.ne_nil
      | cons d a =>
          obtain ⟨rfl, rest⟩ := List.cons.inj whole
          by_cases last : a = []
          · subst last
            obtain rfl : b = fill := rest
            exact ⟨.blank gap .nil, fills⟩
          · have more : EndsInGap a := EndsInGap.of_append blank last (a := [d])
            exact ⟨.blank gap (ih more rest).1, (ih more rest).2⟩
  | @lineEnd mark fill ends fills ih =>
      cases a with
      | nil => exact absurd rfl blank.ne_nil
      | cons d a =>
          obtain ⟨rfl, rest⟩ := List.cons.inj whole
          obtain ⟨more, rfl, behind, last⟩ := exists_behind_mark ends rest blank.of_slash
          obtain ⟨first, second⟩ := ih last behind.symm
          exact ⟨.lineEnd ends first, second⟩

theorem Fills.startsBreak_eq_false (fills : Fills fill) (some : fill ≠ []) (cs : List Char) :
    startsBreak (fill ++ cs) = false := by
  cases fills with
  | nil => exact absurd rfl some
  | blank gap => exact not_break_of_isGap gap
  | lineEnd => rfl

/-- Behind a blank a gap goes on like one that starts there. -/
theorem Fills.gap_append (fills : Fills fill) (blank : EndsInGap fill) (cs : List Char) :
    skipGap (fill ++ cs) = skipGap cs ∧ gapOf (fill ++ cs) = fill ++ gapOf cs := by
  induction fills with
  | nil => exact absurd rfl blank.ne_nil
  | @blank c fill gap fills ih =>
      rw [List.cons_append, skipGap_gap gap, gapOf_gap gap]
      by_cases last : fill = []
      · subst last
        exact ⟨rfl, rfl⟩
      · obtain ⟨skipped, taken⟩ := ih (EndsInGap.of_append blank last (a := [c]))
        exact ⟨skipped, congrArg (c :: ·) taken⟩
  | @lineEnd mark fill ends fills ih =>
      have some : fill ≠ [] := by
        rintro rfl
        have mark' : mark ≠ [] := by cases ends <;> exact List.cons_ne_nil _ _
        rw [List.append_nil] at blank
        obtain ⟨c, last, gap⟩ := EndsInGap.of_append blank mark' (a := ['\\'])
        rw [not_gap_of_lineEnd ends (List.mem_of_getLast? last)] at gap
        cases gap
      obtain ⟨skipped, taken⟩ := ih (EndsInGap.of_append blank some (a := '\\' :: mark))
      have joined : LineEnd (mark ++ (fill ++ cs)) (fill ++ cs) := by
        have opens := fills.startsBreak_eq_false some cs
        exact ends.append_of_uncut (.of_startsBreak opens mark)
      rw [List.cons_append, List.append_assoc, skipGap_joined joined, gapOf_joined joined, skipped,
        taken]
      exact ⟨rfl, by simp⟩

/-! ## The text of a statement -/

theorem skipGap_skipGap (cs : List Char) : skipGap (skipGap cs) = skipGap cs := by
  cases start : skipGap cs with
  | nil => rfl
  | cons c t =>
      obtain ⟨plain, single⟩ := start_of_skipGap start
      exact skipGap_plain plain single

theorem gapOf_of_skipGap (skipped : skipGap (fill ++ cs) = cs) : gapOf (fill ++ cs) = fill := by
  have whole := gapOf_append_skipGap (fill ++ cs)
  rw [skipped] at whole
  exact List.append_cancel_right whole

theorem gapOf_ne_nil (gap : afterGap? cs = some (skipGap cs)) : gapOf cs ≠ [] := by
  intro none
  have parts := gapOf_append_skipGap cs
  rw [none, List.nil_append] at parts
  rw [afterGap?_of_eq parts] at gap
  cases gap

theorem Passes.splitStatement_eq (passes : Passes t x) : splitStatement (t ++ x) =
    (t ++ (splitStatement x).1, (splitStatement x).2) := by
  induction passes with
  | nil => rfl
  | plain noBreak none _ ih =>
      rw [List.cons_append, splitStatement_plain noBreak none, ih]
      rfl
  | @gap fill t x some skipped noOptions noComment _ ih =>
      have gap : afterGap? (fill ++ (t ++ x)) = .some (skipGap (fill ++ (t ++ x))) := by
        have positive := List.length_pos_iff.mpr some
        refine afterGap?_of_lt ?_
        simp only [skipped, List.length_append]
        omega
      rw [List.append_assoc, splitStatement_gap gap, skipped, noOptions, noComment,
        gapOf_of_skipGap skipped, ih]
      simp

theorem not_break_of_passes (passes : Passes (c :: t) x) : isBreak c = false := by
  generalize whole : c :: t = all at passes
  cases passes with
  | nil => cases whole
  | plain plain =>
      cases whole
      exact plain
  | @gap fill t' _ some skipped =>
      cases fill with
      | nil => exact absurd rfl some
      | cons d fill =>
          obtain ⟨rfl, -⟩ := List.cons.inj whole
          refine Bool.eq_false_iff.mpr fun isEnd => ?_
          have starts : startsBreak (c :: fill ++ (t' ++ x)) = true := isEnd
          obtain ⟨rest, ends⟩ := LineEnd.exists_of_startsBreak starts
          have length := congrArg List.length ((skipGap_lineEnd ends).symm.trans skipped)
          simp only [List.length_append, List.length_cons] at length
          omega

theorem isPrefixOf_pair_congr {d e : Char} (same : y.head? = x.head?) (c : Char) (t : List Char) :
    [d, e].isPrefixOf (c :: t ++ y) = [d, e].isPrefixOf (c :: t ++ x) := by
  cases t with
  | cons f t => rfl
  | nil => cases x <;> cases y <;> simp_all [List.isPrefixOf]

/-- What is taken up to a gap is taken before any other gap with the same start. -/
theorem Passes.congr (passes : Passes t x) (gap : skipGap x ≠ x) (same : y.head? = x.head?) :
    Passes t y := by
  have head : ∀ t : List Char, (t ++ y).head? = (t ++ x).head? := fun t => by
    rw [List.head?_append, List.head?_append, same]
  induction passes with
  | nil => exact .nil
  | @plain c t x noBreak none passes ih =>
      refine .plain noBreak (afterGap?_of_eq (skipGap_plain ?_ fun slash => ?_)) (ih gap same head)
      · refine Bool.eq_false_iff.mpr fun isGap => ?_
        rw [afterGap?_of_gap isGap] at none
        cases none
      · refine Bool.eq_false_iff.mpr fun starts => ?_
        rw [startsBreak, head, ← startsBreak] at starts
        obtain ⟨rest, ends⟩ := LineEnd.exists_of_startsBreak starts
        rw [slash, afterGap?_of_joined ends] at none
        cases none
  | @gap fill t x some skipped noOptions noComment passes ih =>
      cases t with
      | nil =>
          rw [List.nil_append] at skipped
          exact absurd (skipped ▸ skipGap_skipGap (fill ++ x)) gap
      | cons c t =>
          obtain ⟨plain, single⟩ := start_of_skipGap skipped
          have fills : Fills fill := gapOf_of_skipGap skipped ▸ fills_gapOf _
          have opens : startsBreak (c :: t ++ y) = false := not_break_of_passes passes
          have skipped' : skipGap (fill ++ (c :: t ++ y)) = c :: t ++ y := by
            rw [(fills.skipGap_eq opens).1]
            refine skipGap_plain plain fun slash => ?_
            have opens := single slash
            rwa [startsBreak, List.append_eq, ← head, ← startsBreak] at opens
          exact .gap some skipped' (isPrefixOf_pair_congr same c t ▸ noOptions) noComment
            (ih gap same head)

/-- A blank of the text of a statement is in a gap, which is taken up to this blank. -/
theorem exists_passes (taken : (splitStatement (front ++ back)).1 = front ++ w)
    (blank : EndsInGap front) : ∃ t fill, front = t ++ fill ∧ Fills fill ∧ EndsInGap fill ∧
      Passes t (fill ++ back) := by
  generalize whole : front ++ back = cs at taken
  induction cs using splitStatement_induction generalizing front with
  | nil =>
      rw [splitStatement_nil] at taken
      exact absurd (List.append_eq_nil_iff.mp taken.symm).1 blank.ne_nil
  | lineEnd ends =>
      rw [splitStatement_lineEnd ends] at taken
      exact absurd (List.append_eq_nil_iff.mp taken.symm).1 blank.ne_nil
  | @plain c cs plain none ih =>
      rw [splitStatement_plain plain none] at taken
      cases front with
      | nil => exact absurd rfl blank.ne_nil
      | cons d front =>
          obtain ⟨rfl, rest⟩ := List.cons.inj whole
          have some : front ≠ [] := by
            rintro rfl
            rw [afterGap?_of_gap blank.of_singleton] at none
            cases none
          obtain ⟨t, fill, rfl, fills, ends, passes⟩ :=
            ih (EndsInGap.of_append blank some (a := [d])) rest (List.cons.inj taken).2
          rw [← rest, List.append_eq, List.append_assoc] at none
          exact ⟨d :: t, fill, rfl, fills, ends, .plain plain none passes⟩
  | @gap cs gap ih =>
      have nothing : [] ≠ front ++ w := fun none =>
        blank.ne_nil (List.append_eq_nil_iff.mp none.symm).1
      rw [splitStatement_gap gap] at taken
      split at taken
      · exact absurd taken nothing
      next noOptions =>
      split at taken
      · exact absurd taken nothing
      next noComment =>
      rw [Bool.not_eq_true] at noOptions noComment
      have parts := gapOf_append_skipGap cs
      have some := gapOf_ne_nil gap
      rcases List.append_eq_append_iff.mp taken with ⟨more, rfl, inside⟩ | ⟨more, inside, -⟩
      · have rest : skipGap cs = more ++ back :=
          List.append_cancel_left (parts.trans (whole.symm.trans (List.append_assoc ..)))
        by_cases last : more = []
        · subst last
          rw [List.append_nil] at blank ⊢
          exact ⟨[], gapOf cs, rfl, fills_gapOf cs, blank, .nil⟩
        · obtain ⟨t, fill, rfl, fills, ends, passes⟩ := ih (blank.of_append last) rest.symm inside
          have skipped : skipGap (gapOf cs ++ skipGap cs) = skipGap cs := congrArg skipGap parts
          rw [rest, List.append_assoc] at noOptions noComment skipped
          exact ⟨gapOf cs ++ t, fill, (List.append_assoc ..).symm, fills, ends,
            .gap some skipped noOptions noComment passes⟩
      · have fills := fills_gapOf cs
        rw [inside] at fills
        exact ⟨[], front, rfl, (fills.of_append blank).1, blank, .nil⟩

/-- The text of a statement before options is taken up to the gap before them. -/
theorem passes_of_options {text left : List Char} (split : splitStatement cs = (text, .options, left)) :
    ∃ fill, cs = text ++ (fill ++ left) ∧ fill ≠ [] ∧ skipGap (fill ++ left) = left ∧
      ['-', '-'].isPrefixOf left = true ∧ Passes text (fill ++ left) := by
  induction cs using splitStatement_induction generalizing text with
  | nil =>
      rw [splitStatement_nil] at split
      cases split
  | lineEnd ends =>
      rw [splitStatement_lineEnd ends] at split
      cases split
  | @plain c cs plain none ih =>
      rw [splitStatement_plain plain none] at split
      generalize next : splitStatement cs = s at split
      obtain ⟨text', ending, left'⟩ := s
      cases split
      obtain ⟨fill, rfl, some, skipped, dashes, passes⟩ := ih next
      exact ⟨fill, rfl, some, skipped, dashes, .plain plain none passes⟩
  | @gap cs gap ih =>
      have parts := gapOf_append_skipGap cs
      have some := gapOf_ne_nil gap
      rw [splitStatement_gap gap] at split
      split at split
      · next options =>
          cases split
          exact ⟨gapOf cs, parts.symm, some, by rw [parts], options, .nil⟩
      next noOptions =>
      split at split
      · cases split
      next noComment =>
      rw [Bool.not_eq_true] at noOptions noComment
      generalize next : splitStatement (skipGap cs) = s at split
      obtain ⟨text', ending, left'⟩ := s
      cases split
      obtain ⟨fill, whole, some', skipped, dashes, passes⟩ := ih next
      have skipped' : skipGap (gapOf cs ++ skipGap cs) = skipGap cs := congrArg skipGap parts
      rw [whole] at parts noOptions noComment skipped'
      exact ⟨fill, by rw [List.append_assoc, parts], some', skipped, dashes,
        .gap some skipped' noOptions noComment passes⟩

/-! ## Hashes -/

theorem not_of_head_dropWhile {p : Char → Bool} (first : (cs.dropWhile p).head? = some c) :
    p c = false := by
  have stopped := List.head?_dropWhile_not p cs
  rw [first] at stopped
  simpa using stopped

/-- What is behind a value does not matter beyond its first character. -/
theorem exists_of_value {p : Char → Bool} {rest : List Char} {text : String}
    (scanned : value p cs = .ok (text, rest)) : (∀ c, rest.head? = some c → p c = false) ∧
      ∃ u, cs = u ++ rest ∧ ∀ r, r.head? = rest.head? → value p (u ++ r) = .ok (text, r) := by
  have after : ∀ tail : List Char, finishValue (tail.takeWhile p) (tail.dropWhile p) = .ok (text, rest) →
      rest = tail.dropWhile p ∧ tail.takeWhile p ≠ [] ∧
        ∀ r, r.head? = rest.head? → (tail.takeWhile p ++ r).takeWhile p = tail.takeWhile p ∧
          (tail.takeWhile p ++ r).dropWhile p = r := by
    intro tail finished
    obtain rfl := rest_of_finishValue finished
    refine ⟨rfl, fun none => ?_, fun r same => ?_⟩
    · rw [none] at finished
      cases finished
    · refine span_append (fun c inside => List.mem_takeWhile_imp inside) fun c first => ?_
      exact not_of_head_dropWhile (same ▸ first)
  cases cs with
  | nil => cases scanned
  | cons c cs =>
      by_cases separated : c = '='
      · subst separated
        have finished : finishValue (cs.takeWhile p) (cs.dropWhile p) = .ok (text, rest) := scanned
        obtain ⟨rfl, -, span⟩ := after cs finished
        refine ⟨fun _ => not_of_head_dropWhile, '=' :: cs.takeWhile p,
          by rw [List.cons_append, List.takeWhile_append_dropWhile], fun r same => ?_⟩
        obtain ⟨word, behind⟩ := span r same
        rw [List.cons_append, value, word, behind]
        exact finishValue_ok finished r
      cases gap : isGap c with
      | false =>
          have refused : value p (c :: cs) = _ := value_of_refused fun d first => by
            obtain rfl : c = d := Option.some.inj first
            exact ⟨separated, gap⟩
          cases refused.symm.trans scanned
      | true =>
          rw [value_of_gap gap] at scanned
          obtain ⟨rfl, some, span⟩ := after _ scanned
          refine ⟨fun _ => not_of_head_dropWhile, (c :: cs).takeWhile isGap
            ++ ((c :: cs).dropWhile isGap).takeWhile p, by simp, fun r same => ?_⟩
          obtain ⟨word, behind⟩ := span r same
          have stops : ∀ d, (((c :: cs).dropWhile isGap).takeWhile p ++ r).head? = .some d →
              isGap d = false := by
            intro d first
            obtain ⟨e, word, same⟩ := List.exists_cons_of_ne_nil some
            obtain ⟨more, whole⟩ := List.takeWhile_prefix (l := (c :: cs).dropWhile isGap) p
            rw [same] at whole first
            obtain rfl : e = d := Option.some.inj first
            have start : ((c :: cs).dropWhile isGap).head? = .some e := by
              rw [← whole]
              rfl
            exact not_of_head_dropWhile start
          have gaps : ∀ d ∈ (c :: cs).takeWhile isGap, isGap d = true :=
            fun d inside => List.mem_takeWhile_imp inside
          have blank : (c :: cs).takeWhile isGap ≠ [] := by
            rw [List.takeWhile_cons_of_pos gap]
            exact List.cons_ne_nil _ _
          rw [List.append_assoc, value_of_gaps gaps blank stops, word, behind]
          exact finishValue_ok scanned r

theorem HashesUpTo.moreHashes_eq {found : List String} (upTo : HashesUpTo cs found left) :
    moreHashes cs = (moreHashes left).map fun (hashes, rest) => (found ++ hashes, rest) := by
  induction upTo with
  | nil => cases moreHashes _ <;> rfl
  | cons word valued _ ih =>
      rw [moreHashes_of_hash word, valued]
      simp only [ih]
      cases moreHashes _ <;> rfl

/-- What is behind some hashes does not matter beyond its first character. -/
theorem HashesUpTo.exists_front {found : List String} (upTo : HashesUpTo cs found left) :
    ∃ u, cs = u ++ left ∧ ∀ r, r.head? = left.head? → HashesUpTo (u ++ r) found r := by
  induction upTo with
  | nil => exact ⟨[], rfl, fun _ _ => .nil⟩
  | @cons cs rest left hash found word valued upTo ih =>
      obtain ⟨u, rfl, congr⟩ := ih
      obtain ⟨stops, v, whole, valued'⟩ := exists_of_value valued
      have start : skipGap cs = hashWord ++ (v ++ (u ++ left)) := by
        obtain ⟨more, whole'⟩ := List.isPrefixOf_iff_prefix.mp word
        rw [← whole', List.drop_left] at whole
        rw [← whole', whole]
      refine ⟨gapOf cs ++ (hashWord ++ (v ++ u)), ?_, fun r same => ?_⟩
      · simpa [start] using (gapOf_append_skipGap cs).symm
      · have head : (u ++ r).head? = (u ++ left).head? := by
          rw [List.head?_append, List.head?_append, same]
        have skipped : skipGap (gapOf cs ++ (hashWord ++ (v ++ u)) ++ r) = hashWord ++ (v ++ (u ++ r)) := by
          simp only [List.append_assoc]
          rw [(fills_gapOf cs).skipGap_hashWord]
        refine .cons ?_ ?_ (congr r same)
        · rw [skipped]
          exact hashWord_isPrefixOf _
        · rw [skipped, List.drop_left]
          exact valued' (u ++ r) head

end PinFloor
