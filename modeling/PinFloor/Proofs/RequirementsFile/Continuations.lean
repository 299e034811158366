import PinFloor.Proofs.RequirementsFile.Passing

/-! # Joined line ends behind blanks

Behind a blank within a requirement, before its hashes or between them, a `\` and a line end may be
put in, and the requirement is read as before. The blanks before a value are others: they are not
joined to the next line, and there the value is the `\`.
-/

namespace PinFloor

open Scanner

/-- A place in the entry that `front ++ back` starts with: a blank at the end of `front`, with another
    token of the requirement, its first hash or a further hash behind it. -/
inductive Wrappable (front back : List Char) : Prop where
  | token {w left : List Char} {ending : Ending} :
      splitStatement (front ++ back) = (front ++ w, ending, left) → w ≠ [] →
      Wrappable front back
  | firstHash {text fill : List Char} : front = text ++ fill → Fills fill → EndsInGap fill →
      splitStatement (front ++ back) = (text, .options, skipGap back) → Wrappable front back
  | nextHash {before text rest fill : List Char} {hash : String} {found : List String} :
      front = before ++ fill → Fills fill → EndsInGap fill →
      splitStatement (front ++ back) = (text, .options, rest) →
      HashesUpTo rest (hash :: found) (fill ++ back) → hashWord.isPrefixOf (skipGap back) = true →
      Wrappable front back

/-- The statements of an option, by its value. -/
inductive TakesValue : (String → Statement) → Prop where
  | «include» (kind : IncludeKind) : TakesValue fun file => .include kind ⟨file⟩
  | editable : TakesValue .editable
  | option (option : ValueOption) : TakesValue fun value => .option (.setting option value)

/-- The statements of an entry, by its hashes. -/
inductive TakesHashes : (List String → Statement) → Prop where
  | requirement (r : Requirement) : TakesHashes (.requirement r)
  | unnamed (target : String) : TakesHashes fun _ => .unnamed target

/-- A place in the statement that `front ++ back` starts with: blanks at the end of `front`, before the
    value of an option or of a hash. The second statement has a `\` as this value, and no hash behind
    it. -/
inductive BeforeValue (front back : List Char) : Statement → Statement → Prop where
  | option {key gap rest : List Char} {value : String} {make : String → Statement} :
      TakesValue make → front = key ++ gap → (∀ c ∈ key, isBlank c = false ∧ c ≠ '=') →
      (∀ c ∈ gap, isGap c = true) → gap ≠ [] →
      statement? (front ++ back) = some (.ok (make value, rest)) →
      BeforeValue front back (make value) (make "\\")
  | hash {before text fill gap rest left : List Char} {found hashes : List String}
      {make : List String → Statement} :
      TakesHashes make → front = before ++ (fill ++ (hashWord ++ gap)) → Fills fill →
      (∀ c ∈ gap, isGap c = true) → gap ≠ [] →
      splitStatement (front ++ back) = (text, .options, rest) →
      HashesUpTo rest found (fill ++ (hashWord ++ (gap ++ back))) →
      statement? (front ++ back) = some (.ok (make hashes, left)) →
      BeforeValue front back (make hashes) (make (found ++ ["\\"]))

variable {c : Char} {front back mark text left rest w gap key : List Char} {st : Statement}

theorem startsBreak_of_skipGap (opens : startsBreak (skipGap back) = false) :
    startsBreak back = false := by
  refine Bool.eq_false_iff.mpr fun starts => ?_
  obtain ⟨rest, ends⟩ := LineEnd.exists_of_startsBreak starts
  rw [skipGap_lineEnd ends, starts] at opens
  cases opens

theorem startsBreak_of_word {c : Char} {w : List Char} (plain : isBreak c = false)
    (word : (c :: w).isPrefixOf text = true) : startsBreak text = false := by
  obtain ⟨more, rfl⟩ := List.isPrefixOf_iff_prefix.mp word
  exact plain

theorem lineEnd_before (ends : LineEnd mark []) (opens : startsBreak back = false) :
    LineEnd (mark ++ back) back :=
  ends.append_of_uncut (.of_startsBreak opens mark)

/-- A joined line end behind a blank is part of the gap. -/
theorem skipGap_wrapped {fill : List Char} (fills : Fills fill) (blank : EndsInGap fill)
    (ends : LineEnd (mark ++ back) back) :
    skipGap (fill ++ '\\' :: (mark ++ back)) = skipGap back ∧
      gapOf (fill ++ '\\' :: (mark ++ back)) = fill ++ '\\' :: (mark ++ gapOf back) := by
  obtain ⟨skipped, taken⟩ := fills.gap_append blank ('\\' :: (mark ++ back))
  rw [skipped, taken, skipGap_joined ends, gapOf_joined ends]
  exact ⟨rfl, rfl⟩

namespace Scanner

/-- What follows a blank of some joined lines is joined lines as well, and may be replaced by others
    that give the same line. -/
theorem Joins.exists_behind {line : List Char} (joins : Joins (front ++ w) line)
    (blank : EndsInGap front) :
    ∃ tail, Joins w tail ∧ ∀ w', Joins w' tail → Joins (front ++ w') line := by
  generalize whole : front ++ w = all at joins
  induction joins generalizing front with
  | nil => exact absurd (List.append_eq_nil_iff.mp whole).1 blank.ne_nil
  | @char c text line plain joins ih =>
      cases front with
      | nil => exact absurd rfl blank.ne_nil
      | cons d front =>
          obtain ⟨rfl, rest⟩ := List.cons.inj whole
          by_cases last : front = []
          · subst last
            obtain rfl : w = text := rest
            exact ⟨line, joins, fun w' joins' => .char plain joins'⟩
          · obtain ⟨tail, behind, congr⟩ := ih (EndsInGap.of_append blank last (a := [d])) rest
            exact ⟨tail, behind, fun w' joins' => .char plain (congr w' joins')⟩
  | @lineEnd cs text line ends joins ih =>
      cases front with
      | nil => exact absurd rfl blank.ne_nil
      | cons d front =>
          obtain ⟨rfl, rest⟩ := List.cons.inj whole
          obtain ⟨mark, rfl, before⟩ := ends.exists_mark
          have alone := before [] nofun
          rw [List.append_nil] at alone
          obtain ⟨more, rfl, rfl, last⟩ := exists_behind_mark alone rest blank.of_slash
          obtain ⟨tail, behind, congr⟩ := ih last rfl
          refine ⟨tail, behind, fun w' joins' => ?_⟩
          have ends' : LineEnd (mark ++ (more ++ w')) (more ++ w') := before _ fun newline => by
            obtain ⟨c, more, rfl⟩ := List.exists_cons_of_ne_nil last.ne_nil
            exact newline
          rw [List.cons_append, List.append_assoc]
          exact .lineEnd ends' (congr w' joins')

end Scanner

/-! ## Wrapped entries -/

theorem EndsInGap.exists_blank (blank : EndsInGap front) : ∃ c ∈ front, isBlank c = true := by
  obtain ⟨c, last, gap⟩ := blank
  exact ⟨c, List.mem_of_getLast? last, isBlank_of_isGap gap⟩

theorem isUnnamed_append (blank : ∃ c ∈ front, isBlank c = true) (r : List Char) :
    isUnnamed (front ++ r) = isUnnamed front := by
  obtain ⟨c, inside, gap⟩ := blank
  have stops : (!isBlank c && c ≠ ';') = false := by simp [gap]
  have short : (front.takeWhile fun c => !isBlank c && c ≠ ';').length ≠ front.length := by
    intro whole
    rw [← (List.takeWhile_prefix _).eq_of_length whole] at inside
    have taken := List.mem_takeWhile_imp inside
    rw [stops] at taken
    cases taken
  rw [isUnnamed, isUnnamed, List.takeWhile_append, if_neg short]

theorem afterGap?_fills {fill : List Char} (fills : Fills fill) (blank : EndsInGap fill)
    (cs : List Char) : afterGap? (fill ++ cs) = some (skipGap (fill ++ cs)) := by
  refine afterGap?_of_lt ?_
  have shorter := length_skipGap_le cs
  have positive := List.length_pos_iff.mpr blank.ne_nil
  rw [(fills.gap_append blank cs).1, List.length_append]
  omega

theorem Passes.wrapped {t fill : List Char} (passes : Passes t (fill ++ back)) (fills : Fills fill)
    (blank : EndsInGap fill) (r : List Char) : Passes t (fill ++ r) := by
  refine passes.congr (fun same => ?_) ?_
  · have gap := afterGap?_fills fills blank back
    rw [afterGap?_of_eq same] at gap
    cases gap
  · obtain ⟨c, fill, rfl⟩ := List.exists_cons_of_ne_nil blank.ne_nil
    rfl

/-- A joined line end within the text of a statement leaves its line as it is. -/
theorem splitStatement_token {ending : Ending} (blank : EndsInGap front) (ends : LineEnd mark [])
    (split : splitStatement (front ++ back) = (front ++ w, ending, left)) (some : w ≠ []) :
    startsBreak back = false ∧ ∃ text,
      splitStatement (front ++ '\\' :: (mark ++ back)) = (text, ending, left) ∧
        joinLines text = joinLines (front ++ w) := by
  obtain ⟨line, joins⟩ := exists_joins (front ++ back)
  rw [split] at joins
  obtain ⟨tail, behind, congr⟩ := joins.exists_behind blank
  have opens : startsBreak back = false := by
    obtain ⟨⟨between, whole⟩, -⟩ := splitStatement_parts (front ++ back)
    rw [split, List.append_assoc, List.append_assoc] at whole
    have opens := behind.startsBreak_eq_false
    obtain ⟨c, w, rfl⟩ := List.exists_cons_of_ne_nil some
    rw [List.append_cancel_left whole]
    exact opens
  have wrapped : Joins (front ++ '\\' :: (mark ++ w)) line :=
    congr _ (.lineEnd (lineEnd_before ends behind.startsBreak_eq_false) behind)
  refine ⟨opens, front ++ '\\' :: (mark ++ w), ?_, by rw [wrapped.joinLines_eq, joins.joinLines_eq]⟩
  obtain ⟨t, fill, rfl, fills, blank', passes⟩ := exists_passes (congrArg Prod.fst split) blank
  obtain ⟨skipped, taken⟩ := fills.gap_append blank' back
  obtain ⟨skipped', taken'⟩ := skipGap_wrapped fills blank' (lineEnd_before ends opens)
  have whole := passes.splitStatement_eq
  have whole' := (passes.wrapped fills blank' ('\\' :: (mark ++ back))).splitStatement_eq
  rw [splitStatement_gap (afterGap?_fills fills blank' _), skipped', taken'] at whole'
  rw [← List.append_assoc, split, splitStatement_gap (afterGap?_fills fills blank' _), skipped,
    taken] at whole
  have nothing : t ++ fill ++ w ≠ t ++ [] := fun none =>
    blank'.ne_nil (List.append_eq_nil_iff.mp (List.append_cancel_left
      ((List.append_assoc ..).symm.trans none))).1
  split at whole
  · exact absurd (congrArg Prod.fst whole) nothing
  next noOptions =>
  split at whole
  · exact absurd (congrArg Prod.fst whole) nothing
  next noComment =>
  rw [if_neg noOptions, if_neg noComment] at whole'
  obtain ⟨text, rest⟩ := Prod.mk.inj whole
  have inside : w = gapOf back ++ (splitStatement (skipGap back)).1 := by
    simpa only [List.append_assoc, List.append_cancel_left_eq] using text
  rw [List.append_assoc, whole', ← rest, inside]
  simp only [List.append_assoc, List.cons_append]

/-- The form of an entry is known from what is before its first blank. -/
theorem statement?_of_entry (entry : front.head? ≠ some '-')
    (blank : ∃ c ∈ front, isBlank c = true) : ∃ c f, front = c :: f ∧ ∀ r,
      statement? (front ++ r) = if isUnnamed front then some (unnamed (front ++ r))
        else if c.isAlphanum then some (requirement (front ++ r))
        else some (.error (.malformed (.unexpectedStart c) (front ++ r))) := by
  have target := isUnnamed_append blank
  obtain ⟨_, inside, -⟩ := blank
  obtain ⟨c, f, rfl⟩ := List.exists_cons_of_ne_nil (List.ne_nil_of_mem inside)
  have dash : c ≠ '-' := fun same => entry (congrArg some same)
  exact ⟨c, f, rfl, fun r => by rw [← target r, List.cons_append, statement?, if_neg dash]⟩

/-- An entry is known from the line of its text and from the hashes behind it. -/
theorem exists_entry (entry : front.head? ≠ some '-') (blank : ∃ c ∈ front, isBlank c = true)
    (scanned : statement? (front ++ back) = some (.ok (st, rest))) : ∃ make hashes,
      TakesHashes make ∧ st = make hashes ∧ trailingHashes (splitStatement (front ++ back)).2.1
        (splitStatement (front ++ back)).2.2 = .ok (hashes, rest) ∧
      ∀ r hashes' rest', joinLines (splitStatement (front ++ r)).1
          = joinLines (splitStatement (front ++ back)).1 →
        trailingHashes (splitStatement (front ++ r)).2.1 (splitStatement (front ++ r)).2.2
          = .ok (hashes', rest') → statement? (front ++ r) = some (.ok (make hashes', rest')) := by
  obtain ⟨c, f, -, shape⟩ := statement?_of_entry entry blank
  rw [shape] at scanned
  split at scanned
  · next looks =>
      obtain ⟨⟨hashes, left⟩, trailing, whole⟩ := exists_of_map_eq_ok (Option.some.inj scanned)
      cases whole
      refine ⟨_, hashes, .unnamed _, rfl, trailing, fun r hashes' rest' line trailing' => ?_⟩
      rw [shape, if_pos looks, unnamed_eq, trailing', line]
      rfl
  next named =>
  split at scanned
  · next letter =>
      have read := Option.some.inj scanned
      rw [requirement_eq] at read
      split at read
      · cases read
      · next parsed =>
          obtain ⟨⟨hashes, left⟩, trailing, whole⟩ := exists_of_map_eq_ok read
          cases whole
          refine ⟨_, hashes, .requirement _, rfl, trailing, fun r hashes' rest' line trailing' => ?_⟩
          rw [shape, if_neg named, if_pos letter, requirement_eq, line, parsed, trailing']
          rfl
  · cases scanned

/-! ## Hashes behind an entry -/

theorem hashWord_of_upTo {found : List String} {cs : List Char} (upTo : HashesUpTo cs found left)
    (some : found ≠ []) (dash : cs.head? = .some '-') : hashWord.isPrefixOf cs = true := by
  obtain ⟨more, rfl⟩ := List.head?_eq_some_iff.mp dash
  cases upTo with
  | nil => exact absurd rfl some
  | cons word =>
      rwa [skipGap_plain rfl fun slash => absurd slash (by decide)] at word

theorem HashesUpTo.append {cs mid : List Char} {found others : List String}
    (first : HashesUpTo cs found mid) (second : HashesUpTo mid others left) :
    HashesUpTo cs (found ++ others) left := by
  induction first with
  | nil => exact second
  | cons word valued _ ih => exact .cons word valued (ih second)

/-- The text of an entry is split off before its hashes, whatever these are. -/
theorem splitStatement_hashes {cs : List Char} (split : splitStatement cs = (text, .options, left)) :
    left.head? = some '-' ∧ ∃ fill, cs = text ++ (fill ++ left) ∧
      ∀ r, hashWord.isPrefixOf r = true → splitStatement (text ++ (fill ++ r)) = (text, .options, r) := by
  obtain ⟨fill, whole, some, skipped, dashes, passes⟩ := passes_of_options split
  have positive := List.length_pos_iff.mpr some
  refine ⟨?_, fill, whole, fun r word => ?_⟩
  · obtain ⟨more, rfl⟩ := List.isPrefixOf_iff_prefix.mp dashes
    rfl
  · have fills : Fills fill := gapOf_of_skipGap skipped ▸ fills_gapOf _
    obtain ⟨more, rfl⟩ := List.isPrefixOf_iff_prefix.mp word
    have skipped' := fills.skipGap_hashWord more
    have gap : skipGap (fill ++ left) ≠ fill ++ left := by
      rw [skipped]
      intro same
      have length := congrArg List.length same
      rw [List.length_append] at length
      omega
    have first : (fill ++ (hashWord ++ more)).head? = (fill ++ left).head? := by
      obtain ⟨c, fill, rfl⟩ := List.exists_cons_of_ne_nil some
      rfl
    have behind : afterGap? (fill ++ (hashWord ++ more))
        = .some (skipGap (fill ++ (hashWord ++ more))) := by
      refine afterGap?_of_lt ?_
      simp only [skipped', List.length_append]
      omega
    rw [(passes.congr gap first).splitStatement_eq, splitStatement_gap behind, skipped']
    simp [hashWord]

/-- Behind some of its hashes an entry may go on with others. -/
theorem splitStatement_upTo {found others : List String} {x y : List Char}
    (split : splitStatement (front ++ x) = (text, .options, rest)) (upTo : HashesUpTo rest found x)
    (same : y.head? = x.head?) (upTo' : HashesUpTo y others left) (some : found ++ others ≠ []) :
    ∃ rest', splitStatement (front ++ y) = (text, .options, rest') ∧
      hashWord.isPrefixOf rest' = true ∧ HashesUpTo rest' (found ++ others) left := by
  obtain ⟨dash, fill, whole, congr⟩ := splitStatement_hashes split
  obtain ⟨u, rfl, before⟩ := upTo.exists_front
  have all := (before y same).append upTo'
  have dash' : (u ++ y).head? = .some '-' := by
    rw [List.head?_append] at dash ⊢
    rw [same, dash]
  have word := hashWord_of_upTo all some dash'
  have parts : front = text ++ (fill ++ u) := by
    refine List.append_cancel_right (whole.trans ?_)
    simp only [List.append_assoc]
  refine ⟨u ++ y, ?_, word, all⟩
  rw [parts, List.append_assoc, List.append_assoc]
  exact congr (u ++ y) word

theorem hashes_upTo {found : List String} {cs : List Char} (word : hashWord.isPrefixOf cs = true)
    (upTo : HashesUpTo cs found left) : hashes cs =
      match moreHashes left with
      | .error refusal => .error refusal
      | .ok (others, rest) => (endLine rest).map fun ((), rest) => (found ++ others, rest) := by
  rw [hashes, word, upTo.moreHashes_eq]
  cases moreHashes left <;> rfl

/-- At the places in an entry a joined line end changes nothing. -/
theorem Wrappable.statement?_eq (wrappable : Wrappable front back) (entry : front.head? ≠ some '-')
    (blank : EndsInGap front) (ends : LineEnd mark [])
    (scanned : statement? (front ++ back) = some (.ok (st, rest))) : startsBreak back = false ∧
      statement? (front ++ '\\' :: (mark ++ back)) = some (.ok (st, rest)) := by
  obtain ⟨make, hashes, -, rfl, trailing, congr⟩ := exists_entry entry blank.exists_blank scanned
  cases wrappable with
  | token split some =>
      obtain ⟨opens, text, split', line⟩ := splitStatement_token blank ends split some
      rw [split] at trailing congr
      refine ⟨opens, congr _ hashes rest (by rw [split', line]) ?_⟩
      rw [split']
      exact trailing
  | @firstHash text fill whole fills blank' split =>
      subst whole
      obtain ⟨fill', whole, -, -, dashes, passes⟩ := passes_of_options split
      rw [List.append_assoc] at whole
      rw [← List.append_cancel_left whole] at passes
      have opens : startsBreak back = false := startsBreak_of_skipGap (startsBreak_of_word rfl dashes)
      obtain ⟨skipped, -⟩ := skipGap_wrapped fills blank' (lineEnd_before ends opens)
      have split' : splitStatement (text ++ fill ++ '\\' :: (mark ++ back))
          = (text, .options, skipGap back) := by
        rw [List.append_assoc, (passes.wrapped fills blank' _).splitStatement_eq,
          splitStatement_gap (afterGap?_fills fills blank' _), skipped, if_pos dashes,
          List.append_nil]
      rw [split] at trailing congr
      refine ⟨opens, congr _ hashes rest (by rw [split']) ?_⟩
      rw [split']
      exact trailing
  | @nextHash before text rest' fill hash found whole fills blank' split upTo word =>
      subst whole
      have opens : startsBreak back = false := startsBreak_of_skipGap (startsBreak_of_word rfl word)
      obtain ⟨skipped, -⟩ := skipGap_wrapped fills blank' (lineEnd_before ends opens)
      have same : (fill ++ '\\' :: (mark ++ back)).head? = (fill ++ back).head? := by
        obtain ⟨c, fill, rfl⟩ := List.exists_cons_of_ne_nil blank'.ne_nil
        rfl
      have read := congr ('\\' :: (mark ++ back)) hashes rest
      rw [List.append_assoc] at split trailing
      have first := hashWord_of_upTo upTo (List.cons_ne_nil _ _) (splitStatement_hashes split).1
      obtain ⟨left', split', first', upTo'⟩ :=
        splitStatement_upTo split upTo same .nil (by simp)
      have others : moreHashes (fill ++ '\\' :: (mark ++ back)) = moreHashes (fill ++ back) :=
        moreHashes_congr (skipped.trans (fills.gap_append blank' back).1.symm)
      rw [List.append_nil] at upTo'
      rw [split, trailingHashes, hashes_upTo first upTo] at trailing
      simp only [List.append_assoc, split, split', trailingHashes, hashes_upTo first' upTo', others]
        at read
      rw [List.append_assoc]
      exact ⟨opens, read trivial trailing⟩

/-! ## Values -/

/-- A `\` at a line end is a value of its own. -/
theorem value_cut {p : Char → Bool} (gaps : ∀ c ∈ gap, isGap c = true) (some : gap ≠ [])
    (slash : p '\\' = true) (stops : StopsAtBreak p) (ends : LineEnd (mark ++ back) back) :
    value p (gap ++ '\\' :: (mark ++ back)) = .ok ("\\", mark ++ back) := by
  have visible : ∀ c, ('\\' :: (mark ++ back)).head? = .some c → isGap c = false := by
    rintro c ⟨⟩
    rfl
  rw [value_of_gaps gaps some visible, List.takeWhile_cons_of_pos slash,
    List.dropWhile_cons_of_pos slash, stops.takeWhile ends, stops.dropWhile ends]
  rfl

/-- No line ends between the key of an option and its value. -/
theorem startsBreak_of_value {p : Char → Bool} {found : String}
    (gaps : ∀ c ∈ gap, isGap c = true) (some : gap ≠ []) (stops : StopsAtBreak p)
    (valued : value p (gap ++ back) = .ok (found, rest)) : startsBreak back = false := by
  refine Bool.eq_false_iff.mpr fun starts => ?_
  obtain ⟨after, ends⟩ := LineEnd.exists_of_startsBreak starts
  have visible := fun c first => (not_separator_of_lineEnd ends c first).2
  rw [value_of_gaps gaps some visible, stops.takeWhile ends] at valued
  cases valued

theorem lineValue_cut {p : Char → Bool} {found : String} (gaps : ∀ c ∈ gap, isGap c = true)
    (some : gap ≠ []) (slash : p '\\' = true) (stops : StopsAtBreak p) (ends : LineEnd mark [])
    (scanned : lineValue p (gap ++ back) = .ok (found, rest)) : startsBreak back = false ∧
      lineValue p (gap ++ '\\' :: (mark ++ back)) = .ok ("\\", back) := by
  rw [lineValue] at scanned
  split at scanned
  · cases scanned
  · next valued =>
      have opens := startsBreak_of_value gaps some stops valued
      have ends' := lineEnd_before ends opens
      have ended := endLine_of_lineEnd (stopsAtBreak_isGap.dropWhile ends') ends'
      refine ⟨opens, ?_⟩
      rw [lineValue, value_cut gaps some slash stops ends']
      simp only [ended]
      rfl

theorem option_of_value {cs : List Char} {value : String} {make : String → Statement}
    (takes : TakesValue make) (scanned : statement? cs = some (.ok (make value, rest))) :
    ∃ more, cs = '-' :: more ∧ option cs = .ok (make value, rest) := by
  cases cs with
  | nil => cases scanned
  | cons c cs =>
      rw [statement?] at scanned
      split at scanned
      · next dash => exact ⟨cs, by rw [dash], Option.some.inj scanned⟩
      split at scanned
      · obtain ⟨_, -, other⟩ := exists_of_map_eq_ok (Option.some.inj scanned)
        cases takes <;> cases other
      split at scanned
      · have read := Option.some.inj scanned
        rw [requirement_eq] at read
        split at read
        · cases read
        · obtain ⟨_, -, other⟩ := exists_of_map_eq_ok read
          cases takes <;> cases other
      · cases scanned

theorem option_cut {value : String} {make : String → Statement} (takes : TakesValue make)
    (letters : ∀ c ∈ key, isBlank c = false ∧ c ≠ '=') (gaps : ∀ c ∈ gap, isGap c = true)
    (some : gap ≠ []) (ends : LineEnd mark [])
    (scanned : option (key ++ (gap ++ back)) = .ok (make value, rest)) : startsBreak back = false ∧
      option (key ++ (gap ++ '\\' :: (mark ++ back))) = .ok (make "\\", back) := by
  have inside : ∀ c ∈ key, (!isBlank c && decide (c ≠ '=')) = true := fun c member => by
    simp [letters c member]
  have stops : ∀ r c, (gap ++ r).head? = .some c → (!isBlank c && decide (c ≠ '=')) = false := by
    intro r c first
    obtain ⟨d, gap, rfl⟩ := List.exists_cons_of_ne_nil some
    cases first
    simp [isBlank_of_isGap (gaps c List.mem_cons_self)]
  have parts := fun r => span_append inside (stops r)
  simp only [option, (parts _).1, (parts _).2] at scanned ⊢
  generalize String.ofList key = name at scanned ⊢
  have fileName : ∀ {found rest}, lineValue inFileName (gap ++ back) = .ok (found, rest) → _ :=
    lineValue_cut gaps some rfl stopsAtBreak_inFileName ends
  have word : ∀ {found rest}, lineValue (!isBlank ·) (gap ++ back) = .ok (found, rest) → _ :=
    lineValue_cut gaps some rfl stopsAtBreak_notBlank ends
  split at scanned
  case h_7 =>
    split at scanned
    · obtain ⟨⟨found, next⟩, read, whole⟩ := exists_of_map_eq_ok scanned
      obtain ⟨opens, cut⟩ := word read
      refine ⟨opens, ?_⟩
      simp only [cut]
      cases takes <;> cases whole
      rfl
    · obtain ⟨_, -, whole⟩ := exists_of_map_eq_ok scanned
      cases takes <;> cases whole
    · cases scanned
  case h_1 | h_2 | h_3 | h_4 =>
    obtain ⟨⟨found, next⟩, read, whole⟩ := exists_of_map_eq_ok scanned
    obtain ⟨opens, cut⟩ := fileName read
    refine ⟨opens, ?_⟩
    simp only [cut]
    cases takes <;> cases whole
    rfl
  case h_5 | h_6 =>
    obtain ⟨⟨found, next⟩, read, whole⟩ := exists_of_map_eq_ok scanned
    obtain ⟨opens, cut⟩ := word read
    refine ⟨opens, ?_⟩
    simp only [cut]
    cases takes <;> cases whole
    rfl

theorem TakesHashes.head_ne_dash {make : List String → Statement} {hashes : List String}
    {cs : List Char} (takes : TakesHashes make)
    (scanned : statement? cs = some (.ok (make hashes, rest))) : cs.head? ≠ some '-' := by
  intro dash
  obtain ⟨more, rfl⟩ := List.head?_eq_some_iff.mp dash
  rw [statement?, if_pos rfl, option] at scanned
  have read := Option.some.inj scanned
  repeat' split at read
  all_goals first
    | cases read
    | obtain ⟨_, -, other⟩ := exists_of_map_eq_ok read
      cases takes <;> cases other

theorem TakesHashes.unique {make make' : List String → Statement} {hashes hashes' : List String}
    (takes : TakesHashes make) (takes' : TakesHashes make') (same : make hashes = make' hashes') :
    make = make' := by
  cases takes <;> cases takes' <;> cases same <;> rfl

theorem endsInGap_of_gaps (gaps : ∀ c ∈ gap, isGap c = true) (some : gap ≠ []) (text : List Char) :
    EndsInGap (text ++ gap) := by
  refine ⟨gap.getLast some, ?_, gaps _ (List.getLast_mem some)⟩
  rw [List.getLast?_append, List.getLast?_eq_some_getLast some, Option.some_or]

theorem hashWord_of_hashes {cs : List Char} {result : List String × List Char}
    (scanned : hashes cs = .ok result) : hashWord.isPrefixOf cs = true := by
  rw [hashes] at scanned
  split at scanned
  · cases scanned
  · next word => simpa using word

/-- Where the last value is the `\` before a line end, the entry ends with this line. -/
theorem hashes_cut {cs : List Char} {found : List String} (word : hashWord.isPrefixOf cs = true)
    (upTo : HashesUpTo cs found (mark ++ back)) (ends : LineEnd (mark ++ back) back) :
    hashes cs = .ok (found, back) := by
  have skipped : skipGap (mark ++ back) = mark ++ back := skipGap_lineEnd ends
  have none : hashWord.isPrefixOf (skipGap (mark ++ back)) = false := by
    rw [skipped]
    exact not_isPrefixOf_lineEnd rfl ends
  have ended := endLine_of_lineEnd (stopsAtBreak_isGap.dropWhile ends) ends
  rw [hashes_upTo word upTo, moreHashes_of_none none, skipped]
  simp only [ended, List.append_nil]
  rfl

/-- Before a value a joined line end is none: the `\` is the value, and the next line starts behind it. -/
theorem BeforeValue.statement?_eq {cut : Statement} (before : BeforeValue front back st cut)
    (ends : LineEnd mark []) : startsBreak back = false ∧ EndsInGap front ∧
      (∃ rest, statement? (front ++ back) = some (.ok (st, rest))) ∧
        statement? (front ++ '\\' :: (mark ++ back)) = some (.ok (cut, back)) := by
  cases before with
  | @option key gap rest value make takes whole letters gaps some scanned =>
      subst whole
      have blank := endsInGap_of_gaps gaps some key
      obtain ⟨more, first, read⟩ := option_of_value takes scanned
      rw [List.append_assoc] at read
      obtain ⟨opens, cut⟩ := option_cut takes letters gaps some ends read
      refine ⟨opens, blank, ⟨rest, scanned⟩, ?_⟩
      rw [← List.append_assoc] at cut
      obtain ⟨c, front, same⟩ := List.exists_cons_of_ne_nil blank.ne_nil
      rw [same] at first cut ⊢
      obtain rfl : c = '-' := (List.cons.inj first).1
      exact congrArg Option.some cut
  | @hash before text fill gap rest left found hashes make takes whole fills gaps some split upTo scanned =>
      have blank : EndsInGap front := by
        rw [whole, ← List.append_assoc, ← List.append_assoc]
        exact endsInGap_of_gaps gaps some _
      have entry : front.head? ≠ .some '-' := fun dash => takes.head_ne_dash scanned (by
        rw [List.head?_append, dash, Option.some_or])
      obtain ⟨make', hashes', takes', same, trailing, congr⟩ := exists_entry entry blank.exists_blank scanned
      obtain rfl := takes.unique takes' same
      have start := fills.skipGap_hashWord
      have word : ∀ r, hashWord.isPrefixOf (skipGap (fill ++ (hashWord ++ r))) = true := fun r => by
        rw [start]
        exact hashWord_isPrefixOf r
      have opens : startsBreak back = false := by
        rw [split] at trailing
        have first := hashWord_of_hashes trailing
        rw [trailingHashes, hashes_upTo first upTo, moreHashes_of_hash (word _), start,
          List.drop_left] at trailing
        cases valued : value (!isBlank ·) (gap ++ back) with
        | error refusal =>
            rw [valued] at trailing
            cases trailing
        | ok result => exact startsBreak_of_value gaps some stopsAtBreak_notBlank valued
      have ends' := lineEnd_before ends opens
      have cut : HashesUpTo (fill ++ (hashWord ++ (gap ++ '\\' :: (mark ++ back)))) ["\\"]
          (mark ++ back) := by
        refine .cons (word _) ?_ .nil
        rw [start, List.drop_left]
        exact value_cut gaps some rfl stopsAtBreak_notBlank ends'
      have head : (fill ++ (hashWord ++ (gap ++ '\\' :: (mark ++ back)))).head?
          = (fill ++ (hashWord ++ (gap ++ back))).head? := by
        cases fill <;> rfl
      have parts : ∀ r, front ++ r = before ++ (fill ++ (hashWord ++ (gap ++ r))) := fun r => by
        simp only [whole, List.append_assoc]
      have read := congr ('\\' :: (mark ++ back)) (found ++ ["\\"]) back
      rw [parts] at split
      obtain ⟨rest', split', word', upTo'⟩ :=
        splitStatement_upTo split upTo head cut (by simp)
      rw [parts, parts, split, split', trailingHashes] at read
      refine ⟨opens, blank, ⟨left, scanned⟩, ?_⟩
      rw [parts]
      exact read rfl (hashes_cut word' upTo' ends')

end PinFloor
