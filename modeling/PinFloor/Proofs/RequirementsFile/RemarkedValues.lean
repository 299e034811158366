import PinFloor.Proofs.RequirementsFile.Remarks

/-! # Values and hashes with remarks behind them

A value ends at the remark, or takes in its blanks and loses them when it is trimmed. So values, the
ends of their lines and hashes are read with remarks as without them.
-/

namespace PinFloor

open Scanner

variable {opens : Bool} {c : Char} {cs ds cs' ds' pad rest : List Char} {p : Char → Bool}

/-- What is read from the first text is read from the second one, and what is left of them differs
    in remarks. -/
def Keeps {α : Type} (s t : Scan α) : Prop :=
  ∀ a rest, s = .ok (a, rest) → ∃ rest', t = .ok (a, rest') ∧ Remarked true rest rest'

section

variable {α β : Type} {s t : Scan α}

theorem Keeps.ok (a : α) (remarked : Remarked true cs ds) :
    Keeps (.ok (a, cs)) (.ok (a, ds)) := by
  rintro _ _ ⟨⟩
  exact ⟨ds, rfl, remarked⟩

theorem Keeps.of_error (refusal : Refusal) (t : Scan α) : Keeps (.error refusal) t := by
  rintro _ _ ⟨⟩

theorem Keeps.map (keeps : Keeps s t) (f : α → β) :
    Keeps (s.map fun (a, rest) => (f a, rest)) (t.map fun (a, rest) => (f a, rest)) := by
  intro b rest scanned
  obtain ⟨⟨a, _⟩, first, same⟩ := exists_of_map_eq_ok scanned
  cases same
  obtain ⟨rest', second, left⟩ := keeps a rest first
  exact ⟨rest', by rw [second]; rfl, left⟩

theorem Keeps.error_or_ok (keeps : Keeps s t) : (∃ refusal, s = .error refusal) ∨
    ∃ a rest rest', s = .ok (a, rest) ∧ t = .ok (a, rest') ∧ Remarked true rest rest' := by
  cases s with
  | error refusal => exact .inl ⟨refusal, rfl⟩
  | ok result =>
      obtain ⟨rest', second, left⟩ := keeps result.1 result.2 rfl
      exact .inr ⟨_, _, rest', rfl, second, left⟩

end

/-! ## Words, names of files and values -/

/-- What a value takes from a text it takes from the one with remarks, and blanks at most besides. -/
def Spans (p : Char → Bool) : Prop :=
  ∀ cs ds, Remarked false cs ds → ∃ gaps, (∀ c ∈ gaps, isGap c = true) ∧
    ds.takeWhile p = cs.takeWhile p ++ gaps ∧ Remarked true (cs.dropWhile p) (ds.dropWhile p)

/-- The name of a file takes in the blanks of a remark, and no comment. -/
theorem Remark.exists_fileName (remark : Remark opens pad) (stop : LineStop ds ds') :
    ∃ gaps pad', (∀ c ∈ gaps, isGap c = true) ∧ (pad ++ ds).takeWhile inFileName = gaps ∧
      (pad ++ ds).dropWhile inFileName = pad' ++ ds ∧ Remark true pad' := by
  have inside {gaps : List Char} (blanks : ∀ c ∈ gaps, isGap c = true) :
      ∀ c ∈ gaps, inFileName c = true := by
    intro c inside
    have other : c ≠ '#' := by
      rintro rfl
      cases blanks _ inside
    simp [inFileName, not_break_of_isGap (blanks c inside), other]
  cases remark with
  | blanks gaps =>
      have stops : ∀ c, ds.head? = some c → inFileName c = false :=
        fun c first => stopsAtBreak_inFileName c (stop.isBreak_head first)
      obtain ⟨taken, left⟩ := span_append (inside gaps) stops
      exact ⟨pad, [], gaps, taken, left, .blanks (List.forall_mem_nil _)⟩
  | @comment gaps text blanks _ plain =>
      have stops : ∀ c, ('#' :: (text ++ ds)).head? = some c → inFileName c = false := by
        rintro c ⟨⟩
        rfl
      obtain ⟨taken, left⟩ := span_append (inside blanks) stops
      refine ⟨gaps, '#' :: text, blanks, ?_, ?_, .hash plain⟩
      · rw [List.append_assoc, List.cons_append, taken]
      · rw [List.append_assoc, List.cons_append, left]

namespace Remarked

/-- A word that stops at blanks is the same in both texts. -/
theorem word {cs ds : List Char} (remarked : Remarked false cs ds)
    (stops : ∀ c, isBlank c = true → p c = false) :
    ds.takeWhile p = cs.takeWhile p ∧ Remarked false (cs.dropWhile p) (ds.dropWhile p) := by
  have atBreak : StopsAtBreak p := .of_blank stops
  have atGap : ∀ c, isGap c = true → p c = false := fun c gap => stops c (isBlank_of_isGap gap)
  cases remarked with
  | nil => exact ⟨rfl, .nil⟩
  | @char _ c cs ds plain single tail =>
      by_cases inside : p c = true
      · have visible : isGap c = false := by
          refine Bool.eq_false_iff.mpr fun gap => ?_
          rw [atGap c gap] at inside
          cases inside
        rw [visible] at tail
        obtain ⟨same, rest⟩ := word tail stops
        rw [List.takeWhile_cons_of_pos inside, List.takeWhile_cons_of_pos inside,
          List.dropWhile_cons_of_pos inside, List.dropWhile_cons_of_pos inside, same]
        exact ⟨rfl, rest⟩
      · rw [List.takeWhile_cons_of_neg inside, List.takeWhile_cons_of_neg inside,
          List.dropWhile_cons_of_neg inside, List.dropWhile_cons_of_neg inside]
        exact ⟨rfl, .char plain single tail⟩
  | joined first second tail =>
      -- The word may take the `\`, which then joins nothing.
      by_cases inside : p '\\' = true
      · rw [List.takeWhile_cons_of_pos inside, List.takeWhile_cons_of_pos inside,
          List.dropWhile_cons_of_pos inside, List.dropWhile_cons_of_pos inside,
          atBreak.takeWhile first, atBreak.takeWhile second, atBreak.dropWhile first,
          atBreak.dropWhile second]
        exact ⟨rfl, .lineEnd first second tail⟩
      · rw [List.takeWhile_cons_of_neg inside, List.takeWhile_cons_of_neg inside,
          List.dropWhile_cons_of_neg inside, List.dropWhile_cons_of_neg inside]
        exact ⟨rfl, .joined first second tail⟩
  | @stop _ pad cs ds _ _ remark first second both tail =>
      have stuck : (pad ++ ds).takeWhile p = [] ∧ (pad ++ ds).dropWhile p = pad ++ ds := by
        cases pad with
        | nil => exact second.span atBreak
        | cons d pad =>
            have gap : isGap d = true := (remark.head_cases rfl).resolve_right (by simp)
            have outside : ¬ p d = true := by simp [atGap d gap]
            exact ⟨List.takeWhile_cons_of_neg outside, List.dropWhile_cons_of_neg outside⟩
      rw [stuck.1, stuck.2, (first.span atBreak).1, (first.span atBreak).2]
      exact ⟨rfl, .stop remark first second both tail⟩
termination_by cs.length

theorem spans_of_blank (stops : ∀ c, isBlank c = true → p c = false) : Spans p := by
  intro cs ds remarked
  obtain ⟨same, rest⟩ := remarked.word stops
  exact ⟨[], List.forall_mem_nil _, by rw [same, List.append_nil], rest.mono⟩

theorem fileName (remarked : Remarked opens cs ds) : ∃ gaps, (∀ c ∈ gaps, isGap c = true) ∧
    ds.takeWhile inFileName = cs.takeWhile inFileName ++ gaps ∧
      Remarked true (cs.dropWhile inFileName) (ds.dropWhile inFileName) := by
  have atBreak := stopsAtBreak_inFileName
  induction remarked with
  | nil => exact ⟨[], List.forall_mem_nil _, rfl, .nil⟩
  | @char _ c cs ds plain single tail ih =>
      by_cases inside : inFileName c = true
      · obtain ⟨gaps, blanks, same, rest⟩ := ih
        refine ⟨gaps, blanks, ?_, ?_⟩
        · rw [List.takeWhile_cons_of_pos inside, List.takeWhile_cons_of_pos inside, same,
            List.cons_append]
        · rwa [List.dropWhile_cons_of_pos inside, List.dropWhile_cons_of_pos inside]
      · refine ⟨[], List.forall_mem_nil _, ?_, ?_⟩
        · rw [List.takeWhile_cons_of_neg inside, List.takeWhile_cons_of_neg inside, List.append_nil]
        · rw [List.dropWhile_cons_of_neg inside, List.dropWhile_cons_of_neg inside]
          exact .char plain single tail
  | joined first second tail =>
      refine ⟨[], List.forall_mem_nil _, ?_, ?_⟩
      · rw [List.takeWhile_cons_of_pos (by decide), List.takeWhile_cons_of_pos (by decide),
          atBreak.takeWhile first, atBreak.takeWhile second, List.append_nil]
      · rw [List.dropWhile_cons_of_pos (by decide), List.dropWhile_cons_of_pos (by decide),
          atBreak.dropWhile first, atBreak.dropWhile second]
        exact .lineEnd first second tail
  | stop remark first second both tail =>
      obtain ⟨gaps, pad, blanks, taken, left, remark⟩ := remark.exists_fileName second
      refine ⟨gaps, blanks, ?_, ?_⟩
      · rw [taken, (first.span atBreak).1, List.nil_append]
      · rw [left, (first.span atBreak).2]
        exact .stop remark first second both tail

theorem spans_inFileName : Spans inFileName :=
  fun _ _ remarked => remarked.fileName

theorem finishValue {value gaps : List Char} (remarked : Remarked true cs ds)
    (blanks : ∀ c ∈ gaps, isGap c = true) :
    Keeps (Scanner.finishValue value cs) (Scanner.finishValue (value ++ gaps) ds) := by
  rw [Scanner.finishValue, Scanner.finishValue,
    trimEnd_append_blanks fun c inside => isBlank_of_isGap (blanks c inside)]
  split
  · exact .of_error _ _
  · exact .ok _ remarked

theorem value (remarked : Remarked false cs ds) (spans : Spans p) (stops : StopsAtBreak p) :
    Keeps (Scanner.value p cs) (Scanner.value p ds) := by
  have behind := remarked.dropGaps
  have refused : (∀ c, cs.head? = some c → c ≠ '=' ∧ isGap c = false) →
      Keeps (Scanner.value p cs) (Scanner.value p ds) := by
    intro other
    rw [value_of_refused other]
    exact .of_error _ _
  cases remarked with
  | nil => exact refused (by simp)
  | @char _ c cs ds plain single tail =>
      by_cases separated : c = '='
      · subst separated
        obtain ⟨gaps, blanks, same, rest⟩ := spans cs ds tail
        rw [Scanner.value, Scanner.value, same]
        exact rest.finishValue blanks
      cases gap : isGap c with
      | true =>
          rw [value_of_gap gap, value_of_gap gap]
          generalize (c :: cs).dropWhile isGap = cs', (c :: ds).dropWhile isGap = ds' at behind
          rcases behind.head_or_stop with head | stop
          · obtain ⟨gaps, blanks, same, rest⟩ := spans cs' ds' (behind.settle (head ▸ id))
            rw [same]
            exact rest.finishValue blanks
          · rw [(stop.span stops).1]
            exact .of_error _ _
      | false =>
          refine refused ?_
          rintro d ⟨⟩
          exact ⟨separated, gap⟩
  | joined =>
      refine refused ?_
      rintro d ⟨⟩
      decide
  | stop _ first =>
      refine refused fun d head => ?_
      cases first with
      | last => cases head
      | lineEnd ends => exact not_separator_of_lineEnd ends d head

end Remarked

/-! ## The end of a line -/

theorem Scanner.endLine_eq_ok_iff : endLine cs = .ok ((), rest) ↔
    rest = skipLine cs ∧ ∀ c, (cs.dropWhile isGap).head? = some c → isBreak c = true ∨ c = '#' := by
  constructor
  · intro scanned
    refine ⟨left_of_endLine scanned, fun c first => ?_⟩
    by_contra other
    obtain ⟨plain, noComment⟩ := not_or.mp other
    obtain ⟨more, start⟩ := List.head?_eq_some_iff.mp first
    rw [endLine_of_other start (by simpa using plain) noComment] at scanned
    cases scanned
  · rintro ⟨rfl, ends⟩
    have same := skipLine_dropWhile stopsAtBreak_isGap cs
    cases start : cs.dropWhile isGap with
    | nil =>
        rw [start] at same
        rw [endLine_of_nil start, ← same]
        rfl
    | cons c after =>
        rw [start] at same ends
        rcases ends c rfl with isEnd | rfl
        · have starts : startsBreak (c :: after) = true := isEnd
          obtain ⟨next, ends⟩ := LineEnd.exists_of_startsBreak starts
          rw [endLine_of_lineEnd start ends, ← same, skipLine_lineEnd ends]
        · rw [endLine_of_comment start, ← same, skipLine_cons rfl]

namespace Remarked

theorem endLine (remarked : Remarked opens cs ds) :
    Keeps (Scanner.endLine cs) (Scanner.endLine ds) := by
  rintro ⟨⟩ rest scanned
  obtain ⟨rfl, ends⟩ := endLine_eq_ok_iff.mp scanned
  refine ⟨Scanner.skipLine ds, endLine_eq_ok_iff.mpr ⟨rfl, fun c first => ?_⟩, remarked.skipLine⟩
  have visible := List.head?_dropWhile_not isGap ds
  have behind := remarked.dropGaps
  rw [first] at visible
  generalize cs.dropWhile isGap = cs', ds.dropWhile isGap = ds' at behind ends first
  cases behind with
  | nil | char | joined => exact ends c first
  | @stop _ pad _ _ _ _ remark _ second _ _ =>
      cases pad with
      | nil => exact .inl (second.isBreak_head first)
      | cons d pad =>
          cases first
          rcases remark.head_cases rfl with gap | ⟨rfl, -⟩
          · simp [gap] at visible
          · exact .inr rfl

theorem lineValue (remarked : Remarked false cs ds) (spans : Spans p) (stops : StopsAtBreak p) :
    Keeps (Scanner.lineValue p cs) (Scanner.lineValue p ds) := by
  rw [Scanner.lineValue, Scanner.lineValue]
  rcases (remarked.value spans stops).error_or_ok with
    ⟨refusal, first⟩ | ⟨value, _, _, first, second, rest⟩
  · rw [first]
    exact .of_error _ _
  · rw [first, second]
    exact rest.endLine.map fun _ => value

/-! ## Hashes -/

/-- Both texts start with a word that no remark starts with, or neither does. -/
theorem isPrefixOf {opens : Bool} {cs ds w : List Char} (remarked : Remarked opens cs ds)
    (plain : ∀ c ∈ w, isBlank c = false ∧ c ≠ '#' ∧ c ≠ '\\') (start : w = [] → opens = false) :
    w.isPrefixOf ds = w.isPrefixOf cs ∧
      (w.isPrefixOf cs = true → Remarked false (cs.drop w.length) (ds.drop w.length)) := by
  induction w generalizing opens cs ds with
  | nil => exact ⟨by simp, fun _ => start rfl ▸ remarked⟩
  | cons c w ih =>
      obtain ⟨⟨visible, noComment, noJoin⟩, others⟩ := List.forall_mem_cons.mp plain
      have noGap := not_gap_of_visible visible
      have noBreak := not_break_of_visible visible
      cases remarked with
      | nil => simp
      | @char _ d cs ds _ _ tail =>
          simp only [List.isPrefixOf_cons_cons, List.length_cons, List.drop_succ_cons]
          by_cases same : c = d
          · subst same
            simpa using ih tail others fun _ => noGap
          · simp [beq_false_of_ne same]
      | joined => simp [List.isPrefixOf_cons_cons, beq_false_of_ne noJoin]
      | @stop _ pad cs ds _ _ remark first second _ _ =>
          have none : (c :: w).isPrefixOf (pad ++ ds) = false := by
            cases pad with
            | nil => exact second.not_isPrefixOf noBreak
            | cons d pad =>
                have other : c ≠ d := by
                  rintro rfl
                  rcases remark.head_cases rfl with gap | ⟨comment, -⟩
                  · rw [noGap] at gap
                    cases gap
                  · exact noComment comment
                simp [List.isPrefixOf_cons_cons, beq_false_of_ne other]
          rw [none, first.not_isPrefixOf noBreak]
          exact ⟨rfl, fun absurd => Bool.noConfusion absurd⟩

theorem hashWord_visible : ∀ c ∈ hashWord, isBlank c = false ∧ c ≠ '#' ∧ c ≠ '\\' := by
  simp [hashWord, isBlank]

theorem moreHashes {opens : Bool} {cs ds : List Char} (remarked : Remarked opens cs ds) :
    Keeps (Scanner.moreHashes cs) (Scanner.moreHashes ds) := by
  obtain ⟨same, behind⟩ := remarked.skipGap.isPrefixOf hashWord_visible fun none => by cases none
  cases word : hashWord.isPrefixOf (Scanner.skipGap cs) with
  | false =>
      rw [moreHashes_of_none word, moreHashes_of_none (same.trans word)]
      exact .ok _ remarked.skipGap
  | true =>
      rw [moreHashes_of_hash word, moreHashes_of_hash (same.trans word)]
      have valued := (behind word).value (spans_of_blank fun c blank => by simp [blank])
        stopsAtBreak_notBlank
      rcases valued.error_or_ok with ⟨refusal, first⟩ | ⟨hash, _, _, first, second, rest⟩
      · rw [first]
        exact .of_error _ _
      · have shorter := length_lt_of_hash word first
        rw [first, second]
        exact (moreHashes rest).map (List.cons hash)
termination_by cs.length

theorem hashes (remarked : Remarked opens cs ds) :
    Keeps (Scanner.hashes cs) (Scanner.hashes ds) := by
  obtain ⟨same, -⟩ := remarked.isPrefixOf hashWord_visible fun none => by cases none
  rw [Scanner.hashes, Scanner.hashes, same]
  split
  · exact .of_error _ _
  · rcases remarked.moreHashes.error_or_ok with ⟨refusal, first⟩ | ⟨found, _, _, first, second, rest⟩
    · rw [first]
      exact .of_error _ _
    · rw [first, second]
      exact rest.endLine.map fun _ => found

end Remarked

end PinFloor
