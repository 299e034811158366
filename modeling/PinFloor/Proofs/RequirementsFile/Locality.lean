import Mathlib.Data.List.TakeWhile
import PinFloor.Proofs.RequirementsFile.WholeLines

/-! # What follows a statement does not matter

A statement is known from the lines that it takes. If other lines follow it, it is read as before,
and these are what is left. The scanner looks at the start of what follows only to tell a `\r\n`
from a lone `\r`.
-/

namespace PinFloor

open Scanner

/-- The text ends in a line end, or in the first half of one. -/
def EndsInBreak (text : List Char) : Prop :=
  ∃ c, text.getLast? = some c ∧ isBreak c = true

variable {u part rest : List Char} {c : Char}

namespace EndsInBreak

theorem exists_mem (closed : EndsInBreak u) : ∃ c ∈ u, isBreak c = true := by
  obtain ⟨c, last, isEnd⟩ := closed
  exact ⟨c, List.mem_of_getLast? last, isEnd⟩

theorem ne_nil (closed : EndsInBreak u) : u ≠ [] := by
  obtain ⟨c, inside, _⟩ := closed.exists_mem
  exact List.ne_nil_of_mem inside

theorem of_suffix (closed : EndsInBreak u) (inside : part <:+ u) (some : part ≠ []) :
    EndsInBreak part := by
  obtain ⟨c, last, isEnd⟩ := closed
  obtain ⟨before, rfl⟩ := inside
  refine ⟨c, ?_, isEnd⟩
  rwa [List.getLast?_append, List.getLast?_eq_some_getLast some, Option.some_or,
    ← List.getLast?_eq_some_getLast some] at last

theorem of_cons (closed : EndsInBreak (c :: u)) (plain : isBreak c = false) : EndsInBreak u := by
  refine closed.of_suffix (List.suffix_cons c u) ?_
  rintro rfl
  obtain ⟨d, inside, isEnd⟩ := closed.exists_mem
  obtain rfl := List.mem_singleton.mp inside
  rw [plain] at isEnd
  cases isEnd

end EndsInBreak

theorem LineEnd.closed {mark : List Char} (ends : LineEnd (mark ++ rest) rest) :
    EndsInBreak mark ∧ Uncut mark rest := by
  generalize whole : mark ++ rest = text at ends
  cases ends with
  | lf =>
      obtain rfl : mark = ['\n'] := (List.append_left_inj _).mp whole
      exact ⟨⟨'\n', rfl, rfl⟩, nofun⟩
  | crlf =>
      obtain rfl : mark = ['\r', '\n'] := (List.append_left_inj _).mp whole
      exact ⟨⟨'\n', rfl, rfl⟩, nofun⟩
  | cr single =>
      obtain rfl : mark = ['\r'] := (List.append_left_inj _).mp whole
      exact ⟨⟨'\r', rfl, rfl⟩, fun _ => single⟩

/-- What is read up to the end of a line is whole lines, and does not cut a line end in two. -/
theorem EndsAtLine.closed (ends : EndsAtLine (u ++ rest) rest) (more : rest ≠ []) :
    EndsInBreak u ∧ Uncut u rest := by
  rcases ends with nothing | ⟨part, ⟨before, whole⟩, ends⟩
  · exact absurd nothing more
  · obtain ⟨mark, rfl, -⟩ := ends.exists_mark
    obtain rfl : before ++ mark = u :=
      List.append_cancel_right ((List.append_assoc before mark rest).trans whole)
    obtain ⟨⟨c, last, isEnd⟩, cut⟩ := ends.closed
    have same : (before ++ mark).getLast? = mark.getLast? := by
      rw [List.getLast?_append, last, Option.some_or]
    exact ⟨⟨c, same.trans last, isEnd⟩, fun ret => cut (same.symm.trans ret)⟩

namespace Scanner

variable {p : Char → Bool} {text : String}

/-! ## Words, lines and values -/

theorem takeWhile_of_closed (closed : EndsInBreak u) (stops : StopsAtBreak p) (r : List Char) :
    (u ++ r).takeWhile p = u.takeWhile p := by
  obtain ⟨c, inside, isEnd⟩ := closed.exists_mem
  have short : (u.takeWhile p).length ≠ u.length := by
    intro whole
    rw [← (List.takeWhile_prefix p).eq_of_length whole] at inside
    have taken := List.mem_takeWhile_imp inside
    rw [stops c isEnd] at taken
    cases taken
  rw [List.takeWhile_append, if_neg short]

theorem dropWhile_of_closed (closed : EndsInBreak u) (stops : StopsAtBreak p) (r : List Char) :
    (u ++ r).dropWhile p = u.dropWhile p ++ r := by
  have whole : u.takeWhile p ++ (u ++ r).dropWhile p
      = u.takeWhile p ++ (u.dropWhile p ++ r) := by
    rw [← List.append_assoc, List.takeWhile_append_dropWhile,
      ← takeWhile_of_closed closed stops r, List.takeWhile_append_dropWhile]
  exact List.append_cancel_left whole

theorem closed_dropWhile (closed : EndsInBreak u) (stops : StopsAtBreak p) :
    EndsInBreak (u.dropWhile p) := by
  refine closed.of_suffix (List.dropWhile_suffix p) fun none => ?_
  obtain ⟨c, inside, isEnd⟩ := closed.exists_mem
  have taken := List.dropWhile_eq_nil_iff.mp none c inside
  rw [stops c isEnd] at taken
  cases taken

theorem isPrefixOf_append_of_closed {w : List Char} (closed : EndsInBreak u)
    (plain : ∀ c ∈ w, isBreak c = false) (r : List Char) :
    w.isPrefixOf (u ++ r) = w.isPrefixOf u := by
  induction w generalizing u with
  | nil => rw [List.isPrefixOf_nil_left, List.isPrefixOf_nil_left]
  | cons c w ih =>
      cases u with
      | nil => exact absurd rfl closed.ne_nil
      | cons d u =>
          rw [List.cons_append, List.isPrefixOf_cons_cons, List.isPrefixOf_cons_cons]
          cases same : c == d with
          | false => rfl
          | true =>
              obtain rfl : c = d := by simpa using same
              rw [ih (closed.of_cons (plain c List.mem_cons_self))
                fun d inside => plain d (List.mem_cons_of_mem c inside)]

/-- A word without a line end does not reach the end of a text that ends in one. -/
theorem closed_drop {w : List Char} (closed : EndsInBreak u) (plain : ∀ c ∈ w, isBreak c = false)
    (start : w.isPrefixOf u = true) : EndsInBreak (u.drop w.length) := by
  induction w generalizing u with
  | nil => exact closed
  | cons c w ih =>
      cases u with
      | nil => cases start
      | cons d u =>
          rw [List.isPrefixOf_cons_cons, Bool.and_eq_true, beq_iff_eq] at start
          obtain ⟨rfl, start⟩ := start
          exact ih (closed.of_cons (plain c List.mem_cons_self))
            (fun d inside => plain d (List.mem_cons_of_mem c inside)) start

/-- Where `rest` follows the lines `u`, what a scan reads is told by `u` alone, and would be the same
    before any other text. -/
def Local {α : Type} (scan : List Char → Scan α) (u rest : List Char) : Prop :=
  ∀ ⦃a left⦄, scan (u ++ rest) = .ok (a, left) →
    ∃ last, last <:+ u ∧ ∀ r, Uncut u r → scan (u ++ r) = .ok (a, last ++ r)

/-- A scan that leaves exactly what follows some lines leaves whatever follows them. -/
theorem Local.eq_ok {α : Type} {scan : List Char → Scan α} (settled : Local scan u rest) {a : α}
    (scanned : scan (u ++ rest) = .ok (a, rest)) (uncut : Uncut u rest) {r : List Char}
    (uncut' : Uncut u r) : scan (u ++ r) = .ok (a, r) := by
  obtain ⟨last, -, same⟩ := settled scanned
  have nothing : last = [] := by
    have left := (same rest uncut).symm.trans scanned
    simpa using left
  subst nothing
  exact same r uncut'

theorem Local.map_tail {α β : Type} {scan : List Char → Scan α} {tail : List Char}
    (settled : Local scan tail rest) (part : tail <:+ u) (f : α → β) ⦃b : β⦄ ⦃left : List Char⦄
    (scanned : ((scan (tail ++ rest)).map fun x => (f x.1, x.2)) = .ok (b, left)) :
    ∃ last, last <:+ u ∧ ∀ r, Uncut u r →
      ((scan (tail ++ r)).map fun x => (f x.1, x.2)) = .ok (b, last ++ r) := by
  obtain ⟨⟨a, _⟩, ok, same⟩ := exists_of_map_eq_ok scanned
  cases same
  obtain ⟨last, inside, same⟩ := settled ok
  refine ⟨last, inside.trans part, fun r uncut => ?_⟩
  rw [same r (uncut.of_suffix part)]
  rfl

theorem skipLine_of_closed (closed : EndsInBreak u) {r : List Char} (uncut : Uncut u r) :
    skipLine (u ++ r) = skipLine u ++ r := by
  have stops : StopsAtBreak (!isBreak ·) := fun c isEnd => by simp [isEnd]
  have last : EndsInBreak (u.dropWhile (!isBreak ·)) := closed_dropWhile closed stops
  have inside : u.dropWhile (!isBreak ·) <:+ u := List.dropWhile_suffix _
  rw [skipLine, skipLine, dropWhile_of_closed closed stops]
  generalize after : u.dropWhile (!isBreak ·) = line at last inside
  cases line with
  | nil => exact absurd rfl last.ne_nil
  | cons c line =>
      have starts : startsBreak (c :: line) = true := by
        have stopped := List.head?_dropWhile_not (!isBreak ·) u
        simpa [after] using stopped
      obtain ⟨next, ends⟩ := LineEnd.exists_of_startsBreak starts
      rw [skipBreak_lineEnd ends,
        skipBreak_lineEnd (ends.append_of_uncut (uncut.of_suffix inside))]

theorem local_endLine (closed : EndsInBreak u) : Local endLine u rest := by
  intro _ left scanned
  have start := fun r => dropWhile_of_closed closed stopsAtBreak_isGap r
  have some : EndsInBreak (u.dropWhile isGap) := closed_dropWhile closed stopsAtBreak_isGap
  have inside : u.dropWhile isGap <:+ u := List.dropWhile_suffix _
  generalize u.dropWhile isGap = line at start some inside
  cases line with
  | nil => exact absurd rfl some.ne_nil
  | cons c line =>
      cases isEnd : isBreak c with
      | true =>
          have starts : startsBreak (c :: line) = true := isEnd
          obtain ⟨next, ends⟩ := LineEnd.exists_of_startsBreak starts
          exact ⟨next, ends.suffix.trans inside, fun r uncut =>
            endLine_of_lineEnd (start r) (ends.append_of_uncut (uncut.of_suffix inside))⟩
      | false =>
          have tail : line <:+ u := (List.suffix_cons c line).trans inside
          by_cases comment : c = '#'
          · subst comment
            refine ⟨skipLine line, (endsAtLine_skipLine line).suffix.trans tail, fun r uncut => ?_⟩
            rw [endLine_of_comment (start r), List.append_eq,
              skipLine_of_closed (some.of_cons rfl) (uncut.of_suffix tail)]
          · rw [endLine_of_other (start rest) isEnd comment] at scanned
            cases scanned

theorem finishValue_ok {value left : List Char} (finished : finishValue value left = .ok (text, rest))
    (r : List Char) : finishValue value r = .ok (text, r) := by
  rw [finishValue] at finished ⊢
  split at finished
  · cases finished
  · cases finished
    rfl

theorem local_value (closed : EndsInBreak u) (stops : StopsAtBreak p) {left : List Char}
    (scanned : value p (u ++ rest) = .ok (text, left)) : ∃ last, EndsInBreak last ∧ last <:+ u ∧
      ∀ r, value p (u ++ r) = .ok (text, last ++ r) := by
  -- The value ends within what is left after the separator.
  have inside : ∀ tail, EndsInBreak tail → tail <:+ u →
      (∀ r, value p (u ++ r) = finishValue ((tail ++ r).takeWhile p) ((tail ++ r).dropWhile p)) →
      ∃ last, EndsInBreak last ∧ last <:+ u ∧ ∀ r, value p (u ++ r) = .ok (text, last ++ r) := by
    intro tail some part whole
    rw [whole, takeWhile_of_closed some stops] at scanned
    refine ⟨_, closed_dropWhile some stops, (List.dropWhile_suffix p).trans part, fun r => ?_⟩
    rw [whole, takeWhile_of_closed some stops, dropWhile_of_closed some stops]
    exact finishValue_ok scanned _
  cases u with
  | nil => exact absurd rfl closed.ne_nil
  | cons c u =>
      by_cases separated : c = '='
      · subst separated
        exact inside u (closed.of_cons rfl) (List.suffix_cons _ u) fun r => rfl
      cases gap : isGap c with
      | true =>
          refine inside _ (closed_dropWhile closed stopsAtBreak_isGap) (List.dropWhile_suffix _)
            fun r => ?_
          rw [List.cons_append, value_of_gap gap, ← List.cons_append,
            dropWhile_of_closed closed stopsAtBreak_isGap]
      | false =>
          have other : ∀ d, (c :: (u ++ rest)).head? = some d → d ≠ '=' ∧ isGap d = false := by
            rintro d ⟨⟩
            exact ⟨separated, gap⟩
          cases (value_of_refused other).symm.trans scanned

theorem local_lineValue (closed : EndsInBreak u) (stops : StopsAtBreak p) :
    Local (lineValue p) u rest := by
  intro text left scanned
  rw [lineValue] at scanned
  split at scanned
  · cases scanned
  · next valued =>
      obtain ⟨tail, some, part, same⟩ := local_value closed stops valued
      obtain ⟨⟨_, next⟩, ended, whole⟩ := exists_of_map_eq_ok scanned
      cases whole
      cases (same rest).symm.trans valued
      obtain ⟨last, inside, same'⟩ := local_endLine some ended
      refine ⟨last, inside.trans part, fun r uncut => ?_⟩
      rw [lineValue, same r]
      simp only [same' r (uncut.of_suffix part)]
      rfl

theorem local_option (closed : EndsInBreak u) : Local option u rest := by
  have stops : StopsAtBreak fun c => !isBlank c && c ≠ '=' :=
    .of_blank fun c blank => by simp [blank]
  have word := takeWhile_of_closed closed stops
  have start := dropWhile_of_closed closed stops
  have some := closed_dropWhile closed stops
  have part : u.dropWhile (fun c => !isBlank c && c ≠ '=') <:+ u := List.dropWhile_suffix _
  intro st left scanned
  simp only [option, word, start] at scanned ⊢
  generalize String.ofList (u.takeWhile _) = name at scanned ⊢
  generalize u.dropWhile _ = tail at scanned some part ⊢
  have fileName : Local (lineValue inFileName) tail rest :=
    local_lineValue some stopsAtBreak_inFileName
  have word : Local (lineValue (!isBlank ·)) tail rest := local_lineValue some stopsAtBreak_notBlank
  have ended : Local endLine tail rest := local_endLine some
  split at scanned
  · exact fileName.map_tail part (fun file => Statement.include .requirements ⟨file⟩) scanned
  · exact fileName.map_tail part (fun file => Statement.include .requirements ⟨file⟩) scanned
  · exact fileName.map_tail part (fun file => Statement.include .constraints ⟨file⟩) scanned
  · exact fileName.map_tail part (fun file => Statement.include .constraints ⟨file⟩) scanned
  · exact word.map_tail part Statement.editable scanned
  · exact word.map_tail part Statement.editable scanned
  · split at scanned
    · exact word.map_tail part (fun value => Statement.option (.setting _ value)) scanned
    · exact ended.map_tail part (fun _ => Statement.option (.flag _)) scanned
    · cases scanned

/-! ## Gaps, hashes and the text of a statement -/

/-- A gap that ends within some lines ends there, whatever lines follow. -/
theorem skipGap_of_closed (closed : EndsInBreak u) (uncut : Uncut u rest)
    (within : rest.length < (skipGap (u ++ rest)).length) : ∃ last, EndsInBreak last ∧
      last <:+ u ∧ ∀ r, Uncut u r → skipGap (u ++ r) = last ++ r := by
  induction u using text_induction with
  | nil => exact absurd rfl closed.ne_nil
  | @char c cs plain single ih =>
      have later := closed.of_cons plain
      have cut := uncut.of_suffix (List.suffix_cons c cs)
      cases gap : isGap c with
      | true =>
          simp only [List.cons_append, skipGap_gap gap] at within ⊢
          obtain ⟨last, some, part, same⟩ := ih later cut within
          exact ⟨last, some, part.trans (List.suffix_cons c cs), fun r uncut =>
            same r (uncut.of_suffix (List.suffix_cons c cs))⟩
      | false =>
          refine ⟨c :: cs, closed, List.suffix_rfl, fun r uncut => skipGap_plain gap fun slash => ?_⟩
          have opens := single slash
          cases cs with
          | nil => exact absurd rfl later.ne_nil
          | cons d cs => exact opens
  | @joined cs after ends ih =>
      have part : cs <:+ '\\' :: cs := List.suffix_cons _ cs
      have skipped : ∀ r, Uncut ('\\' :: cs) r → skipGap ('\\' :: cs ++ r) = skipGap (after ++ r) :=
        fun r uncut => skipGap_joined (ends.append_of_uncut (uncut.of_suffix part))
      rw [skipped rest uncut] at within
      have some : after ≠ [] := by
        rintro rfl
        exact absurd within (Nat.not_lt.mpr (length_skipGap_le rest))
      have inside : after <:+ '\\' :: cs := ends.suffix.trans part
      obtain ⟨last, closed, part, same⟩ :=
        ih (closed.of_suffix inside some) (uncut.of_suffix inside) within
      refine ⟨last, closed, part.trans inside, fun r uncut => ?_⟩
      rw [skipped r uncut, same r (uncut.of_suffix inside)]
  | lineEnd ends =>
      exact ⟨_, closed, List.suffix_rfl, fun r uncut =>
        skipGap_lineEnd (ends.append_of_uncut uncut)⟩

theorem plain_hashWord : ∀ c ∈ hashWord, isBreak c = false := by
  simp [hashWord, isBreak]

theorem local_moreHashes {u rest left : List Char} (closed : EndsInBreak u) (uncut : Uncut u rest)
    {found : List String} (scanned : moreHashes (u ++ rest) = .ok (found, left))
    (within : rest.length < left.length) : ∃ last, EndsInBreak last ∧ last <:+ u ∧
      ∀ r, Uncut u r → moreHashes (u ++ r) = .ok (found, last ++ r) := by
  cases word : hashWord.isPrefixOf (skipGap (u ++ rest)) with
  | false =>
      rw [moreHashes_of_none word] at scanned
      cases scanned
      obtain ⟨last, some, part, same⟩ := skipGap_of_closed closed uncut within
      refine ⟨last, some, part, fun r uncut' => ?_⟩
      have none : hashWord.isPrefixOf (skipGap (u ++ r)) = false := by
        rwa [same r uncut', isPrefixOf_append_of_closed some plain_hashWord,
          ← isPrefixOf_append_of_closed some plain_hashWord rest, ← same rest uncut]
      rw [moreHashes_of_none none, same r uncut']
  | true =>
      rw [moreHashes_of_hash word] at scanned
      split at scanned
      · cases scanned
      · next hash after valued =>
          obtain ⟨⟨others, left⟩, more, whole⟩ := exists_of_map_eq_ok scanned
          cases whole
          have inside : rest.length < (skipGap (u ++ rest)).length := by
            have := length_le_of_moreHashes more
            have := length_le_of_value valued
            rw [List.length_drop] at this
            omega
          obtain ⟨start, some, part, same⟩ := skipGap_of_closed closed uncut inside
          rw [same rest uncut, isPrefixOf_append_of_closed some plain_hashWord] at word
          have room := (List.isPrefixOf_iff_prefix.mp word).length_le
          have dropped : ∀ r, (start ++ r).drop hashWord.length = start.drop hashWord.length ++ r :=
            fun _ => List.drop_append_of_le_length room
          rw [same rest uncut, dropped] at valued
          obtain ⟨tail, some', part', same'⟩ :=
            local_value (closed_drop some plain_hashWord word) stopsAtBreak_notBlank valued
          cases (same' rest).symm.trans valued
          have shorter : tail.length < u.length := by
            have := part'.length_le
            have := part.length_le
            simp only [List.length_drop, show hashWord.length = 6 from rfl] at *
            omega
          have part : tail <:+ u := part'.trans ((List.drop_suffix _ _).trans part)
          obtain ⟨last, closed, inside, same''⟩ :=
            local_moreHashes some' (uncut.of_suffix part) more within
          refine ⟨last, closed, inside.trans part, fun r uncut => ?_⟩
          rw [moreHashes_of_hash (by rwa [same r uncut,
            isPrefixOf_append_of_closed some plain_hashWord]), same r uncut, dropped, same' r]
          simp only [same'' r (uncut.of_suffix part)]
          rfl
termination_by u.length

theorem local_hashes (closed : EndsInBreak u) (uncut : Uncut u rest) (more : rest ≠ [])
    {found : List String} (scanned : hashes (u ++ rest) = .ok (found, rest)) :
    ∀ r, Uncut u r → hashes (u ++ r) = .ok (found, r) := by
  have word := fun r => isPrefixOf_append_of_closed closed plain_hashWord r
  rw [hashes, word] at scanned
  split at scanned
  · cases scanned
  · next start =>
      split at scanned
      · cases scanned
      · next middle read =>
          obtain ⟨⟨_, next⟩, ended, whole⟩ := exists_of_map_eq_ok scanned
          cases whole
          have line := endsAtLine_of_endLine ended
          have within := line.length_lt (line.suffix.ne_nil more)
          obtain ⟨tail, some, part, same⟩ := local_moreHashes closed uncut read within
          cases (same rest uncut).symm.trans read
          intro r uncut'
          have last := (local_endLine some).eq_ok ended (uncut.of_suffix part)
            (uncut'.of_suffix part)
          rw [hashes, word, if_neg start, same r uncut']
          simp only [last]
          rfl

/-- What is left after the text of a statement stands behind the gap at its start. -/
theorem length_left_lt {cs : List Char} (some : (splitStatement cs).2.2 ≠ []) :
    (splitStatement cs).2.2.length < (skipGap cs).length ∨
      (splitStatement cs).2.1 = .options ∧ (splitStatement cs).2.2 = skipGap cs := by
  by_cases shorter : (skipGap cs).length < cs.length
  · rw [splitStatement_gap (afterGap?_of_lt shorter)] at some ⊢
    split at some
    · next options =>
        rw [if_pos options]
        exact .inr ⟨rfl, rfl⟩
    · next plain =>
        rw [if_neg plain]
        split at some
        · next comment =>
            rw [if_pos comment]
            have line := endsAtLine_skipLine (skipGap cs)
            exact .inl (line.length_lt (line.suffix.ne_nil some))
        · next other =>
            rw [if_neg other]
            refine .inl (length_splitStatement_lt fun none => ?_)
            rw [none, splitStatement_nil] at some
            exact some rfl
  · have nonempty : cs ≠ [] := by
      rintro rfl
      rw [splitStatement_nil] at some
      exact some rfl
    exact .inl (Nat.lt_of_lt_of_le (length_splitStatement_lt nonempty) (Nat.not_lt.mp shorter))

theorem plain_dashes : ∀ c ∈ ['-', '-'], isBreak c = false := by
  simp [isBreak]

theorem plain_hash : ∀ c ∈ ['#'], isBreak c = false := by
  simp [isBreak]

/-- The end of a statement's text after a gap that leads from some lines to the start of others. -/
theorem splitStatement_gap_of_closed {before start r : List Char} (closed : EndsInBreak start)
    (uncut : Uncut start r) (some : before ≠ [])
    (same : skipGap (before ++ start ++ r) = start ++ r) : splitStatement (before ++ start ++ r) =
      if ['-', '-'].isPrefixOf start then ([], .options, start ++ r)
      else if ['#'].isPrefixOf start then ([], .line, skipLine start ++ r)
      else (before ++ (splitStatement (start ++ r)).1, (splitStatement (start ++ r)).2) := by
  have gap : afterGap? (before ++ start ++ r) = Option.some (skipGap (before ++ start ++ r)) := by
    have positive := List.length_pos_iff.mpr some
    refine afterGap?_of_lt ?_
    simp only [same, List.length_append]
    omega
  have blanks : gapOf (before ++ start ++ r) = before := by
    have whole := gapOf_append_skipGap (before ++ start ++ r)
    rw [same, List.append_assoc before] at whole
    rw [List.append_assoc before]
    exact List.append_cancel_right whole
  rw [splitStatement_gap gap, same, blanks, isPrefixOf_append_of_closed closed plain_dashes,
    isPrefixOf_append_of_closed closed plain_hash, skipLine_of_closed closed uncut]

theorem local_splitStatement {u rest : List Char} (closed : EndsInBreak u) (uncut : Uncut u rest)
    (more : rest ≠ []) (within : rest.length ≤ (splitStatement (u ++ rest)).2.2.length)
    (options : (splitStatement (u ++ rest)).2.1 = .options →
      rest.length < (splitStatement (u ++ rest)).2.2.length) : ∃ last, last <:+ u ∧
      ∀ r, Uncut u r → splitStatement (u ++ r) =
        ((splitStatement (u ++ rest)).1, (splitStatement (u ++ rest)).2.1, last ++ r) := by
  cases starts : startsBreak u with
  | true =>
      obtain ⟨next, ends⟩ := LineEnd.exists_of_startsBreak starts
      refine ⟨next, ends.suffix, fun r uncut' => ?_⟩
      rw [splitStatement_lineEnd (ends.append_of_uncut uncut),
        splitStatement_lineEnd (ends.append_of_uncut uncut')]
  | false =>
      have some : (splitStatement (u ++ rest)).2.2 ≠ [] := by
        intro nothing
        rw [nothing] at within
        exact more (List.eq_nil_of_length_eq_zero (Nat.le_zero.mp within))
      have inside : rest.length < (skipGap (u ++ rest)).length := by
        rcases length_left_lt some with shorter | ⟨ending, left⟩
        · exact Nat.lt_of_le_of_lt within shorter
        · exact left ▸ options ending
      obtain ⟨start, closed', ⟨before, rfl⟩, same⟩ := skipGap_of_closed closed uncut inside
      cases before with
      | nil =>
          cases start with
          | nil => exact absurd rfl closed'.ne_nil
          | cons c start =>
              have plain : ∀ r, Uncut (c :: start) r → splitStatement (c :: start ++ r) =
                  (c :: (splitStatement (start ++ r)).1, (splitStatement (start ++ r)).2) :=
                fun r uncut => splitStatement_plain starts (afterGap?_of_eq (same r uncut))
              rw [List.nil_append] at *
              rw [plain rest uncut] at within options ⊢
              have part : start <:+ c :: start := List.suffix_cons c start
              obtain ⟨last, inside, same'⟩ := local_splitStatement (closed.of_cons starts)
                (uncut.of_suffix part) more within options
              refine ⟨last, inside.trans part, fun r uncut => ?_⟩
              rw [plain r uncut, same' r (uncut.of_suffix part)]
      | cons c before =>
          have part : start <:+ c :: before ++ start := List.suffix_append _ start
          have parts := fun r uncut => splitStatement_gap_of_closed closed'
            (Uncut.of_suffix uncut part) (List.cons_ne_nil c before) (same r uncut)
          cases dashes : ['-', '-'].isPrefixOf start with
          | true =>
              simp only [dashes, if_true] at parts
              rw [parts rest uncut]
              exact ⟨start, part, parts⟩
          | false =>
          cases hash : ['#'].isPrefixOf start with
          | true =>
              simp only [dashes, hash, Bool.false_eq_true, if_true, if_false] at parts
              rw [parts rest uncut]
              exact ⟨skipLine start, (endsAtLine_skipLine start).suffix.trans part, parts⟩
          | false =>
              simp only [dashes, hash, Bool.false_eq_true, if_false] at parts
              rw [parts rest uncut] at within options ⊢
              obtain ⟨last, inside, same'⟩ :=
                local_splitStatement closed' (uncut.of_suffix part) more within options
              refine ⟨last, inside.trans part, fun r uncut => ?_⟩
              rw [parts r uncut, same' r (uncut.of_suffix part)]
termination_by u.length

/-! ## Statements -/

theorem local_trailing (closed : EndsInBreak u) (uncut : Uncut u rest) (more : rest ≠ [])
    {found : List String} (scanned : trailingHashes (splitStatement (u ++ rest)).2.1
      (splitStatement (u ++ rest)).2.2 = .ok (found, rest)) {r : List Char} (uncut' : Uncut u r) :
    (splitStatement (u ++ r)).1 = (splitStatement (u ++ rest)).1 ∧
      trailingHashes (splitStatement (u ++ r)).2.1 (splitStatement (u ++ r)).2.2
        = .ok (found, r) := by
  have split := local_splitStatement closed uncut more
  generalize parts : splitStatement (u ++ rest) = s at scanned split ⊢
  obtain ⟨text, ending, left⟩ := s
  cases ending with
  | line =>
      cases scanned
      obtain ⟨last, -, same⟩ := split (Nat.le_refl _) nofun
      have nothing : last = [] := by
        have whole := parts.symm.trans (same left uncut)
        simpa using whole
      rw [same r uncut', nothing]
      exact ⟨rfl, rfl⟩
  | options =>
      have line := endsAtLine_of_hashes scanned
      have within := line.length_lt (line.suffix.ne_nil more)
      obtain ⟨last, part, same⟩ := split (Nat.le_of_lt within) fun _ => within
      cases parts.symm.trans (same rest uncut)
      have some : last ≠ [] := fun nothing => by
        rw [nothing] at within
        exact absurd within (Nat.lt_irrefl _)
      rw [same r uncut']
      exact ⟨rfl, local_hashes (closed.of_suffix part some) (uncut.of_suffix part) more scanned r
        (uncut'.of_suffix part)⟩

theorem local_requirement (closed : EndsInBreak u) (uncut : Uncut u rest) (more : rest ≠ [])
    {st : Statement} (scanned : requirement (u ++ rest) = .ok (st, rest)) {r : List Char}
    (uncut' : Uncut u r) : requirement (u ++ r) = .ok (st, r) := by
  rw [requirement_eq] at scanned ⊢
  split at scanned
  · cases scanned
  · next parsed =>
      obtain ⟨⟨found, _⟩, trailing, whole⟩ := exists_of_map_eq_ok scanned
      cases whole
      obtain ⟨text, trailing'⟩ := local_trailing closed uncut more trailing uncut'
      rw [text, parsed, trailing']
      rfl

theorem local_unnamed (closed : EndsInBreak u) (uncut : Uncut u rest) (more : rest ≠ [])
    {st : Statement} (scanned : unnamed (u ++ rest) = .ok (st, rest)) {r : List Char}
    (uncut' : Uncut u r) : unnamed (u ++ r) = .ok (st, r) := by
  rw [unnamed_eq] at scanned ⊢
  obtain ⟨⟨found, _⟩, trailing, whole⟩ := exists_of_map_eq_ok scanned
  cases whole
  obtain ⟨text, trailing'⟩ := local_trailing closed uncut more trailing uncut'
  rw [text, trailing']
  rfl

theorem isUnnamed_of_closed (closed : EndsInBreak u) (r : List Char) :
    isUnnamed (u ++ r) = isUnnamed u := by
  have stops : StopsAtBreak fun c => !isBlank c && c ≠ ';' :=
    .of_blank fun c blank => by simp [blank]
  rw [isUnnamed, isUnnamed, takeWhile_of_closed closed stops]

/-- Before other text a statement is read as it was, and this text is left. -/
theorem statement?_append (more : rest ≠ []) {st : Statement}
    (scanned : statement? (u ++ rest) = some (.ok (st, rest))) {r : List Char}
    (uncut : Uncut u r) : statement? (u ++ r) = some (.ok (st, r)) := by
  obtain ⟨closed, cut⟩ := (endsAtLine_of_statement? scanned).closed more
  have target := fun r => isUnnamed_of_closed closed r
  cases u with
  | nil => exact absurd rfl closed.ne_nil
  | cons c u =>
      have parts : ∀ r, statement? (c :: u ++ r) =
          if c = '-' then some (option (c :: u ++ r))
          else if isUnnamed (c :: u) then some (unnamed (c :: u ++ r))
          else if c.isAlphanum then some (requirement (c :: u ++ r))
          else some (.error (.malformed (.unexpectedStart c) (c :: u ++ r))) := fun r => by
        rw [← target r]
        rfl
      rw [parts] at scanned ⊢
      split at scanned
      · next dash =>
          rw [if_pos dash]
          exact congrArg some ((local_option closed).eq_ok (Option.some.inj scanned) cut uncut)
      · next noOption =>
          rw [if_neg noOption]
          split at scanned
          · next target =>
              rw [if_pos target]
              exact congrArg some (local_unnamed closed cut more (Option.some.inj scanned) uncut)
          · next named =>
              rw [if_neg named]
              split at scanned
              · next letter =>
                  rw [if_pos letter]
                  exact congrArg some
                    (local_requirement closed cut more (Option.some.inj scanned) uncut)
              · cases scanned

/-! ## Blanks and comments before a statement -/

theorem skipTrivia_congr {cs ds : List Char} (same : skipGap cs = skipGap ds) :
    skipTrivia cs = skipTrivia ds := by
  rw [skipTrivia, skipTrivia]
  grind

/-- What is skipped before a statement, or in a comment before it, is skipped before other text. -/
theorem skipTrivia_append_both {cs ds : List Char} (some : cs ≠ []) (opens : startsBreak cs = false)
    (start : skipTrivia ds = ds) (t : List Char) :
    (skipTrivia (t ++ cs) = cs → skipTrivia (t ++ ds) = ds) ∧
      (skipTrivia (skipLine (t ++ cs)) = cs → skipTrivia (skipLine (t ++ ds)) = ds) := by
  have opens' : startsBreak ds = false := start ▸ startsBreak_skipTrivia ds
  have uncut : ∀ t, Uncut t cs := Uncut.of_startsBreak opens
  have uncut' : ∀ t, Uncut t ds := Uncut.of_startsBreak opens'
  induction t using text_induction with
  | nil =>
      refine ⟨fun _ => start, fun skipped => absurd (congrArg List.length skipped) ?_⟩
      have shorter := (endsAtLine_skipLine cs).length_lt some
      exact Nat.ne_of_lt (Nat.lt_of_le_of_lt (length_skipTrivia_le _) shorter)
  | @char c t plain single ih =>
      simp only [List.cons_append, skipLine_cons plain]
      refine ⟨fun skipped => ?_, ih.2⟩
      cases gap : isGap c with
      | true =>
          rw [skipTrivia_congr (skipGap_gap gap _)] at skipped ⊢
          exact ih.1 skipped
      | false =>
          have single' : ∀ r, startsBreak r = false → c = '\\' → startsBreak (t ++ r) = false := by
            intro r opens slash
            cases t with
            | nil => exact opens
            | cons d t => exact single slash
          have here := skipGap_plain gap (single' cs opens)
          by_cases comment : c = '#'
          · subst comment
            rw [skipTrivia_of_comment here] at skipped
            rw [skipTrivia_of_comment (skipGap_plain gap (single' ds opens'))]
            exact ih.2 skipped
          · rw [skipTrivia_of_other here plain comment] at skipped
            have length := congrArg List.length skipped
            simp only [List.length_cons, List.length_append] at length
            omega
  | @joined t after ends ih =>
      have joined : ∀ r, Uncut t r → LineEnd (t ++ r) (after ++ r) := fun _ => ends.append_of_uncut
      simp only [List.cons_append, skipLine_cons (c := '\\') rfl,
        skipLine_lineEnd (joined cs (uncut t)), skipLine_lineEnd (joined ds (uncut' t)),
        skipTrivia_congr (skipGap_joined (joined cs (uncut t))),
        skipTrivia_congr (skipGap_joined (joined ds (uncut' t)))]
      exact ⟨ih.1, ih.1⟩
  | @lineEnd t after ends ih =>
      have first := ends.append_of_uncut (uncut t)
      have second := ends.append_of_uncut (uncut' t)
      rw [skipLine_lineEnd first, skipLine_lineEnd second,
        skipTrivia_of_lineEnd (skipGap_lineEnd first) first,
        skipTrivia_of_lineEnd (skipGap_lineEnd second) second]
      exact ⟨ih.1, ih.1⟩

/-- What is skipped before a statement is skipped before any other one. -/
theorem skipTrivia_append {t cs ds : List Char} (skipped : skipTrivia (t ++ cs) = cs)
    (some : cs ≠ []) (start : skipTrivia ds = ds) : skipTrivia (t ++ ds) = ds :=
  (skipTrivia_append_both some (skipped ▸ startsBreak_skipTrivia _) start t).1 skipped

end Scanner

end PinFloor
