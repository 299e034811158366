import PinFloor.Proofs.RequirementsFile.ValueWords

/-! # `=` and blanks before a value

A key and its value may be set apart by `=` or by blanks. Which of them it is makes no difference to
what is loaded from the file, and the value is the word behind it. A key that takes no value is
refused with either.
-/

namespace PinFloor

open Scanner

/-- `w` is the text of an entry with the hashes `found`, up to the key of its next hash. `back` is
    what follows. -/
inductive HashKey : List Char → List Char → List String → Prop where
  | mk {front fill text start back : List Char} {found : List String} :
      front.head? ≠ some '-' → Fills fill →
      splitStatement (front ++ (fill ++ (hashWord ++ back))) = (text, .options, start) →
      HashesUpTo start found (fill ++ (hashWord ++ back)) →
      HashKey (front ++ (fill ++ hashWord)) back found

/-- `w` is the text of a statement up to the end of a key that takes a value. `back` is what
    follows. -/
inductive TakesWord : List Char → List Char → Prop where
  | recorded {key : String} {make : String → Statement} {back : List Char} :
      Records key make → TakesWord key.toList back
  | fileName {key : String} {kind : IncludeKind} {back : List Char} :
      Includes key kind → TakesWord key.toList back
  | hash {w back : List Char} {found : List String} : HashKey w back found → TakesWord w back

/-- A key of an option line that takes no value. -/
structure TakesNone (key : String) : Prop where
  isKey : IsKey key
  records : ∀ make, ¬ Records key make
  includes : ∀ kind, ¬ Includes key kind

/-- What is refused of `cs` is a part of it that has the wrong form. -/
def RefusesWithin {α : Type} (cs : List Char) (scan : Scan α) : Prop :=
  ∀ refusal, scan = .error refusal → ∃ error rest, refusal = .malformed error rest ∧ rest <:+ cs

/-- What is read from `start` and from `start'`, which both end in `cs`: the same statement, the
    same refusal within `cs`, or the refusal of the whole. -/
inductive SameScan (cs start start' : List Char) : Scan Statement → Scan Statement → Prop where
  | ok (st : Statement) (rest : List Char) :
      SameScan cs start start' (.ok (st, rest)) (.ok (st, rest))
  | within {rest : List Char} (error : SyntaxError) : rest <:+ cs →
      SameScan cs start start' (.error (.malformed error rest)) (.error (.malformed error rest))
  | start (error : SyntaxError) :
      SameScan cs start start' (.error (.malformed error start)) (.error (.malformed error start'))
  | invalid :
      SameScan cs start start' (.error (.invalidRequirement start))
        (.error (.invalidRequirement start'))

/-- Statements that are read alike, in texts that both end in `cs`. -/
def ReadsAlike (cs start start' : List Char) : Prop :=
  ∃ a b, statement? start = some a ∧ statement? start' = some b ∧ SameScan cs start start' a b

/-- The fault at the start of its line. -/
def Fault.onLine : Fault → Fault
  | malformed error position => malformed error ⟨position.line, 1⟩
  | fault => fault

/-- The error at the start of its line. -/
def LoadError.onLine : LoadError → LoadError
  | malformed file error position => malformed file error ⟨position.line, 1⟩
  | error => error

variable {before w sep sep' v tail x y z cs ds text start start' rest fill front back : List Char}
  {st : Statement} {key : String} {found : List String} {a : Scan Statement} {α β : Type}

/-! ## Parts that are refused -/

theorem RefusesWithin.ok (a : α) (rest : List Char) : RefusesWithin cs (.ok (a, rest)) := by
  intro refusal refused
  cases refused

theorem RefusesWithin.malformed (error : SyntaxError) (part : rest <:+ cs) :
    RefusesWithin cs (.error (.malformed error rest) : Scan α) := by
  rintro _ ⟨⟩
  exact ⟨error, rest, rfl, part⟩

theorem RefusesWithin.of_suffix {scan : Scan α} (within : RefusesWithin cs scan)
    (part : cs <:+ ds) : RefusesWithin ds scan := by
  intro refusal refused
  obtain ⟨error, rest, same, inside⟩ := within refusal refused
  exact ⟨error, rest, same, inside.trans part⟩

theorem RefusesWithin.map {scan : Scan α} (within : RefusesWithin cs scan)
    (f : α × List Char → β × List Char) : RefusesWithin cs (scan.map f) := by
  cases scan with
  | ok a => exact .ok (f a).1 (f a).2
  | error refusal =>
      obtain ⟨error, rest, rfl, part⟩ := within refusal rfl
      exact .malformed error part

theorem refusesWithin_endLine (cs : List Char) : RefusesWithin cs (endLine cs) := by
  have part : cs.dropWhile isGap <:+ cs := List.dropWhile_suffix _
  unfold endLine
  split
  case h_6 c rest _ _ _ _ start => exact .malformed _ (start ▸ part)
  all_goals exact .ok _ _

theorem refusesWithin_finishValue (value rest : List Char) :
    RefusesWithin rest (finishValue value rest) := by
  unfold finishValue
  split
  · exact .malformed _ List.suffix_rfl
  · exact .ok _ _

theorem refusesWithin_value (p : Char → Bool) (cs : List Char) :
    RefusesWithin cs (value p cs) := by
  unfold value
  split
  · exact (refusesWithin_finishValue _ _).of_suffix
      ((List.dropWhile_suffix _).trans (List.suffix_cons _ _))
  · exact (refusesWithin_finishValue _ _).of_suffix
      ((List.dropWhile_suffix _).trans (List.dropWhile_suffix _))
  · exact (refusesWithin_finishValue _ _).of_suffix
      ((List.dropWhile_suffix _).trans (List.dropWhile_suffix _))
  · exact .malformed _ List.suffix_rfl

theorem refusesWithin_moreHashes (cs : List Char) : RefusesWithin cs (moreHashes cs) := by
  cases word : hashWord.isPrefixOf (skipGap cs) with
  | false =>
      rw [moreHashes_of_none word]
      exact .ok _ _
  | true =>
      have part := (List.drop_suffix hashWord.length (skipGap cs)).trans (skipGap_suffix cs)
      rw [moreHashes_of_hash word]
      cases valued : value (!isBlank ·) ((skipGap cs).drop hashWord.length) with
      | error refusal =>
          obtain ⟨error, rest, rfl, inside⟩ := refusesWithin_value _ _ refusal valued
          exact .malformed error (inside.trans part)
      | ok result =>
          have shorter := length_lt_of_hash word valued
          exact ((refusesWithin_moreHashes result.2).of_suffix
            ((suffix_of_value valued).trans part)).map _
termination_by cs.length

/-! ## Separators -/

theorem Separates.ne_nil (separates : Separates sep) : sep ≠ [] := by
  rcases separates with rfl | ⟨some, -⟩
  · exact List.cons_ne_nil _ _
  · exact some

theorem Separates.not_break (separates : Separates sep) : ∀ c ∈ sep, isBreak c = false := by
  rcases separates with rfl | ⟨-, gaps⟩
  · simp [isBreak]
  · exact fun c member => not_break_of_isGap (gaps c member)

/-- No line ends at what separates a key from its value. -/
theorem lineEnds_separated (separates : Separates sep) (before after : List Char) :
    lineEnds (before ++ (sep ++ after)) = lineEnds before + lineEnds after := by
  obtain ⟨c, more, rfl⟩ := List.exists_cons_of_ne_nil separates.ne_nil
  have plain := separates.not_break
  have opens : startsBreak (c :: more ++ after) = false := plain c List.mem_cons_self
  have uncut : Uncut (c :: more) after := by
    intro ret
    exact absurd rfl (ne_return_of_not_break (plain '\r' (List.mem_of_getLast? ret)))
  rw [lineEnds_append (.of_startsBreak opens before), lineEnds_append uncut,
    lineEnds_eq_zero plain, Nat.zero_add]

theorem IsHash.visible_append (word : IsHash v) (tail : List Char) (c : Char)
    (first : (v ++ tail).head? = some c) : isGap c = false := by
  rw [List.head?_append_of_ne_nil _ word.filled] at first
  exact not_gap_of_visible (word.visible c (List.mem_of_head? first))

/-- What is read behind a key does not depend on what separates them. -/
theorem lineValue_separated (separates : Separates sep) {p : Char → Bool}
    (visible : ∀ c, cs.head? = some c → isGap c = false) :
    lineValue p (sep ++ cs) = lineValue p (['='] ++ cs) := by
  rw [lineValue, lineValue, value_of_separates separates visible,
    value_of_separates (.inl rfl) visible]

theorem refusesWithin_lineValue {p : Char → Bool}
    (visible : ∀ c, cs.head? = some c → isGap c = false) :
    RefusesWithin cs (lineValue p (['='] ++ cs)) := by
  have part : cs.dropWhile p <:+ cs := List.dropWhile_suffix _
  rw [lineValue, value_of_separates (.inl rfl) visible]
  cases finished : finishValue (cs.takeWhile p) (cs.dropWhile p) with
  | error refusal =>
      obtain ⟨error, rest, rfl, inside⟩ := refusesWithin_finishValue _ _ refusal finished
      exact .malformed error (inside.trans part)
  | ok result =>
      have left : result.2 = cs.dropWhile p := rest_of_finishValue finished
      exact ((refusesWithin_endLine _).of_suffix (left ▸ part)).map _

/-! ## Statements with a value -/

theorem SameScan.of_same (within : RefusesWithin cs a) : SameScan cs start start' a a := by
  cases a with
  | ok result => exact .ok result.1 result.2
  | error refusal =>
      obtain ⟨error, rest, rfl, part⟩ := within refusal rfl
      exact .within error part

/-- An entry with the same line and the same hashes behind it is read alike. -/
theorem readsAlike_of_entry (entry : front.head? ≠ some '-') (blank : ∃ c ∈ front, isBlank c = true)
    (line : (splitStatement (front ++ x)).1 = (splitStatement (front ++ y)).1)
    (trailing : trailingHashes (splitStatement (front ++ x)).2.1 (splitStatement (front ++ x)).2.2 =
      trailingHashes (splitStatement (front ++ y)).2.1 (splitStatement (front ++ y)).2.2)
    (within : RefusesWithin cs
      (trailingHashes (splitStatement (front ++ y)).2.1 (splitStatement (front ++ y)).2.2)) :
    ReadsAlike cs (front ++ x) (front ++ y) := by
  obtain ⟨c, f, -, shape⟩ := statement?_of_entry entry blank
  rw [ReadsAlike, shape, shape]
  split
  · refine ⟨_, _, rfl, rfl, ?_⟩
    rw [unnamed_eq, unnamed_eq, line, trailing]
    exact .of_same (within.map _)
  split
  · refine ⟨_, _, rfl, rfl, ?_⟩
    rw [requirement_eq, requirement_eq, line, trailing]
    cases Requirement.parse? (joinLines (splitStatement (front ++ y)).1) with
    | none => exact .invalid
    | some r => exact .of_same (within.map _)
  · exact ⟨_, _, rfl, rfl, .start _⟩

theorem Fills.exists_blank (fills : Fills fill) (some : fill ≠ []) :
    ∃ c ∈ fill, isBlank c = true := by
  cases fills with
  | nil => exact absurd rfl some
  | blank gap => exact ⟨_, List.mem_cons_self, isBlank_of_isGap gap⟩
  | lineEnd ends =>
      cases ends with
      | lf => exact ⟨'\n', by simp, rfl⟩
      | crlf | cr => exact ⟨'\r', by simp, rfl⟩

/-- A blank is before the hashes of an entry. -/
theorem exists_blank_of_options (split : splitStatement (front ++ x) = (text, .options, rest))
    (upTo : HashesUpTo rest found x) : ∃ c ∈ front, isBlank c = true := by
  obtain ⟨fill, whole, some, skipped, -⟩ := passes_of_options split
  obtain ⟨u, rfl, -⟩ := upTo.exists_front
  have fills : Fills fill := gapOf_of_skipGap skipped ▸ fills_gapOf _
  have parts : front = text ++ (fill ++ u) := by
    refine List.append_cancel_right (whole.trans ?_)
    simp only [List.append_assoc]
  obtain ⟨c, inside, blank⟩ := fills.exists_blank some
  exact ⟨c, by simp [parts, inside], blank⟩

theorem HashesUpTo.single (fills : Fills fill) (word : IsHash v)
    (ends : ∀ c, tail.head? = some c → isBlank c = true) (separates : Separates sep) :
    HashesUpTo (fill ++ (hashWord ++ (sep ++ (v ++ tail)))) [String.ofList v] tail := by
  have start := fills.skipGap_hashWord (sep ++ (v ++ tail))
  refine .cons ?_ ?_ .nil
  · rw [start]
    exact hashWord_isPrefixOf _
  · rw [start, List.drop_left]
    exact word.value_eq separates ends

namespace HashKey

theorem one_lt_length (hashKey : HashKey w back found) : 1 < w.length := by
  cases hashKey
  have word : hashWord.length = 6 := rfl
  simp only [List.length_append, word]
  omega

/-- The next hash is the word behind the key, and behind it the entry goes on. -/
theorem exists_split (hashKey : HashKey w (sep ++ (v ++ tail)) found) (word : IsHash v)
    (ends : ∀ c, tail.head? = some c → isBlank c = true) :
    w.head? ≠ some '-' ∧ (∃ c ∈ w, isBlank c = true) ∧ ∃ text, ∀ sep, Separates sep →
      ∃ rest, splitStatement (w ++ (sep ++ (v ++ tail))) = (text, .options, rest) ∧
        hashWord.isPrefixOf rest = true ∧
        HashesUpTo rest (found ++ [String.ofList v]) tail := by
  cases hashKey with
  | @mk front fill text start _ _ entry fills split upTo =>
      obtain ⟨c, inside, blank⟩ := exists_blank_of_options split upTo
      refine ⟨?_, ⟨c, by simp [inside], blank⟩, text, fun sep' separates => ?_⟩
      · rwa [List.head?_append_of_ne_nil _ (List.ne_nil_of_mem inside)]
      · have same : (fill ++ (hashWord ++ (sep' ++ (v ++ tail)))).head? =
            (fill ++ (hashWord ++ (sep ++ (v ++ tail)))).head? := by
          cases fill <;> rfl
        obtain ⟨rest, split', first, upTo'⟩ :=
          splitStatement_upTo split upTo same (.single fills word ends separates) (by simp)
        refine ⟨rest, ?_, first, upTo'⟩
        rw [List.append_assoc, List.append_assoc]
        exact split'

theorem readsAlike (hashKey : HashKey w (sep ++ (v ++ tail)) found) (word : IsHash v)
    (ends : ∀ c, tail.head? = some c → isBlank c = true) (separates : Separates sep)
    (separates' : Separates sep') :
    ReadsAlike (v ++ tail) (w ++ (sep' ++ (v ++ tail))) (w ++ (sep ++ (v ++ tail))) := by
  obtain ⟨entry, blank, text, parts⟩ := hashKey.exists_split word ends
  obtain ⟨rest, split, first, upTo⟩ := parts sep separates
  obtain ⟨rest', split', first', upTo'⟩ := parts sep' separates'
  refine readsAlike_of_entry entry blank ?_ ?_ ?_
  · rw [split, split']
  · rw [split, split', trailingHashes, trailingHashes, hashes_upTo first upTo,
      hashes_upTo first' upTo']
  · rw [split, trailingHashes, hashes_upTo first upTo]
    have within := refusesWithin_moreHashes tail
    cases more : moreHashes tail with
    | error refusal =>
        obtain ⟨error, rest, rfl, part⟩ := within refusal more
        exact .malformed error (part.trans (List.suffix_append v tail))
    | ok result =>
        exact ((refusesWithin_endLine result.2).of_suffix
          ((suffix_of_moreHashes more).trans (List.suffix_append v tail))).map _

/-- The word behind the key is one of the hashes of the statement. -/
theorem exists_hashes (hashKey : HashKey w (sep ++ (v ++ tail)) found) (word : IsHash v)
    (ends : ∀ c, tail.head? = some c → isBlank c = true) (separates : Separates sep)
    (scanned : statement? (w ++ (sep ++ (v ++ tail))) = some (.ok (st, rest))) :
    ∃ make others after, TakesHashes make ∧ moreHashes tail = .ok (others, after) ∧
      st = make (found ++ String.ofList v :: others) := by
  obtain ⟨entry, blank, text, parts⟩ := hashKey.exists_split word ends
  obtain ⟨left, split, first, upTo⟩ := parts sep separates
  obtain ⟨make, hashes, takes, rfl, trailing, -⟩ := exists_entry entry blank scanned
  rw [split, trailingHashes, hashes_upTo first upTo] at trailing
  split at trailing
  · cases trailing
  · next others after more =>
      obtain ⟨_, -, same⟩ := exists_of_map_eq_ok trailing
      cases same
      exact ⟨make, others, after, takes, more, by rw [List.append_assoc, List.singleton_append]⟩

end HashKey

/-! ## Options -/

theorem IsKey.skipTrivia_append (isKey : IsKey key) (y : List Char) :
    Scanner.skipTrivia (key.toList ++ y) = key.toList ++ y := by
  obtain ⟨more, start⟩ := List.head?_eq_some_iff.mp isKey.1
  rw [start]
  have plain : skipGap ('-' :: (more ++ y)) = '-' :: (more ++ y) :=
    skipGap_plain rfl fun slash => absurd slash (by decide)
  exact skipTrivia_of_other plain rfl (by decide)

theorem readsAlike_of_lineValue {p : Char → Bool}
    {f : String × List Char → Statement × List Char} (isKey : IsKey key)
    (visible : ∀ c, cs.head? = some c → isGap c = false)
    (read : ∀ {sep}, Separates sep → ∀ cs, option (key.toList ++ (sep ++ cs)) =
      (lineValue p (sep ++ cs)).map f)
    (separates : Separates sep) (separates' : Separates sep') :
    ReadsAlike cs (key.toList ++ (sep' ++ cs)) (key.toList ++ (sep ++ cs)) := by
  refine ⟨_, _, statement?_of_key isKey _, statement?_of_key isKey _, ?_⟩
  rw [read separates, read separates', lineValue_separated separates visible,
    lineValue_separated separates' visible]
  exact .of_same ((refusesWithin_lineValue visible).map _)

/-- Behind a key that takes a value, `=` and blanks are read alike. -/
theorem TakesWord.readsAlike (takes : TakesWord w (sep ++ (v ++ tail))) (word : IsHash v)
    (ends : ∀ c, tail.head? = some c → isBlank c = true) (separates : Separates sep)
    (separates' : Separates sep') :
    ReadsAlike (v ++ tail) (w ++ (sep' ++ (v ++ tail))) (w ++ (sep ++ (v ++ tail))) := by
  have visible := word.visible_append tail
  cases takes with
  | recorded records =>
      exact readsAlike_of_lineValue records.isKey visible (option_of_records records) separates
        separates'
  | fileName includes =>
      exact readsAlike_of_lineValue includes.isKey visible (option_of_includes includes) separates
        separates'
  | hash hashKey => exact hashKey.readsAlike word ends separates separates'

theorem endLine_separated (separates : Separates sep) (word : IsHash v)
    (first : v.head? ≠ some '#') (tail : List Char) :
    ∃ refusal, endLine (sep ++ (v ++ tail)) = .error refusal := by
  rcases separates with rfl | ⟨some, gaps⟩
  · exact ⟨_, endLine_of_other rfl rfl (by decide)⟩
  · have start := (span_append gaps (word.visible_append tail)).2
    obtain ⟨c, v, rfl⟩ := List.exists_cons_of_ne_nil word.filled
    have plain := not_break_of_visible (word.visible c List.mem_cons_self)
    exact ⟨_, endLine_of_other start plain fun same => first (congrArg _ same)⟩

theorem TakesNone.of_flag {flag : FlagOption} (named : FlagOption.ofName? key = some flag) :
    TakesNone key := by
  have others : IsKey key ∧ ValueOption.ofName? key = none ∧
      key ∉ ["-e", "--editable", "-r", "--requirement", "-c", "--constraint"] := by
    unfold FlagOption.ofName? at named
    split at named
    case h_5 => cases named
    all_goals exact ⟨by simp [IsKey, isBlank], rfl, by decide⟩
  obtain ⟨isKey, none, other⟩ := others
  refine ⟨isKey, fun make records => ?_, fun kind includes => ?_⟩
  · cases records with
    | short | long => simp at other
    | option valued => cases none.symm.trans valued
  · cases includes <;> simp at other

/-- A key that takes no value is refused where a word follows it. -/
theorem TakesNone.exists_refusal (takesNone : TakesNone key) (separates : Separates sep)
    (word : IsHash v) (first : v.head? ≠ some '#') (tail : List Char) :
    ∃ refusal, statement? (key.toList ++ (sep ++ (v ++ tail))) = some (.error refusal) := by
  obtain ⟨name, left⟩ := span_key takesNone.isKey separates (v ++ tail)
  suffices refused : ∃ refusal, option (key.toList ++ (sep ++ (v ++ tail))) = .error refusal by
    obtain ⟨refusal, refused⟩ := refused
    exact ⟨refusal, by rw [statement?_of_key takesNone.isKey, refused]⟩
  simp only [option, name, left, String.ofList_toList]
  split
  · exact absurd .shortRequirements (takesNone.includes _)
  · exact absurd .requirements (takesNone.includes _)
  · exact absurd .shortConstraints (takesNone.includes _)
  · exact absurd .constraints (takesNone.includes _)
  · exact absurd .short (takesNone.records _)
  · exact absurd .long (takesNone.records _)
  · split
    · next named => exact absurd (.option named) (takesNone.records _)
    · obtain ⟨refusal, refused⟩ := endLine_separated separates word first tail
      exact ⟨refusal, by rw [refused]; rfl⟩
    · exact ⟨_, rfl⟩

/-! ## The file around a statement -/

namespace Script

/-- A text is read as another one, where a statement is read alike and has as many lines. -/
theorem Starts.read_congr (starts : Starts (before ++ (w ++ x)) (w ++ x))
    (stays : ∀ y, Scanner.skipTrivia (w ++ y) = w ++ y)
    (level : lineEnds (before ++ (w ++ y)) = lineEnds (before ++ (w ++ z)))
    (scanned : statement? (w ++ y) = some (.ok (st, rest)))
    (scanned' : statement? (w ++ z) = some (.ok (st, rest))) :
    read (before ++ (w ++ y)) = read (before ++ (w ++ z)) := by
  obtain ⟨earlier, whole⟩ := starts.exists_read stays
  have behind {y : List Char} (scanned : statement? (w ++ y) = some (.ok (st, rest))) :
      ∃ u, w ++ y = u ++ rest ∧
        lineEnds (before ++ (w ++ y)) = lineEnds (before ++ u) + lineEnds rest := by
    have line := endsAtLine_of_statement? scanned
    obtain ⟨u, split⟩ := line.suffix
    rw [← split, ← List.append_assoc]
    exact ⟨u, rfl, lineEnds_append (uncut_of_endsAtLine (split ▸ line) before)⟩
  obtain ⟨u, split, lines⟩ := behind scanned
  obtain ⟨u', split', lines'⟩ := behind scanned'
  have same : lineEnds (before ++ u) = lineEnds (before ++ u') := by omega
  rw [whole y st u rest split scanned, whole z st u' rest split' scanned', same]

theorem Starts.exists_refused (starts : Starts (before ++ (w ++ x)) (w ++ x))
    (stays : ∀ y, Scanner.skipTrivia (w ++ y) = w ++ y) :
    ∃ earlier, ∀ y refusal, statement? (w ++ y) = some (.error refusal) →
      read (before ++ (w ++ y)) = ⟨earlier, some (refusal.fault (before ++ (w ++ y)))⟩ := by
  obtain ⟨earlier, whole⟩ := starts.exists_above stays
  refine ⟨earlier, fun y refusal refused => ?_⟩
  rw [whole, readFrom_of_error ((stays y).symm ▸ refused), append, List.append_nil]

/-- Behind another separator the same is read, and a fault is on the same line. -/
theorem Starts.read_alike (starts : Starts (before ++ (w ++ x)) (w ++ x))
    (stays : ∀ y, Scanner.skipTrivia (w ++ y) = w ++ y) (separates : Separates sep)
    (separates' : Separates sep') (alike : ReadsAlike cs (w ++ (sep ++ cs)) (w ++ (sep' ++ cs))) :
    (read (before ++ (w ++ (sep ++ cs)))).statements =
        (read (before ++ (w ++ (sep' ++ cs)))).statements ∧
      (read (before ++ (w ++ (sep ++ cs)))).fault?.map Fault.onLine =
        (read (before ++ (w ++ (sep' ++ cs)))).fault?.map Fault.onLine := by
  have lines {sep : List Char} (separates : Separates sep) (cs : List Char) :
      lineEnds (before ++ (w ++ (sep ++ cs))) = lineEnds (before ++ w) + lineEnds cs := by
    rw [← List.append_assoc, lineEnds_separated separates]
  obtain ⟨earlier, refused⟩ := starts.exists_refused stays
  obtain ⟨a, b, scanned, scanned', same⟩ := alike
  cases same with
  | ok st rest =>
      have level := (lines separates cs).trans (lines separates' cs).symm
      rw [starts.read_congr stays level scanned scanned']
      exact ⟨rfl, rfl⟩
  | within error part =>
      obtain ⟨u, rfl⟩ := part
      have line {sep : List Char} (separates : Separates sep) (rest : List Char) :
          (Position.ofRest (before ++ (w ++ (sep ++ (u ++ rest)))) rest).line =
            lineEnds (before ++ w) + lineEnds u + 1 := by
        rw [← lines separates u, ← Position.line_ofRest _ rest]
        simp only [List.append_assoc]
      rw [refused _ _ scanned, refused _ _ scanned']
      simp only [Refusal.fault, Option.map_some, Fault.onLine, line separates, line separates',
        and_self]
  | start | invalid =>
      rw [refused _ _ scanned, refused _ _ scanned']
      simp only [Refusal.fault, Option.map_some, Fault.onLine, Position.line_ofRest, and_self]

end Script

theorem TakesWord.skipTrivia_append (takes : TakesWord w back)
    (starts : Script.Starts cs (w ++ back)) (y : List Char) :
    Scanner.skipTrivia (w ++ y) = w ++ y := by
  cases takes with
  | recorded records => exact records.isKey.skipTrivia_append y
  | fileName includes => exact includes.isKey.skipTrivia_append y
  | hash hashKey => exact starts.skipTrivia_long hashKey.one_lt_length y

theorem TakesHashes.ofStatement_eq {make : List String → Statement} (takes : TakesHashes make)
    (fs : FileSystem) (opened : List Identity) (file : Path) (line : Nat) (hashes : List String) :
    Loading.ofStatement fs opened file ⟨line, make hashes⟩ =
      .silent (.ok (Loading.single file line (make hashes))) := by
  cases takes <;> rfl

namespace RequirementsFile

theorem loadText_onLine (fs : FileSystem) (path : Path)
    (statements : (Script.read cs).statements = (Script.read ds).statements)
    (faults : (Script.read cs).fault?.map Fault.onLine = (Script.read ds).fault?.map Fault.onLine) :
    (loadText fs cs path).map (·.mapError LoadError.onLine) =
      (loadText fs ds path).map (·.mapError LoadError.onLine) := by
  have moved := Loading.ofStatements_mapFault fs [fs.identity path] path (f := Fault.onLine)
    (g := LoadError.onLine) (fun fault => by cases fault <;> rfl) (fun _ _ => rfl) (fun _ _ => rfl)
  rw [loadText, loadText, ← moved, ← moved, statements, faults]

/-- A key `w` and a value `v` behind `before`, set apart by `sep`. -/
structure SeparatorsAlike (fs : FileSystem) (path : Path) (before w sep v tail : List Char) :
    Prop where
  /-- With another separator the same is loaded from the whole text, or the same error ends it, on the
      same line. -/
  onLine : TakesWord w (sep ++ (v ++ tail)) → ∀ sep', Separates sep' →
    (loadText fs (before ++ (w ++ (sep' ++ (v ++ tail)))) path).map (·.mapError LoadError.onLine) =
      (loadText fs (before ++ (w ++ (sep ++ (v ++ tail)))) path).map (·.mapError LoadError.onLine)
  /-- If the statement is read, the column of an error is the same as well. -/
  same : TakesWord w (sep ++ (v ++ tail)) → ∀ sep', Separates sep' → ∀ read,
    statement? (w ++ (sep ++ (v ++ tail))) = some (.ok read) →
    loadText fs (before ++ (w ++ (sep' ++ (v ++ tail)))) path =
      loadText fs (before ++ (w ++ (sep ++ (v ++ tail)))) path
  /-- A value that is recorded is the word. -/
  recorded : ∀ key make pad mark rest, w = key.toList → Records key make → tail = pad ++ mark →
    Remark false pad → LineStop mark rest →
    LoadsAround fs path before (w ++ (sep ++ (v ++ tail))) rest
      (.silent (.ok (Loading.single path (lineEnds before + 1) (make (String.ofList v)))))
  /-- The file that is opened has the word as its name. -/
  included : ∀ key kind pad mark rest, w = key.toList → Includes key kind → '#' ∉ v →
    tail = pad ++ mark → Remark false pad → LineStop mark rest →
    LoadsAround fs path before (w ++ (sep ++ (v ++ tail))) rest
      (.including fs path (path.sibling ⟨String.ofList v⟩) (lineEnds before + 1) kind)
  /-- The word is the next hash of an entry. Only an entry without a name has no hashes recorded. -/
  hashed : ∀ found st rest, HashKey w (sep ++ (v ++ tail)) found →
    statement? (w ++ (sep ++ (v ++ tail))) = some (.ok (st, rest)) →
    ∃ make others after, TakesHashes make ∧ moreHashes tail = .ok (others, after) ∧
      st = make (found ++ String.ofList v :: others) ∧
      LoadsAround fs path before (w ++ (sep ++ (v ++ tail))) rest
        (.silent (.ok (Loading.single path (lineEnds before + 1) st)))
  /-- A key that takes no value is refused, and nothing is loaded. -/
  refused : ∀ key, w = key.toList → TakesNone key → v.head? ≠ some '#' → ∃ refusal,
    statement? (w ++ (sep ++ (v ++ tail))) = some (.error refusal) ∧
    (Script.read (before ++ (w ++ (sep ++ (v ++ tail))))).fault? =
      some (refusal.fault (before ++ (w ++ (sep ++ (v ++ tail))))) ∧
    ∃ error, (loadText fs (before ++ (w ++ (sep ++ (v ++ tail)))) path).value = .error error

/-- A key and its value mean the same with `=` as with spaces or tabs between them. The same is
    loaded from the whole text, or the same error ends it, on the same line. The value is the word
    behind the key: it is recorded as it is, or is the name of the file that is opened; only the
    hashes of an entry without a name are not recorded. A key that takes no value is refused where
    such a word follows it. -/
theorem separators_alike (fs : FileSystem) (path : Path)
    (starts : Script.Starts (before ++ (w ++ (sep ++ (v ++ tail)))) (w ++ (sep ++ (v ++ tail))))
    (separates : Separates sep) (some : v ≠ []) (visible : ∀ c ∈ v, isBlank c = false)
    (ends : ∀ c, tail.head? = .some c → isBlank c = true) :
    SeparatorsAlike fs path before w sep v tail where
  onLine takes sep' separates' := by
    have alike := takes.readsAlike ⟨some, visible⟩ ends separates separates'
    have stays := takes.skipTrivia_append starts
    obtain ⟨statements, faults⟩ := starts.read_alike stays separates' separates alike
    exact loadText_onLine fs path statements faults
  same takes sep' separates' read whole := by
    obtain ⟨a, b, scanned', scanned, same⟩ :=
      takes.readsAlike ⟨some, visible⟩ ends separates separates'
    obtain rfl : b = .ok read := Option.some.inj (scanned.symm.trans whole)
    cases same with
    | ok st rest =>
        have level : lineEnds (before ++ (w ++ (sep' ++ (v ++ tail)))) =
            lineEnds (before ++ (w ++ (sep ++ (v ++ tail)))) := by
          rw [← List.append_assoc before w, ← List.append_assoc before w,
            lineEnds_separated separates', lineEnds_separated separates]
        rw [loadText, loadText,
          starts.read_congr (takes.skipTrivia_append starts) level scanned' scanned]
  recorded key make pad mark rest := by
    intro isKey records split remark stop
    subst isKey split
    have scanned : statement? (key.toList ++ (sep ++ (v ++ (pad ++ mark)))) =
        .some (.ok (make (String.ofList v), rest)) := by
      rw [statement?_of_key records.isKey, option_of_records records separates,
        lineValue_word separates some visible remark stop]
      rfl
    have loaded := loadText_at fs path starts scanned
    rwa [records.ofStatement_eq] at loaded
  included key kind pad mark rest := by
    intro isKey includes noHash split remark stop
    subst isKey split
    have other : ∀ c ∈ v, decide (c ≠ '#') = true := fun c member =>
      decide_eq_true fun same => noHash (same ▸ member)
    have first : v.head? ≠ .some '#' := fun hash => noHash (List.mem_of_head? hash)
    have scanned : statement? (key.toList ++ (sep ++ (v ++ (pad ++ mark)))) =
        .some (.ok (.include kind ⟨String.ofList v⟩, rest)) := by
      rw [statement?_of_key includes.isKey, option_of_includes includes separates,
        lineValue_fileName separates some visible first remark stop,
        List.takeWhile_eq_self_iff.mpr other]
      rfl
    have loaded := loadText_at fs path starts scanned
    rwa [Loading.ofStatement_include] at loaded
  hashed found st rest hashKey scanned := by
    obtain ⟨make, others, after, takes, more, rfl⟩ :=
      hashKey.exists_hashes ⟨some, visible⟩ ends separates scanned
    have loaded := loadText_at fs path starts scanned
    rw [takes.ofStatement_eq] at loaded
    exact ⟨make, others, after, takes, more, rfl, loaded⟩
  refused key := by
    intro isKey takesNone first
    subst isKey
    obtain ⟨refusal, refused⟩ := takesNone.exists_refusal separates ⟨some, visible⟩ first tail
    obtain ⟨earlier, script⟩ := starts.exists_refused takesNone.isKey.skipTrivia_append
    have fault : (Script.read (before ++ (key.toList ++ (sep ++ (v ++ tail))))).fault? =
        .some (refusal.fault (before ++ (key.toList ++ (sep ++ (v ++ tail))))) := by
      rw [script _ _ refused]
    refine ⟨refusal, refused, fault, ?_⟩
    rw [loadText, fault]
    exact Loading.ofStatements_fault _

end RequirementsFile

/-- The target of `-e==x` is `=x`, as that of `-e  =x` is. The hash of `f>1 --hash=v` is `v`, as
    that of `f>1 --hash v` is. `--pre=x` and `--pre x` are refused. -/
theorem equals_sign_and_blanks_before_values :
    let load := fun text => (RequirementsFile.loadText ⟨[], []⟩ text ⟨"r"⟩).value
    let target : Except LoadError RequirementsFile := .ok { editables := [⟨"=x", ⟨⟨"r"⟩, 1⟩⟩] }
    let r : Requirement := ⟨⟨"f"⟩, [], .specifiers [⟨.greater, .ofRelease [1]⟩], .leaf true⟩
    let entry : Entry := ⟨r, ["v"], ⟨⟨"r"⟩, 1⟩⟩
    let hashed : Except LoadError RequirementsFile := .ok { requirements := [entry] }
    (load ['-', 'e', '=', '=', 'x', '\n'] = target ∧
      load ['-', 'e', ' ', ' ', '=', 'x', '\n'] = target) ∧
    (load (['f', '>', '1', ' '] ++ hashWord ++ ['=', 'v', '\n']) = hashed ∧
      load (['f', '>', '1', ' '] ++ hashWord ++ [' ', 'v', '\n']) = hashed) ∧
    (∃ error, load ['-', '-', 'p', 'r', 'e', '=', 'x', '\n'] = .error error) ∧
      ∃ error, load ['-', '-', 'p', 'r', 'e', ' ', 'x', '\n'] = .error error := by
  intro load target r entry hashed
  have blank : Separates [' '] := .inr ⟨by simp, by simp [isGap]⟩
  have stop : LineStop ['\n'] [] := .lineEnd .lf
  have ends : ∀ c, ['\n'].head? = some c → isBlank c = true := by
    rintro c ⟨⟩
    rfl
  have nothing : RequirementsFile.loadText ⟨[], []⟩ [] ⟨"r"⟩ = .silent (.ok .empty) := by
    rw [RequirementsFile.loadText, Script.read, Script.readFrom_nil, Loading.ofStatements_nil]
  have one : lineEnds [] + 1 = 1 := rfl
  have dash (w cs : List Char) : Script.Starts ([] ++ ('-' :: w ++ cs)) ('-' :: w ++ cs) :=
    .here (skipTrivia_of_other rfl rfl (by decide))
  refine ⟨?_, ?_, ?_⟩
  · have alike := RequirementsFile.separators_alike ⟨[], []⟩ ⟨"r"⟩
      (dash ['e'] (['='] ++ (['=', 'x'] ++ ['\n']))) (.inl rfl) (by simp) (by simp [isBlank]) ends
    obtain ⟨front, -, loaded⟩ := alike.recorded "-e" _ [] ['\n'] [] rfl .short rfl
      (.blanks (List.forall_mem_nil _)) stop
    have same := alike.same (.recorded .short) [' ', ' '] (.inr ⟨by simp, by simp [isGap]⟩)
    rw [one, Script.above_one, Loading.around, Loading.ofStatements_nil, nothing] at loaded
    have first : load ['-', 'e', '=', '=', 'x', '\n'] = target := congrArg Told.value loaded
    exact ⟨first, (congrArg Told.value (same _ rfl)).trans first⟩
  · let w := ['f', '>', '1', ' '] ++ ([] ++ hashWord)
    have scanned : statement? (w ++ (['='] ++ (['v'] ++ ['\n'])))
        = some (.ok (.requirement r ["v"], [])) := by
      have written : List.Forall₂ WritesHash [['v']]
          [' ' :: ([] ++ (hashWord ++ (['='] ++ ['v'])))] := .cons (.mk rfl .nil (.inl rfl)) .nil
      have closes : Closes ([] ++ ['\n']) := .blanks (List.forall_mem_nil _) (.lineEnd .lf)
      have text : Uninterrupted ['f', '>', '1'] :=
        .of_any (by decide) (by decide +kernel) (by decide +kernel)
      have parsed : Requirement.parse? ['f', '>', '1'] = some r := by cbv
      have all : ∀ hash ∈ [['v']], IsHash hash :=
        List.forall_mem_singleton.mpr ⟨by decide, by simp [isBlank]⟩
      obtain ⟨ending, rest, follows, trailing⟩ := exists_follows written all closes
      exact (text.statement?_eq follows (by simp) ⟨'f', rfl, by decide⟩ parsed trailing).1
        (not_hasUrlComment_of_no_hash (by decide +kernel))
    have split : splitStatement
        (['f', '>', '1', ' '] ++ ([] ++ (hashWord ++ (['='] ++ (['v'] ++ ['\n'])))))
        = (['f', '>', '1'], .options, [] ++ (hashWord ++ (['='] ++ (['v'] ++ ['\n'])))) := by cbv
    have key : HashKey w (['='] ++ (['v'] ++ ['\n'])) [] := .mk (by decide) .nil split .nil
    have starts : Script.Starts ([] ++ (w ++ (['='] ++ (['v'] ++ ['\n']))))
        (w ++ (['='] ++ (['v'] ++ ['\n']))) := .here (skipTrivia_of_other rfl rfl (by decide))
    have alike := RequirementsFile.separators_alike ⟨[], []⟩ ⟨"r"⟩ starts
      (.inl rfl) (by simp) (by simp [isBlank]) ends
    have same := alike.same (.hash key) [' '] blank
    obtain ⟨_, _, _, -, -, -, front, -, loaded⟩ := alike.hashed [] _ [] key scanned
    rw [one, Script.above_one, Loading.around, Loading.ofStatements_nil, nothing] at loaded
    have first : load (['f', '>', '1', ' '] ++ hashWord ++ ['=', 'v', '\n']) = hashed :=
      congrArg Told.value loaded
    exact ⟨first, (congrArg Told.value (same _ scanned)).trans first⟩
  · have refused {sep : List Char} (separates : Separates sep) :
        ∃ error, load (['-', '-', 'p', 'r', 'e'] ++ (sep ++ ['x', '\n'])) = .error error := by
      have alike := RequirementsFile.separators_alike ⟨[], []⟩ ⟨"r"⟩
        (dash ['-', 'p', 'r', 'e'] (sep ++ (['x'] ++ ['\n']))) separates (by simp)
        (by simp [isBlank]) ends
      obtain ⟨-, -, -, failed⟩ := alike.refused "--pre" rfl (.of_flag rfl) (by simp)
      exact failed
    exact ⟨refused (.inl rfl), refused blank⟩

end PinFloor
