import PinFloor.Proofs.RequirementsFile.NameSpelling
import PinFloor.Proofs.Version.Canonical
import PinFloor.Specifier.Parser

/-! # Requirements that look like URLs

A requirement has no colon before the `@` of its URL, its marker or its comment. So its first word
looks like a URL without a name only where a comment follows its parenthesis directly, and a URL is
in this word of the comment.
-/

namespace PinFloor

variable {cs rest rest' : List Char} {c : Char} {p : Char → Bool}

/-! ## Readers that take in no colon -/

/-- The second text is what is left of the first one behind some characters, none of them a colon. -/
def Past (cs rest : List Char) : Prop :=
  ∃ u, cs = u ++ rest ∧ ':' ∉ u

namespace Past

theorem refl (cs : List Char) : Past cs cs :=
  ⟨[], rfl, List.not_mem_nil⟩

theorem trans (first : Past cs rest) (second : Past rest rest') : Past cs rest' := by
  obtain ⟨u, rfl, absent⟩ := first
  obtain ⟨v, rfl, absent'⟩ := second
  refine ⟨u ++ v, (List.append_assoc u v rest').symm, fun inside => ?_⟩
  rcases List.mem_append.mp inside with inside | inside
  · exact absent inside
  · exact absent' inside

theorem cons (other : c ≠ ':') (past : Past cs rest) : Past (c :: cs) rest := by
  obtain ⟨u, rfl, absent⟩ := past
  refine ⟨c :: u, rfl, fun inside => ?_⟩
  rcases List.mem_cons.mp inside with same | inside
  · exact other same.symm
  · exact absent inside

theorem dropWhile (stops : p ':' = false) (cs : List Char) : Past cs (cs.dropWhile p) := by
  refine ⟨cs.takeWhile p, List.takeWhile_append_dropWhile.symm, fun inside => ?_⟩
  rw [List.mem_takeWhile_imp inside] at stops
  cases stops

theorem not_colon (past : Past cs rest) (absent : ':' ∉ rest) : ':' ∉ cs := by
  obtain ⟨u, rfl, absent'⟩ := past
  intro inside
  rcases List.mem_append.mp inside with inside | inside
  · exact absent' inside
  · exact absent inside

end Past

/-- A reader that takes in no colon. -/
def ReadsNoColon {α : Type} (read : List Char → Option (α × List Char)) : Prop :=
  ∀ ⦃cs a rest⦄, read cs = some (a, rest) → Past cs rest

namespace Version

variable {α β : Type}

theorem past_skipJoint (cs : List Char) : Past cs (skipJoint cs) := by
  cases cs with
  | nil => exact .refl []
  | cons c cs =>
      rw [skipJoint]
      split
      · next joint => exact .cons (by rintro rfl; cases joint) (.refl cs)
      · exact .refl _

theorem past_afterWord? {word : List Char} (absent : ':' ∉ word)
    (read : afterWord? word cs = some rest) : Past cs rest := by
  fun_induction afterWord? word cs with
  | case1 =>
      cases read
      exact .refl rest
  | case2 word c cs ih =>
      refine .cons ?_ (ih (List.not_mem_of_not_mem_cons absent) read)
      rintro rfl
      exact absent List.mem_cons_self
  | case3 | case4 => cases read

theorem readsNoColon_number? : ReadsNoColon number? := by
  intro cs n rest read
  rw [number?] at read
  split at read
  · cases read
    exact .refl cs
  · obtain ⟨_, -, same⟩ := Option.map_eq_some_iff.mp read
    cases same
    exact .dropWhile rfl cs

theorem readsNoColon_counter : ReadsNoColon counter := by
  intro cs n rest read
  obtain ⟨⟨_, _⟩, read, same⟩ := Option.map_eq_some_iff.mp read
  cases same
  exact (past_skipJoint cs).trans (readsNoColon_number? read)

theorem readsNoColon_wordPart {words : List (String × α)} {make : α → Nat → β}
    (absent : ∀ word ∈ words, ':' ∉ word.1.toList) : ReadsNoColon (wordPart words make) := by
  intro cs part rest read
  rw [wordPart] at read
  split at read
  · cases read
    exact .refl cs
  · next meaning after word =>
      obtain ⟨⟨_, _⟩, counted, same⟩ := Option.map_eq_some_iff.mp read
      cases same
      obtain ⟨⟨word, _⟩, listed, found⟩ := List.exists_of_findSome?_eq_some word
      obtain ⟨_, introduced, same⟩ := Option.map_eq_some_iff.mp found
      cases same
      exact (past_skipJoint cs).trans
        ((past_afterWord? (absent _ listed) introduced).trans (readsNoColon_counter counted))

theorem readsNoColon_prePart : ReadsNoColon prePart :=
  readsNoColon_wordPart (by decide)

theorem readsNoColon_devPart : ReadsNoColon devPart :=
  readsNoColon_wordPart (by decide)

theorem readsNoColon_postPart : ReadsNoColon postPart := by
  have named : ReadsNoColon postPart.named := readsNoColon_wordPart (by decide)
  intro cs part rest read
  unfold postPart at read
  split at read
  · split at read
    · cases read
    · next numbered =>
        cases read
        exact .cons (by decide) (readsNoColon_number? numbered)
    · exact named read
  · exact named read

theorem readsNoColon_labelPart : ReadsNoColon labelPart := by
  intro cs part rest read
  unfold labelPart at read
  split at read
  · simp only at read
    split at read
    · cases read
    · cases read
      exact .cons (by decide) (.dropWhile rfl _)
  · cases read
    exact .refl cs

theorem readsNoColon_releasePart : ReadsNoColon releasePart := by
  intro cs numbers rest read
  fun_induction releasePart cs generalizing numbers rest with
  | case1 rest none =>
      cases read
      exact .refl _
  | case2 => cases read
  | case3 _ _ _ _ ih =>
      obtain ⟨⟨_, _⟩, read, same⟩ := Option.map_eq_some_iff.mp read
      cases same
      exact .cons (by decide) ((Past.dropWhile rfl _).trans (ih read))
  | case4 cs =>
      cases read
      exact .refl cs

theorem readsNoColon_leadPart : ReadsNoColon leadPart := by
  intro cs lead rest read
  unfold leadPart at read
  split at read
  · next numbered =>
      split at read
      · next first =>
          obtain ⟨⟨_, _⟩, further, same⟩ := Option.map_eq_some_iff.mp read
          cases same
          exact (readsNoColon_number? numbered).trans (.cons (by decide)
            ((readsNoColon_number? first).trans (readsNoColon_releasePart further)))
      · cases read
  · next numbered =>
      obtain ⟨⟨_, _⟩, further, same⟩ := Option.map_eq_some_iff.mp read
      cases same
      exact (readsNoColon_number? numbered).trans (readsNoColon_releasePart further)
  · cases read

theorem not_colon_of_suffixes {epoch : Nat} {release : List Nat} {v : Version}
    (read : suffixes epoch release cs = some v) : ':' ∉ cs := by
  simp only [suffixes, Option.bind_eq_bind, Option.bind_eq_some_iff] at read
  obtain ⟨⟨_, _⟩, pre, ⟨_, _⟩, post, ⟨_, _⟩, dev, ⟨_, left⟩, label, made⟩ := read
  have past := (readsNoColon_prePart pre).trans ((readsNoColon_postPart post).trans
    ((readsNoColon_devPart dev).trans (readsNoColon_labelPart label)))
  split at made
  · next blanks =>
      refine past.not_colon fun inside => ?_
      cases List.all_eq_true.mp blanks ':' inside
  · cases made

theorem past_skipMark (cs : List Char) : Past cs (skipMark cs) := by
  unfold skipMark
  split
  · exact .cons (by decide) (.refl _)
  · exact .cons (by decide) (.refl _)
  · exact .refl _

theorem not_colon_of_pattern? {pattern : VersionPattern} (read : pattern? cs = some pattern) :
    ':' ∉ cs := by
  unfold pattern? at read
  split at read
  · cases read
  · next lead =>
      refine ((Past.dropWhile rfl cs).trans
        ((past_skipMark _).trans (readsNoColon_leadPart lead))).not_colon ?_
      split at read
      · next wildcard => rw [wildcard]; decide
      · obtain ⟨_, read, -⟩ := Option.map_eq_some_iff.mp read
        exact not_colon_of_suffixes read

end Version

namespace Specifier

theorem not_colon_of_parse? {s : Specifier} (read : parse? cs = some s) : ':' ∉ cs := by
  simp only [parse?, Option.bind_eq_bind, Option.bind_eq_some_iff] at read
  obtain ⟨_, -, read⟩ := read
  split at read
  · cases read
  · next blanks =>
      obtain ⟨pattern, word, -⟩ := Option.bind_eq_some_iff.mp read
      have past : Past cs (trimStart ((trimStart cs).dropWhile Operator.isSignChar)) :=
        (Past.dropWhile rfl cs).trans ((Past.dropWhile rfl _).trans (Past.dropWhile rfl _))
      refine past.not_colon fun inside => ?_
      rw [← List.takeWhile_append_dropWhile (p := (!isBlank ·)) (l := trimStart _)] at inside
      rcases List.mem_append.mp inside with inside | inside
      · exact Version.not_colon_of_pattern? word inside
      · have blanks := List.all_eq_true.mp (by simpa using blanks)
        cases blanks ':' inside

theorem exists_mem_splitOn (inside : c ∈ cs) (other : c ≠ ',') : ∃ part ∈ cs.splitOn ',', c ∈ part := by
  simp only [List.splitOn]
  induction cs with
  | nil => cases inside
  | cons d cs ih =>
      rw [List.splitOnP_cons_eq_if_modifyHead]
      split
      · next comma =>
          rcases List.mem_cons.mp inside with rfl | inside
          · exact absurd (by simpa using comma) other
          · obtain ⟨part, member, inside⟩ := ih inside
            exact ⟨part, List.mem_cons_of_mem _ member, inside⟩
      · generalize parts : cs.splitOnP _ = all at ih ⊢
        cases all with
        | nil => exact absurd parts (List.splitOnP_ne_nil _ _)
        | cons first others =>
            rcases List.mem_cons.mp inside with rfl | inside
            · exact ⟨_, List.mem_cons_self, List.mem_cons_self⟩
            · obtain ⟨part, member, inside⟩ := ih inside
              rcases List.mem_cons.mp member with rfl | member
              · exact ⟨_, List.mem_cons_self, List.mem_cons_of_mem d inside⟩
              · exact ⟨part, List.mem_cons_of_mem _ member, inside⟩

theorem exists_of_mapM {α β : Type} {f : α → Option β} {xs : List α} {ys : List β} {x : α}
    (mapped : xs.mapM f = some ys) (member : x ∈ xs) : ∃ y, f x = some y := by
  induction xs generalizing ys with
  | nil => cases member
  | cons z xs ih =>
      simp only [List.mapM_cons, Option.bind_eq_bind, Option.bind_eq_some_iff] at mapped
      obtain ⟨y, here, _, later, -⟩ := mapped
      rcases List.mem_cons.mp member with rfl | member
      · exact ⟨y, here⟩
      · exact ih later member

theorem not_colon_of_parseList? {list : List Specifier} (read : parseList? cs = some list) :
    ':' ∉ cs := by
  intro inside
  obtain ⟨_, parsed, -⟩ := Option.map_eq_some_iff.mp read
  obtain ⟨part, member, inside⟩ := exists_mem_splitOn inside (by decide)
  obtain ⟨s, parsed⟩ := exists_of_mapM parsed member
  exact not_colon_of_parse? parsed inside

end Specifier

namespace Requirement

theorem readsNoColon_name? : ReadsNoColon name? := by
  intro cs name rest read
  rw [name?] at read
  split at read
  · cases read
    exact .dropWhile rfl cs
  · cases read

theorem readsNoColon_extrasUpTo? : ReadsNoColon extrasUpTo? := by
  intro cs names rest read
  fun_induction extrasUpTo? cs generalizing names rest with
  | case1 | case4 | case5 => cases read
  | case2 cs name behind named more start =>
      cases read
      have past := Past.dropWhile (p := isBlank) rfl behind
      rw [← trimStart, start] at past
      exact (Past.dropWhile rfl cs).trans ((readsNoColon_name? named).trans
        (past.trans (.cons (by decide) (.refl _))))
  | case3 cs name behind named more start shorter ih =>
      obtain ⟨⟨_, _⟩, read, same⟩ := Option.map_eq_some_iff.mp read
      cases same
      have past := Past.dropWhile (p := isBlank) rfl behind
      rw [← trimStart, start] at past
      exact (Past.dropWhile rfl cs).trans ((readsNoColon_name? named).trans
        (past.trans (.cons (by decide) (ih read))))

theorem readsNoColon_extras? : ReadsNoColon extras? := by
  intro cs names rest read
  unfold extras? at read
  split at read
  · next text =>
      refine .cons (by decide) ?_
      split at read
      · next start =>
          cases read
          have past := Past.dropWhile (p := isBlank) rfl text
          rw [← trimStart, start] at past
          exact past.trans (.cons (by decide) (.refl _))
      · exact readsNoColon_extrasUpTo? read
  · cases read
    exact .refl cs

end Requirement

/-! ## The first word of a requirement -/

/-- A character of the part of a first word in which a URL without a name is looked for. -/
def inTarget (c : Char) : Bool :=
  !isBlank c && c ≠ ';' && c ≠ '@'

/-- A text with a comment directly after a closing parenthesis, and with a URL in the first word of
    this comment. -/
def HasUrlComment (t : List Char) : Prop :=
  ∃ front comment, t = front ++ ')' :: '#' :: comment ∧ (∀ c ∈ front, inTarget c = true) ∧
    occursIn "://".toList (comment.takeWhile inTarget) = true

theorem takeWhile_firstWord (cs : List Char) :
    (firstWord cs).takeWhile (· ≠ '@') = cs.takeWhile inTarget := by
  rw [firstWord, List.takeWhile_takeWhile]
  refine congrArg (List.takeWhile · cs) (funext fun c => ?_)
  rw [inTarget, Bool.decide_and, Bool.decide_eq_true, Bool.decide_eq_true, Bool.and_comm]

theorem occursIn_append_left {part : List Char} (before : List Char)
    (found : occursIn part cs = true) : occursIn part (before ++ cs) = true := by
  induction before with
  | nil => exact found
  | cons c before ih => rw [List.cons_append, occursIn, ih, Bool.or_true]

/-- A URL is found behind characters that are no colons if none of them ends the word. -/
theorem all_inTarget_of_occursIn {u : List Char} (absent : ':' ∉ u)
    (found : occursIn "://".toList ((u ++ cs).takeWhile inTarget) = true) :
    (∀ c ∈ u, inTarget c = true) ∧ occursIn "://".toList (cs.takeWhile inTarget) = true := by
  induction u with
  | nil => exact ⟨by simp, found⟩
  | cons c u ih =>
      have other : (':' == c) = false := beq_false_of_ne (List.ne_of_not_mem_cons absent)
      rw [List.cons_append, List.takeWhile_cons] at found
      split at found
      · next inside =>
          have start : "://".toList.isPrefixOf (c :: (u ++ cs).takeWhile inTarget) = false := by
            rw [show "://".toList = ':' :: ['/', '/'] from rfl, List.isPrefixOf_cons_cons, other]
            rfl
          rw [occursIn, start, Bool.false_or] at found
          obtain ⟨others, found⟩ := ih (List.not_mem_of_not_mem_cons absent) found
          exact ⟨List.forall_mem_cons.mpr ⟨inside, others⟩, found⟩
      · cases found

theorem exists_of_occursIn (found : occursIn "://".toList (cs.takeWhile inTarget) = true) :
    ∃ c text, cs = c :: text ∧ inTarget c = true := by
  cases cs with
  | nil => cases found
  | cons c text =>
      refine ⟨c, text, rfl, Bool.not_eq_false _ ▸ fun outside => ?_⟩
      rw [List.takeWhile_cons_of_neg (by simp [outside])] at found
      cases found

theorem trimStart_of_occursIn (found : occursIn "://".toList (cs.takeWhile inTarget) = true) :
    trimStart cs = cs := by
  obtain ⟨c, text, rfl, inside⟩ := exists_of_occursIn found
  have visible : isBlank c = false := by
    simp only [inTarget, Bool.and_eq_true] at inside
    simpa using inside.1.1
  exact List.dropWhile_cons_of_neg (by simp [visible])

namespace Requirement

variable {t : List Char} {r : Requirement} {source : Source} {m : Marker}

/-- Where a URL is found behind the source of a requirement, it is in a comment. -/
theorem exists_comment_of_marker? (marked : marker? cs = some m)
    (found : occursIn "://".toList (cs.takeWhile inTarget) = true) :
    ∃ comment, cs = '#' :: comment := by
  have visible := trimStart_of_occursIn found
  obtain ⟨c, text, rfl, inside⟩ := exists_of_occursIn found
  rw [marker?, visible] at marked
  split at marked
  · next nothing => cases nothing
  · exact ⟨text, by simp_all⟩
  · next start =>
      cases start
      cases inside
  · cases marked

/-- Where a URL is found behind the extras of a requirement, it is in a comment behind the
    parenthesis that closes the specifiers. -/
theorem hasUrlComment_of_source? (sourced : source? cs = some (source, rest))
    (marked : marker? rest = some m)
    (found : occursIn "://".toList (cs.takeWhile inTarget) = true) : HasUrlComment cs := by
  unfold source? at sourced
  split at sourced
  · cases found
  · cases found
  · cases found
  · next inner =>
      split at sourced
      · next close after closing =>
          obtain ⟨list, listed, same⟩ := Option.map_eq_some_iff.mp sourced
          cases same
          have stop := List.head?_dropWhile_not (· ≠ ')') inner
          have whole := List.takeWhile_append_dropWhile (p := (· ≠ ')')) (l := inner)
          rw [closing] at stop whole
          obtain rfl : close = ')' := by simpa using stop
          have absent := Specifier.not_colon_of_parseList? listed
          generalize inner.takeWhile (· ≠ ')') = inside at whole absent
          subst whole
          have before : ':' ∉ '(' :: (inside ++ [')']) := by simpa using absent
          have parts : '(' :: (inside ++ ')' :: rest) = '(' :: (inside ++ [')']) ++ rest := by simp
          rw [parts] at found
          obtain ⟨all, found⟩ := all_inTarget_of_occursIn before found
          obtain ⟨comment, rfl⟩ := exists_comment_of_marker? marked found
          refine ⟨'(' :: inside, comment, rfl, fun c member => all c ?_, ?_⟩
          · rw [← List.cons_append]
            exact List.mem_append_left _ member
          · exact (all_inTarget_of_occursIn (u := ['#']) (by decide) found).2
      · cases sourced
  · next c text _ _ _ =>
      split at sourced
      · obtain ⟨list, listed, same⟩ := Option.map_eq_some_iff.mp sourced
        cases same
        rw [← List.takeWhile_append_dropWhile (p := (· ≠ ';')) (l := c :: text)] at found
        have behind := (all_inTarget_of_occursIn (Specifier.not_colon_of_parseList? listed) found).2
        obtain ⟨d, more, start, inside⟩ := exists_of_occursIn behind
        have stop := List.head?_dropWhile_not (· ≠ ';') (c :: text)
        rw [start] at stop
        obtain rfl : d = ';' := by simpa using stop
        cases inside
      · cases sourced

/-- A requirement that looks like a URL has a URL in a comment. -/
theorem hasUrlComment_of_isUnnamed (letter : ∃ c, t.head? = some c ∧ c.isAlphanum = true)
    (parsed : parse? t = some r) (target : Scanner.isUnnamed t = true) : HasUrlComment t := by
  obtain ⟨n, X, whole, name, ends, -⟩ := exists_name parsed
  obtain ⟨c, first, letter⟩ := letter
  obtain ⟨text, rfl⟩ := List.head?_eq_some_iff.mp first
  have visible := not_blank_of_inName (inName_of_alphanum letter)
  have start : trimStart (c :: text) = c :: text :=
    List.dropWhile_cons_of_neg (by simp [visible])
  rw [start] at whole
  rw [whole] at parsed target ⊢
  rw [parse?_name name ends] at parsed
  simp only [Option.bind_eq_bind, Option.bind_eq_some_iff] at parsed
  obtain ⟨⟨extras, _⟩, listed, ⟨source, _⟩, sourced, made⟩ := parsed
  have colon : X.head? ≠ some ':' := by
    intro colon
    obtain ⟨more, rfl⟩ := List.head?_eq_some_iff.mp colon
    cases listed
    cases sourced
  rw [isUnnamed_name name ends colon, takeWhile_firstWord] at target
  rw [trimStart_of_occursIn target] at listed
  obtain ⟨u, rfl, absent⟩ := readsNoColon_extras? listed
  obtain ⟨all, found⟩ := all_inTarget_of_occursIn absent target
  rw [trimStart_of_occursIn found] at sourced
  split at made
  · cases made
  · obtain ⟨m, marked, -⟩ := Option.bind_eq_some_iff.mp made
    obtain ⟨front, comment, rfl, all', found⟩ := hasUrlComment_of_source? sourced marked found
    refine ⟨n ++ u ++ front, comment, by simp, ?_, found⟩
    simp only [List.mem_append]
    rintro c ((inside | inside) | inside)
    · have plain := inName_of_isName name inside
      have blank := not_blank_of_inName plain
      have semicolon : c ≠ ';' := ne_of_inName plain rfl
      have at_ : c ≠ '@' := ne_of_inName plain rfl
      simp [inTarget, blank, semicolon, at_]
    · exact all c inside
    · exact all' c inside

end Requirement

theorem Scanner.isUnnamed_of_hasUrlComment {t : List Char} (looks : HasUrlComment t) :
    isUnnamed t = true := by
  obtain ⟨front, comment, rfl, all, found⟩ := looks
  have word : ∀ c ∈ front ++ [')', '#'], inTarget c = true := by
    intro c inside
    rcases List.mem_append.mp inside with inside | inside
    · exact all c inside
    · rcases (by simpa using inside : c = ')' ∨ c = '#') with rfl | rfl <;> rfl
  have url : occursIn "://".toList
      ((firstWord (front ++ ')' :: '#' :: comment)).takeWhile (· ≠ '@')) = true := by
    have parts : front ++ ')' :: '#' :: comment = (front ++ [')', '#']) ++ comment := by simp
    rw [takeWhile_firstWord, parts, List.takeWhile_append_of_pos word]
    exact occursIn_append_left _ found
  rw [firstWord] at url
  simp only [isUnnamed, url, Bool.or_true]

end PinFloor
