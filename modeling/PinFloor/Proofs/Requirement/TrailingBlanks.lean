import PinFloor.Proofs.Marker.Grammar
import PinFloor.Proofs.Requirement.Names
import Mathlib.Data.List.Forall2

/-! # Blanks after a requirement

What is read of a text that ends in blanks is read of the text without them: the readers of names,
extras, URLs, specifiers and markers pass over these blanks or leave them.
-/

namespace PinFloor

/-- The second text is the first one with blanks after it. -/
def Padded (cs ds : List Char) : Prop :=
  ∃ b, (∀ c ∈ b, isBlank c = true) ∧ ds = cs ++ b

variable {cs ds rest rest' b : List Char} {c : Char} {p : Char → Bool}

section

variable (blanks : ∀ c ∈ b, isBlank c = true)
include blanks

theorem trimStart_append_blanks (cs : List Char) : trimStart (cs ++ b) =
    if trimStart cs = [] then [] else trimStart cs ++ b := by
  have nothing : b.dropWhile isBlank = [] := List.dropWhile_eq_nil_iff.mpr blanks
  rw [trimStart, trimStart, List.dropWhile_append, nothing]
  simp only [List.isEmpty_iff]

theorem exists_of_append_blanks (plain : isBlank c = false) (whole : cs ++ b = c :: rest') :
    ∃ rest, cs = c :: rest ∧ rest' = rest ++ b := by
  cases cs with
  | nil =>
      rw [List.nil_append] at whole
      rw [blanks c (whole ▸ List.mem_cons_self)] at plain
      cases plain
  | cons d rest =>
      obtain ⟨rfl, rfl⟩ := List.cons.inj whole
      exact ⟨rest, rfl, rfl⟩

theorem exists_of_trimStart_cons (start : trimStart (cs ++ b) = c :: rest') :
    ∃ rest, trimStart cs = c :: rest ∧ rest' = rest ++ b := by
  rw [trimStart_append_blanks blanks] at start
  split at start
  · cases start
  · next some =>
      obtain ⟨d, rest, first⟩ := List.exists_cons_of_ne_nil some
      rw [first] at start
      cases start
      exact ⟨rest, first, rfl⟩

theorem takeWhile_append_blanks (stops : ∀ c, isBlank c = true → p c = false) (cs : List Char) :
    (cs ++ b).takeWhile p = cs.takeWhile p := by
  have nothing : b.takeWhile p = [] := by
    cases b with
    | nil => rfl
    | cons c b => simp [stops c (blanks c List.mem_cons_self)]
  rw [List.takeWhile_append, nothing, List.append_nil]
  split
  · next whole => exact ((List.takeWhile_prefix p).eq_of_length whole).symm
  · rfl

theorem dropWhile_append_blanks (stops : ∀ c, isBlank c = true → p c = false) (cs : List Char) :
    (cs ++ b).dropWhile p = cs.dropWhile p ++ b := by
  have whole : (cs ++ b).takeWhile p ++ (cs ++ b).dropWhile p
      = (cs ++ b).takeWhile p ++ (cs.dropWhile p ++ b) := by
    rw [List.takeWhile_append_dropWhile, takeWhile_append_blanks blanks stops,
      ← List.append_assoc, List.takeWhile_append_dropWhile]
  exact List.append_cancel_left whole

/-- What is looked for behind other characters and blanks is not found in the blanks at the end. -/
theorem find_append_blanks (passes : ∀ c, isBlank c = true → p c = true)
    (found : (cs ++ b).dropWhile p = c :: rest') : ∃ rest, cs.dropWhile p = c :: rest ∧
      rest' = rest ++ b ∧ (cs ++ b).takeWhile p = cs.takeWhile p := by
  have nothing : b.dropWhile p = [] :=
    List.dropWhile_eq_nil_iff.mpr fun c inside => passes c (blanks c inside)
  have whole := List.takeWhile_append_dropWhile (p := p) (l := cs ++ b)
  rw [List.dropWhile_append, nothing] at found
  split at found
  · cases found
  · next some =>
      obtain ⟨d, rest, first⟩ := List.exists_cons_of_ne_nil (mt List.isEmpty_iff.mpr some)
      rw [first, List.cons_append] at found
      cases found
      refine ⟨rest, first, rfl, ?_⟩
      rw [List.dropWhile_append, if_neg some] at whole
      have parts : cs.takeWhile p ++ (cs.dropWhile p ++ b) = cs ++ b := by
        rw [← List.append_assoc, List.takeWhile_append_dropWhile]
      exact List.append_cancel_right (whole.trans parts.symm)

end

namespace Padded

theorem refl (cs : List Char) : Padded cs cs :=
  ⟨[], by simp, by simp⟩

theorem append (blanks : ∀ c ∈ b, isBlank c = true) (cs : List Char) : Padded cs (cs ++ b) :=
  ⟨b, blanks, rfl⟩

theorem eq_nil (padded : Padded cs []) : cs = [] := by
  obtain ⟨b, -, whole⟩ := padded
  exact (List.append_eq_nil_iff.mp whole.symm).1

theorem uncons (padded : Padded cs (c :: ds)) (plain : isBlank c = false) :
    ∃ rest, cs = c :: rest ∧ Padded rest ds := by
  obtain ⟨b, blanks, whole⟩ := padded
  obtain ⟨rest, rfl, rfl⟩ := exists_of_append_blanks blanks plain whole.symm
  exact ⟨rest, rfl, b, blanks, rfl⟩

theorem trimStart (padded : Padded cs ds) :
    Padded (PinFloor.trimStart cs) (PinFloor.trimStart ds) := by
  obtain ⟨b, blanks, rfl⟩ := padded
  rw [trimStart_append_blanks blanks]
  split
  · next nothing => exact nothing ▸ refl _
  · exact append blanks _

theorem span (padded : Padded cs ds) (passes : ∀ c, isBlank c = true → p c = true) :
    Padded (cs.takeWhile p) (ds.takeWhile p) ∧ Padded (cs.dropWhile p) (ds.dropWhile p) := by
  obtain ⟨b, blanks, rfl⟩ := padded
  have all : ∀ c ∈ b, p c = true := fun c inside => passes c (blanks c inside)
  rw [List.takeWhile_append, List.dropWhile_append, List.takeWhile_eq_self_iff.mpr all,
    List.dropWhile_eq_nil_iff.mpr all]
  refine ⟨?_, ?_⟩
  · split
    · next whole =>
        rw [(List.takeWhile_prefix p).eq_of_length whole]
        exact append blanks cs
    · exact refl _
  · split
    · next nothing => exact List.isEmpty_iff.mp nothing ▸ refl _
    · exact append blanks _

theorem trimEnd (cs : List Char) : Padded (PinFloor.trimEnd cs) cs := by
  obtain ⟨b, whole, blanks⟩ := exists_blanks cs
  exact ⟨b, blanks, whole⟩

end Padded

/-! ## Markers -/

theorem ne_of_blank (plain : isBlank c = false) (d : Char) (blank : isBlank d = true) :
    decide (d ≠ c) = true := by
  rw [decide_eq_true_eq]
  rintro rfl
  rw [plain] at blank
  cases blank

theorem isSignChar_blank (d : Char) (blank : isBlank d = true) :
    Operator.isSignChar d = false := by
  refine Bool.eq_false_iff.mpr fun sign => ?_
  simp only [Operator.isSignChar, Bool.or_eq_true, decide_eq_true_eq] at sign
  rcases sign with (((rfl | rfl) | rfl) | rfl) | rfl <;> cases blank

namespace Marker

variable {m : Option Marker}

section

variable (blanks : ∀ c ∈ b, isBlank c = true)
include blanks

theorem operand?_of_padded {x : Operand} (read : operand? (trimStart (cs ++ b)) = some (x, rest')) :
    ∃ rest, operand? (trimStart cs) = some (x, rest) ∧ rest' = rest ++ b := by
  have nothing : operand? [] = none := rfl
  rw [trimStart_append_blanks blanks] at read
  split at read
  · rw [nothing] at read
    cases read
  generalize trimStart cs = cs at read
  rcases operand?_eq_some_iff.mp read with ⟨quote, value, kind, absent, whole, rfl⟩ |
    ⟨plain, named, rfl⟩
  · have visible : isBlank quote = false := by
      rcases kind with rfl | rfl <;> rfl
    -- Both quotes stand before the blanks.
    obtain ⟨text, rfl, inner⟩ := exists_of_append_blanks blanks visible whole
    rcases List.append_eq_append_iff.mp inner with ⟨more, rfl, behind⟩ | ⟨more, rfl, behind⟩
    · obtain ⟨rest, rfl, rfl⟩ := exists_of_append_blanks blanks visible behind.symm
      exact ⟨rest, operand?_eq_some_iff.mpr (.inl ⟨_, value, kind, absent, rfl, rfl⟩), rfl⟩
    · have inside : quote ∈ b := behind ▸ List.mem_append_right more List.mem_cons_self
      rw [blanks quote inside] at visible
      cases visible
  · have stops : ∀ d, isBlank d = true → (!endsName d) = false := by
      intro d blank
      simp [endsName, blank]
    rw [takeWhile_append_blanks blanks stops] at named
    refine ⟨_, operand?_eq_some_iff.mpr (.inr ⟨?_, named, rfl⟩), ?_⟩
    · intro c first
      exact plain c (by rw [List.head?_append, first, Option.some_or])
    · exact dropWhile_append_blanks blanks stops cs

theorem relation?_of_padded {r : Relation}
    (read : relation? (trimStart (cs ++ b)) = some (r, rest')) :
    ∃ rest, relation? (trimStart cs) = some (r, rest) ∧ rest' = rest ++ b := by
  have nothing : relation? [] = none := rfl
  rw [trimStart_append_blanks blanks] at read
  split at read
  · rw [nothing] at read
    cases read
  generalize trimStart cs = cs at read ⊢
  have stops : ∀ d, isBlank d = true → inWord d = false := by
    intro d blank
    simp [inWord, blank]
  rw [relation?_eq_some_iff, takeWhile_append_blanks blanks stops,
    dropWhile_append_blanks blanks stops] at read
  rcases read with ⟨operator, plain, found, rfl, rfl⟩ | ⟨name, rfl, rfl⟩ |
    ⟨c, after, name, behind, blank, start, rfl⟩
  · rw [takeWhile_append_blanks blanks isSignChar_blank] at found
    exact ⟨_, relation?_eq_some_iff.mpr (.inl ⟨operator, plain, found, rfl, rfl⟩),
      dropWhile_append_blanks blanks isSignChar_blank cs⟩
  · exact ⟨_, relation?_eq_some_iff.mpr (.inr (.inl ⟨name, rfl, rfl⟩)), rfl⟩
  · cases tail : cs.dropWhile inWord with
    | nil =>
        -- After the first blank of `b` there is no `in`.
        have only : ∀ d ∈ after, isBlank d = true := by
          intro d inside
          refine blanks d ?_
          rw [← List.nil_append b, ← tail, behind]
          exact List.mem_cons_of_mem c inside
        rw [trimStart, List.dropWhile_eq_nil_iff.mpr only] at start
        cases start
    | cons d more =>
        rw [tail, List.cons_append] at behind
        cases behind
        obtain ⟨word, first, second⟩ := exists_of_trimStart_cons blanks start
        obtain ⟨rest, rfl, rfl⟩ := exists_of_append_blanks blanks rfl second.symm
        exact ⟨rest, relation?_eq_some_iff.mpr
          (.inr (.inr ⟨c, more, name, tail, blank, first, rfl⟩)), rfl⟩

theorem comparison?_of_padded (read : comparison? (cs ++ b) = some (m, rest')) :
    ∃ rest, comparison? cs = some (m, rest) ∧ rest' = rest ++ b := by
  simp only [comparison?, Option.bind_eq_bind, Option.bind_eq_some_iff] at read ⊢
  obtain ⟨⟨left, _⟩, read₁, ⟨relation, _⟩, read₂, ⟨right, _⟩, read₃, same⟩ := read
  cases same
  obtain ⟨rest₁, first, rfl⟩ := operand?_of_padded blanks read₁
  obtain ⟨rest₂, second, rfl⟩ := relation?_of_padded blanks read₂
  obtain ⟨rest₃, third, rfl⟩ := operand?_of_padded blanks read₃
  exact ⟨rest₃, ⟨(left, rest₁), first, (relation, rest₂), second, (right, rest₃), third, rfl⟩, rfl⟩

end

theorem afterWord?_of_padded (padded : Padded cs ds) (word : List Char) :
    afterWord? word cs = none ∧ afterWord? word ds = none ∨
      ∃ rest rest', afterWord? word cs = some rest ∧ afterWord? word ds = some rest' ∧
        Padded rest rest' := by
  obtain ⟨b, blanks, whole⟩ := padded.trimStart
  have stops : ∀ d, isBlank d = true → (!isBlank d) = false := by
    intro d blank
    simp [blank]
  rw [afterWord?, afterWord?, whole, takeWhile_append_blanks blanks stops]
  split
  · next same =>
      have inside := (List.takeWhile_prefix (!isBlank ·) (l := trimStart cs)).length_le
      rw [same] at inside
      rw [List.drop_append_of_le_length inside]
      exact .inr ⟨_, _, rfl, rfl, .append blanks _⟩
  · exact .inl ⟨rfl, rfl⟩

/-- What the grammar derives from a text, it derives from the text without blanks at its end. -/
theorem Reads.of_padded {part : Part} (reads : Reads part ds m rest') (padded : Padded cs ds) :
    ∃ rest, Padded rest rest' ∧ Reads part cs m rest := by
  induction reads generalizing cs with
  | parens start _ ih =>
      obtain ⟨inner, opened, padded⟩ := (start ▸ padded.trimStart).uncons rfl
      obtain ⟨left, padded, within⟩ := ih padded
      obtain ⟨rest, rfl, behind⟩ := padded.uncons rfl
      exact ⟨rest, behind, .parens opened within⟩
  | comparison plain read shorter =>
      obtain ⟨b, blanks, rfl⟩ := padded
      obtain ⟨rest, compared, rfl⟩ := comparison?_of_padded blanks read
      refine ⟨rest, .append blanks rest, .comparison (fun inner start => ?_) compared ?_⟩
      · refine plain (inner ++ b) ?_
        rw [trimStart_append_blanks blanks, start]
        rfl
      · simpa using shorter
  | conjunction _ _ first others =>
      obtain ⟨_, padded, first⟩ := first padded
      obtain ⟨rest, padded, others⟩ := others padded
      exact ⟨rest, padded, .conjunction first others⟩
  | lastConjunct last =>
      rcases afterWord?_of_padded padded ['a', 'n', 'd'] with ⟨none, -⟩ | ⟨_, _, -, some, -⟩
      · exact ⟨_, padded.trimStart, .lastConjunct none⟩
      · cases last.symm.trans some
  | conjunct word _ _ next others =>
      rcases afterWord?_of_padded padded ['a', 'n', 'd'] with ⟨-, none⟩ | ⟨_, _, here, some, padded⟩
      · cases none.symm.trans word
      · cases some.symm.trans word
        obtain ⟨_, padded, next⟩ := next padded
        obtain ⟨rest, padded, others⟩ := others padded
        exact ⟨rest, padded, .conjunct here next others⟩
  | disjunction _ _ first others =>
      obtain ⟨_, padded, first⟩ := first padded
      obtain ⟨rest, padded, others⟩ := others padded
      exact ⟨rest, padded, .disjunction first others⟩
  | lastDisjunct last =>
      rcases afterWord?_of_padded padded ['o', 'r'] with ⟨none, -⟩ | ⟨_, _, -, some, -⟩
      · exact ⟨_, padded.trimStart, .lastDisjunct none⟩
      · cases last.symm.trans some
  | disjunct word _ _ next others =>
      rcases afterWord?_of_padded padded ['o', 'r'] with ⟨-, none⟩ | ⟨_, _, here, some, padded⟩
      · cases none.symm.trans word
      · cases some.symm.trans word
        obtain ⟨_, padded, next⟩ := next padded
        obtain ⟨rest, padded, others⟩ := others padded
        exact ⟨rest, padded, .disjunct here next others⟩

theorem parse?_of_padded (padded : Padded cs ds) {m : Marker} (read : parse? ds = some m) :
    parse? cs = some m := by
  obtain ⟨found, reads, rfl⟩ := parse?_eq_some_iff.mp read
  obtain ⟨rest, nothing, reads⟩ := reads.of_padded padded
  rw [nothing.eq_nil] at reads
  exact parse?_eq_some_iff.mpr ⟨found, reads, rfl⟩

end Marker

/-! ## Specifiers -/

namespace Specifier

theorem parse?_padded (padded : Padded cs ds) : parse? ds = parse? cs := by
  obtain ⟨b, blanks, whole⟩ := padded.trimStart
  have version : Padded ((trimStart cs).dropWhile Operator.isSignChar)
      ((trimStart ds).dropWhile Operator.isSignChar) := by
    rw [whole, dropWhile_append_blanks blanks isSignChar_blank]
    exact .append blanks _
  obtain ⟨b', blanks', whole'⟩ := version.trimStart
  have stops : ∀ d, isBlank d = true → (!isBlank d) = false := by
    intro d blank
    simp [blank]
  have signs : (trimStart ds).takeWhile Operator.isSignChar
      = (trimStart cs).takeWhile Operator.isSignChar := by
    rw [whole, takeWhile_append_blanks blanks isSignChar_blank]
  have behind : b'.all isBlank = true := List.all_eq_true.mpr blanks'
  simp only [parse?, signs, whole', takeWhile_append_blanks blanks' stops,
    dropWhile_append_blanks blanks' stops, List.all_append, behind, Bool.and_true]

theorem splitOn_padded (padded : Padded cs ds) :
    List.Forall₂ Padded (cs.splitOn ',') (ds.splitOn ',') := by
  obtain ⟨b, blanks, rfl⟩ := padded
  have comma : ∀ d ∈ b, (d == ',') = false := by
    intro d inside
    refine beq_false_of_ne ?_
    rintro rfl
    cases blanks _ inside
  simp only [List.splitOn]
  induction cs with
  | nil =>
      rw [List.nil_append, List.splitOnP_nil, List.splitOnP_eq_singleton comma]
      exact .cons (.append blanks []) .nil
  | cons c cs ih =>
      rw [List.cons_append, List.splitOnP_cons_eq_if_modifyHead,
        List.splitOnP_cons_eq_if_modifyHead]
      split
      · exact .cons (.refl []) ih
      · generalize cs.splitOnP _ = first, (cs ++ b).splitOnP _ = second at ih ⊢
        cases ih with
        | nil => exact .nil
        | cons first others =>
            obtain ⟨b', blanks', rfl⟩ := first
            exact .cons ⟨b', blanks', rfl⟩ others

theorem parseList?_padded (padded : Padded cs ds) : parseList? ds = parseList? cs := by
  have parts {xs ys : List (List Char)} (padded : List.Forall₂ Padded xs ys) :
      ys.mapM parse? = xs.mapM parse? := by
    induction padded with
    | nil => rfl
    | cons first _ ih => rw [List.mapM_cons, List.mapM_cons, parse?_padded first, ih]
  rw [parseList?, parseList?, parts (splitOn_padded padded)]

end Specifier

/-! ## Requirements -/

namespace Requirement

variable {name : PackageName} {names : List PackageName} {source : Source}

theorem inName_blank (d : Char) (blank : isBlank d = true) : inName d = false := by
  refine Bool.eq_false_iff.mpr fun inside => ?_
  rw [not_blank_of_inName inside] at blank
  cases blank

theorem name?_of_padded (padded : Padded cs ds) (read : name? ds = some (name, rest')) :
    ∃ rest, name? cs = some (name, rest) ∧ Padded rest rest' := by
  obtain ⟨b, blanks, rfl⟩ := padded
  rw [name?, takeWhile_append_blanks blanks inName_blank,
    dropWhile_append_blanks blanks inName_blank] at read
  rw [name?]
  split at read
  · next named =>
      cases read
      exact ⟨_, rfl, .append blanks _⟩
  · cases read

theorem length_le_of_name? (read : name? cs = some (name, rest)) : rest.length ≤ cs.length := by
  rw [name?] at read
  split at read
  · cases read
    exact (List.dropWhile_suffix inName).length_le
  · cases read

theorem extrasUpTo?_of_padded {cs ds rest' : List Char} {names : List PackageName}
    (padded : Padded cs ds)
    (read : extrasUpTo? ds = some (names, rest')) :
    ∃ rest, extrasUpTo? cs = some (names, rest) ∧ Padded rest rest' := by
  rw [extrasUpTo?] at read
  split at read
  · cases read
  · next name behind' named =>
      obtain ⟨behind, named', after⟩ := name?_of_padded padded.trimStart named
      rw [extrasUpTo?, named']
      split at read
      · next start =>
          cases read
          obtain ⟨rest, closed, left⟩ := (start ▸ after.trimStart).uncons rfl
          simp only [closed]
          exact ⟨rest, rfl, left⟩
      · next more' start =>
          split at read
          · next shorter' =>
              obtain ⟨⟨others, _⟩, read, same⟩ := Option.map_eq_some_iff.mp read
              cases same
              obtain ⟨more, comma, left⟩ := (start ▸ after.trimStart).uncons rfl
              have shorter : more.length < cs.length := by
                have first := length_le_of_name? named'
                have second := Marker.length_trimStart_le cs
                have third := Marker.length_trimStart_le behind
                rw [comma, List.length_cons] at third
                omega
              obtain ⟨rest, read, left⟩ := extrasUpTo?_of_padded left read
              refine ⟨rest, ?_, left⟩
              simp only [comma, shorter, dite_true, read]
              rfl
          · cases read
      · cases read
termination_by ds.length

theorem extras?_of_padded (padded : Padded cs ds) (read : extras? ds = some (names, rest')) :
    ∃ rest, extras? cs = some (names, rest) ∧ Padded rest rest' := by
  unfold extras? at read
  split at read
  · obtain ⟨text, rfl, inner⟩ := padded.uncons rfl
    rw [extras?]
    split at read
    · next start =>
        cases read
        obtain ⟨rest, closed, left⟩ := (start ▸ inner.trimStart).uncons rfl
        rw [closed]
        exact ⟨rest, rfl, left⟩
    · next other =>
        obtain ⟨rest, listed, left⟩ := extrasUpTo?_of_padded inner read
        refine ⟨rest, ?_, left⟩
        split
        · next more start =>
            obtain ⟨b, blanks, rfl⟩ := inner
            have opens : trimStart (text ++ b) = ']' :: (more ++ b) := by
              rw [trimStart_append_blanks blanks, start]
              rfl
            exact absurd opens (other _)
        · exact listed
  · next other =>
      cases read
      refine ⟨cs, ?_, padded⟩
      rw [extras?]
      rintro text rfl
      obtain ⟨b, -, rfl⟩ := padded
      exact other (text ++ b) rfl

theorem endsUrl_append (blanks : ∀ c ∈ b, isBlank c = true) (cs : List Char) :
    endsUrl (cs ++ b) = endsUrl cs := by
  rw [endsUrl, endsUrl, trimStart_append_blanks blanks]
  cases trimStart cs <;> rfl

theorem splitUrl?_of_padded {cs url rest' : List Char} (blanks : ∀ c ∈ b, isBlank c = true)
    (some : cs ≠ []) (read : splitUrl? (cs ++ b) = .some (url, rest')) :
    ∃ rest, splitUrl? cs = .some (url, rest) ∧ Padded rest rest' := by
  match cs with
  | [c] =>
      cases b with
      | nil =>
          cases read
          exact ⟨[], rfl, .refl []⟩
      | cons d b =>
          have ends : endsUrl (d :: b) = true := by
            rw [← List.nil_append (d :: b), endsUrl_append blanks]
            rfl
          rw [List.singleton_append, splitUrl?, ends, blanks d List.mem_cons_self] at read
          simp only [Bool.true_and, if_true] at read
          split at read
          · cases read
          · cases read
            exact ⟨[], rfl, .append blanks []⟩
  | c :: d :: cs =>
      have ends := endsUrl_append blanks (d :: cs)
      rw [List.cons_append] at ends
      rw [List.cons_append, List.cons_append, splitUrl?, ends] at read
      rw [splitUrl?]
      split at read
      · cases read
      · split at read
        · cases read
          next plain stops =>
            rw [if_neg plain, if_pos stops]
            exact ⟨_, rfl, .append blanks (d :: cs)⟩
        · split at read
          · cases read
          · next plain goes inside =>
              rw [if_neg plain, if_neg goes, if_neg inside]
              obtain ⟨⟨url, _⟩, read, same⟩ := Option.map_eq_some_iff.mp read
              cases same
              obtain ⟨rest, read, padded⟩ :=
                splitUrl?_of_padded blanks (List.cons_ne_nil d cs) read
              exact ⟨rest, by rw [read]; rfl, padded⟩

theorem source?_of_padded (padded : Padded cs ds) (read : source? ds = some (source, rest')) :
    ∃ rest, source? cs = some (source, rest) ∧ Padded rest rest' := by
  unfold source? at read
  split at read
  · cases read
    exact ⟨[], by rw [padded.eq_nil]; rfl, .refl []⟩
  · obtain ⟨text, rfl, -⟩ := padded.uncons rfl
    cases read
    exact ⟨_, rfl, padded⟩
  · obtain ⟨text, rfl, b, blanks, rfl⟩ := padded.uncons rfl
    obtain ⟨⟨url, _⟩, split, read⟩ := Option.bind_eq_some_iff.mp read
    rw [trimStart_append_blanks blanks] at split
    rw [source?]
    simp only [Option.bind_eq_bind] at read ⊢
    by_cases nothing : trimStart text = []
    · rw [if_pos nothing] at split
      cases split
      cases read
    · rw [if_neg nothing] at split
      obtain ⟨rest, split, padded⟩ := splitUrl?_of_padded blanks nothing split
      rw [split, Option.bind_some]
      split at read
      · cases read
      · next some =>
          obtain ⟨target, parsed, same⟩ := Option.bind_eq_some_iff.mp read
          cases same
          rw [if_neg some, parsed]
          exact ⟨rest, rfl, padded⟩
  · obtain ⟨text, rfl, b, blanks, rfl⟩ := padded.uncons rfl
    split at read
    · next found =>
        obtain ⟨after, closed, rfl, inside⟩ := find_append_blanks blanks (ne_of_blank rfl) found
        rw [inside] at read
        obtain ⟨list, listed, same⟩ := Option.map_eq_some_iff.mp read
        cases same
        rw [source?, closed]
        simp only [listed]
        exact ⟨after, rfl, .append blanks after⟩
    · cases read
  · next c _ noMarker noUrl noParens =>
      split at read
      · next sign =>
          have visible : isBlank c = false := Bool.eq_false_iff.mpr fun blank => by
            rw [isSignChar_blank c blank] at sign
            cases sign
          obtain ⟨first, others⟩ := padded.span (p := (· ≠ ';')) (ne_of_blank rfl)
          obtain ⟨text, rfl, -⟩ := padded.uncons visible
          obtain ⟨list, listed, same⟩ := Option.map_eq_some_iff.mp read
          cases same
          refine ⟨_, ?_, others⟩
          rw [source?, if_pos sign, ← Specifier.parseList?_padded first, listed]
          · rfl
          · exact noMarker
          · exact noUrl
          · exact noParens
      · cases read

theorem marker?_of_padded (padded : Padded cs ds) {m : Marker} (read : marker? ds = some m) :
    marker? cs = some m := by
  have trimmed := padded.trimStart
  unfold marker? at read ⊢
  split at read
  · next nothing =>
      rw [nothing] at trimmed
      rw [trimmed.eq_nil]
      exact read
  · next start =>
      obtain ⟨_, first, -⟩ := (start ▸ trimmed).uncons rfl
      rw [first]
      exact read
  · next start =>
      obtain ⟨_, first, padded⟩ := (start ▸ trimmed).uncons rfl
      rw [first]
      exact Marker.parse?_of_padded padded read
  · cases read

/-- A requirement is read without the blanks at the end of its text. -/
theorem parse?_of_padded (padded : Padded cs ds) {r : Requirement} (parsed : parse? ds = some r) :
    parse? cs = some r := by
  have word : (trimStart ds).takeWhile inName = (trimStart cs).takeWhile inName := by
    obtain ⟨b, blanks, whole⟩ := padded.trimStart
    rw [whole, takeWhile_append_blanks blanks inName_blank]
  simp only [parse?, Option.bind_eq_bind, Option.bind_eq_some_iff] at parsed ⊢
  obtain ⟨⟨name, _⟩, named, ⟨extras, _⟩, listed, ⟨source, _⟩, sourced, made⟩ := parsed
  obtain ⟨rest₁, named, padded⟩ := name?_of_padded padded.trimStart named
  obtain ⟨rest₂, listed, padded⟩ := extras?_of_padded padded.trimStart listed
  obtain ⟨rest₃, sourced, padded⟩ := source?_of_padded padded.trimStart sourced
  refine ⟨(name, rest₁), named, (extras, rest₂), listed, (source, rest₃), sourced, ?_⟩
  rw [word] at made
  split at made
  · cases made
  · next other =>
      rw [if_neg other]
      obtain ⟨m, marked, made⟩ := Option.bind_eq_some_iff.mp made
      rw [marker?_of_padded padded marked]
      exact made

theorem parse?_trimEnd {r : Requirement} (parsed : parse? cs = some r) :
    parse? (trimEnd cs) = some r :=
  parse?_of_padded (.trimEnd cs) parsed

end Requirement

end PinFloor
