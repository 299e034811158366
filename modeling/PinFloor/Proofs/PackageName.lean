import Mathlib
import PinFloor.PackageName

/-! # The spellings of a package name

Names are compared in lower case and with one `-` in place of each run of separators. The normal form
of a name is computed while the name is checked; here it is related to this description of it: two
names are one exactly if they have the same words up to case. The way around the check for names that
are in normal form already leads to the same name.
-/

namespace PinFloor.PackageName

/-- A text in lower case, with one `-` in place of each run of separators. -/
def collapse : List Char → List Char
  | [] => []
  | c :: rest =>
      if isSeparator c then
        if rest.head?.any isSeparator then collapse rest else '-' :: collapse rest
      else c.toLower :: collapse rest

/-- The words of a text in lower case: what is left of it without its runs of separators. -/
def lowerWords (cs : List Char) : List (List Char) :=
  ((cs.splitOnP isSeparator).filter (!·.isEmpty)).map (·.map Char.toLower)

/-- A text of letters, digits and separators that starts and ends with a letter or digit. -/
structure IsName (cs : List Char) : Prop where
  chars : ∀ c ∈ cs, isSeparator c = true ∨ c.isAlphanum = true
  first : ∃ c, cs.head? = some c ∧ c.isAlphanum = true
  last : ∃ c, cs.getLast? = some c ∧ c.isAlphanum = true

/-- Two spellings of one name. -/
structure SameName (cs ds : List Char) : Prop where
  left : IsName cs
  right : IsName ds
  collapse : collapse cs = collapse ds

variable {c : Char} {cs ds normal : List Char}

theorem IsName.ne_nil (name : IsName cs) : cs ≠ [] := by
  rintro rfl
  obtain ⟨c, none, -⟩ := name.first
  cases none

theorem not_alphanum_of_separator (separates : isSeparator c = true) : c.isAlphanum = false := by
  have cases : (c = '-' ∨ c = '_') ∨ c = '.' := by simpa [isSeparator] using separates
  rcases cases with (rfl | rfl) | rfl <;> rfl

theorem not_separator_of_alphanum (letter : c.isAlphanum = true) : isSeparator c = false := by
  refine Bool.eq_false_iff.mpr fun separates => ?_
  rw [not_alphanum_of_separator separates] at letter
  cases letter

theorem collapse_letter (letter : c.isAlphanum = true) (cs : List Char) :
    collapse (c :: cs) = c.toLower :: collapse cs := by
  rw [collapse, not_separator_of_alphanum letter]
  rfl

/-- Which separator stands somewhere does not matter. -/
theorem collapse_separator {d : Char} (left : isSeparator c = true) (right : isSeparator d = true)
    (cs : List Char) : collapse (c :: cs) = collapse (d :: cs) := by
  simp [collapse, left, right]

theorem collapse_two_separators {d : Char} (left : isSeparator c = true)
    (right : isSeparator d = true) (cs : List Char) :
    collapse (c :: d :: cs) = collapse (d :: cs) := by
  rw [collapse, left]
  simp [right]

/-- The rest of a name, with a separator before it if there is one. -/
def behind (gap : Bool) (cs : List Char) : List Char :=
  if gap then '-' :: cs else cs

/-- The text does not end in a separator. -/
def Closed (cs : List Char) : Prop :=
  ∀ c, cs.getLast? = some c → c.isAlphanum = true

theorem closed_behind_separator (separates : isSeparator c = true) (gap : Bool) :
    Closed (behind gap (c :: cs)) ↔ Closed (behind true cs) := by
  have other := not_alphanum_of_separator separates
  cases cs with
  | nil => cases gap <;> simp [Closed, behind, other]
  | cons d ds => cases gap <;> simp [Closed, behind, List.getLast?_cons_cons]

theorem closed_behind_letter (letter : c.isAlphanum = true) (gap : Bool) :
    Closed (behind gap (c :: cs)) ↔ Closed (behind false cs) := by
  cases cs with
  | nil => cases gap <;> simp [Closed, behind, letter]
  | cons d ds => cases gap <;> simp [Closed, behind, List.getLast?_cons_cons]

theorem collapse_behind_separator (separates : isSeparator c = true) (gap : Bool) :
    collapse (behind gap (c :: cs)) = collapse (behind true cs) := by
  have dash : isSeparator '-' = true := rfl
  cases gap with
  | true => exact (collapse_two_separators dash separates cs).trans (collapse_separator separates dash cs)
  | false => exact collapse_separator separates dash cs

theorem collapse_behind_letter (letter : c.isAlphanum = true) (gap : Bool) :
    collapse (behind gap (c :: cs)) =
      if gap then '-' :: c.toLower :: collapse cs else c.toLower :: collapse cs := by
  have plain := not_separator_of_alphanum letter
  cases gap with
  | true =>
      have dash : isSeparator '-' = true := rfl
      simp [behind, collapse, plain, dash]
  | false => exact collapse_letter letter cs

theorem normalizeFrom_eq_some_iff (gap : Bool) : normalizeFrom gap cs = some normal ↔
    (∀ c ∈ cs, isSeparator c = true ∨ c.isAlphanum = true) ∧ Closed (behind gap cs) ∧
      normal = collapse (behind gap cs) := by
  induction cs generalizing gap normal with
  | nil =>
      cases gap with
      | true => simp [normalizeFrom, Closed, behind]
      | false => simp [normalizeFrom, Closed, behind, collapse]
  | cons c cs ih =>
      rw [normalizeFrom]
      by_cases separates : isSeparator c = true
      · rw [if_pos separates, ih, closed_behind_separator separates,
          collapse_behind_separator separates]
        simp [separates]
      by_cases letter : c.isAlphanum = true
      · rw [if_neg separates, if_pos letter, Option.map_eq_some_iff, closed_behind_letter letter,
          collapse_behind_letter letter]
        simp only [ih, List.forall_mem_cons, letter, or_true, true_and]
        constructor
        · rintro ⟨tail, ⟨chars, closed, rfl⟩, rfl⟩
          exact ⟨chars, closed, rfl⟩
        · rintro ⟨chars, closed, rfl⟩
          exact ⟨_, ⟨chars, closed, rfl⟩, rfl⟩
      · rw [if_neg separates, if_neg letter]
        simp [separates, letter]

/-- A text has a normal form exactly if it is a name, and this is its collapsed form. -/
theorem normalize?_eq_some_iff : normalize? cs = some normal ↔ IsName cs ∧ normal = collapse cs := by
  cases cs with
  | nil =>
      constructor
      · nofun
      · rintro ⟨⟨_, ⟨c, none, _⟩, _⟩, _⟩
        cases none
  | cons c cs =>
      rw [normalize?]
      by_cases letter : c.isAlphanum = true
      · have ends : Closed cs ↔ ∃ d, (c :: cs).getLast? = some d ∧ d.isAlphanum = true := by
          cases cs with
          | nil => simp [Closed, letter]
          | cons d ds =>
              have some : (d :: ds).getLast? = some ((d :: ds).getLast (by simp)) :=
                List.getLast?_eq_some_getLast (by simp)
              rw [Closed, List.getLast?_cons_cons, some]
              simp
        rw [if_pos letter, Option.map_eq_some_iff]
        simp only [normalizeFrom_eq_some_iff]
        constructor
        · rintro ⟨tail, ⟨chars, closed, rfl⟩, rfl⟩
          refine ⟨⟨?_, ⟨c, rfl, letter⟩, ends.mp closed⟩, (collapse_letter letter cs).symm⟩
          exact List.forall_mem_cons.mpr ⟨.inr letter, chars⟩
        · rintro ⟨name, rfl⟩
          exact ⟨_, ⟨(List.forall_mem_cons.mp name.chars).2, ends.mpr name.last, rfl⟩,
            (collapse_letter letter cs).symm⟩
      · rw [if_neg letter]
        refine ⟨nofun, fun ⟨name, _⟩ => ?_⟩
        obtain ⟨d, first, other⟩ := name.first
        cases first
        exact absurd other letter

instance : Decidable (IsName cs) :=
  decidable_of_iff ((normalize? cs).isSome = true) (by
    rw [Option.isSome_iff_exists]
    simp [normalize?_eq_some_iff])

instance : Decidable (SameName cs ds) :=
  decidable_of_iff (IsName cs ∧ IsName ds ∧ collapse cs = collapse ds)
    ⟨fun ⟨left, right, same⟩ => ⟨left, right, same⟩,
      fun same => ⟨same.left, same.right, same.collapse⟩⟩

theorem toLower_of_lowerOrDigit (lower : isLowerOrDigit c = true) : c.toLower = c := by
  refine Char.toLower_eq_of_not_isUpper ?_
  rw [isLowerOrDigit, Bool.or_eq_true] at lower
  rcases lower with lower | digit
  · exact Char.not_isUpper_of_isLower lower
  · simp only [Char.isDigit, Char.isUpper, Bool.and_eq_true, decide_eq_true_eq,
      UInt32.le_iff_toNat_le, ge_iff_le] at digit ⊢
    grind

theorem alphanum_of_lowerOrDigit (lower : isLowerOrDigit c = true) : c.isAlphanum = true := by
  rw [isLowerOrDigit, Bool.or_eq_true] at lower
  rcases lower with lower | digit
  · simp [Char.isAlphanum, Char.isAlpha, lower]
  · simp [Char.isAlphanum, digit]

theorem normalizeFrom_of_isNormalizedFrom {gap : Bool} (normal : isNormalizedFrom gap cs = true) :
    normalizeFrom gap cs = some (behind gap cs) := by
  induction cs generalizing gap with
  | nil =>
      cases gap with
      | true => cases normal
      | false => rfl
  | cons c cs ih =>
      rw [isNormalizedFrom] at normal
      split at normal
      · next dash =>
          subst dash
          obtain ⟨first, rest⟩ := (Bool.and_eq_true _ _).mp normal
          cases gap with
          | true => cases first
          | false => exact ih rest
      · obtain ⟨lower, rest⟩ := (Bool.and_eq_true _ _).mp normal
        have letter := alphanum_of_lowerOrDigit lower
        rw [normalizeFrom, not_separator_of_alphanum letter, letter, ih rest,
          toLower_of_lowerOrDigit lower]
        cases gap <;> rfl

theorem normalize?_of_isNormalized (normal : isNormalized cs = true) : normalize? cs = some cs := by
  cases cs with
  | nil => cases normal
  | cons c cs =>
      rw [isNormalized, isNormalizedFrom] at normal
      split at normal
      · cases normal
      · obtain ⟨lower, rest⟩ := (Bool.and_eq_true _ _).mp normal
        rw [normalize?, alphanum_of_lowerOrDigit lower, normalizeFrom_of_isNormalizedFrom rest,
          toLower_of_lowerOrDigit lower]
        rfl

/-- To take a name as it stands, if it is in normal form, comes to the same as to read it. -/
theorem adopt_eq_parse (name : String) : adopt name = parse name := by
  rw [adopt]
  split
  · next normal =>
      rw [parse, normalize?_of_isNormalized normal]
      simp
  · rfl

theorem parse_of_isName {name : String} (valid : IsName name.toList) :
    parse name = .ok ⟨String.ofList (collapse name.toList)⟩ := by
  rw [parse, normalize?_eq_some_iff.mpr ⟨valid, rfl⟩]

theorem isLowerOrDigit_toLower (letter : c.isAlphanum = true) :
    isLowerOrDigit c.toLower = true := by
  rw [Char.isAlphanum, Bool.or_eq_true] at letter
  rw [isLowerOrDigit, Char.isLower_toLower_eq_isAlpha]
  rcases letter with letter | digit
  · rw [letter, Bool.true_or]
  · have lower : isLowerOrDigit c = true := by rw [isLowerOrDigit, digit, Bool.or_true]
    rw [toLower_of_lowerOrDigit lower, digit, Bool.or_true]

theorem ne_dash_of_lowerOrDigit (lower : isLowerOrDigit c = true) : c ≠ '-' := by
  rintro rfl
  cases lower

/-! ## Words -/

theorem lowerWords_separator (separates : isSeparator c = true) (cs : List Char) :
    lowerWords (c :: cs) = lowerWords cs := by
  rw [lowerWords, List.splitOnP_cons_eq_if_modifyHead, if_pos separates]
  rfl

/-- A letter is a word of its own, or begins the first word of what follows it. -/
theorem lowerWords_letter (plain : isSeparator c = false) (cs : List Char) :
    (cs.head?.all isSeparator = true ∧ lowerWords (c :: cs) = [c.toLower] :: lowerWords cs) ∨
      ∃ word rest, cs.head?.any isSeparator = false ∧ lowerWords cs = word :: rest ∧
        lowerWords (c :: cs) = (c.toLower :: word) :: rest := by
  rw [lowerWords, List.splitOnP_cons_eq_if_modifyHead, if_neg (by simp [plain])]
  cases cs with
  | nil => exact .inl ⟨rfl, rfl⟩
  | cons d ds =>
      rw [lowerWords, List.splitOnP_cons_eq_if_modifyHead]
      split
      · next separates => exact .inl ⟨separates, rfl⟩
      · next letter =>
          obtain ⟨word, rest, split⟩ :=
            List.exists_cons_of_ne_nil (List.splitOnP_ne_nil isSeparator ds)
          rw [split]
          exact .inr ⟨_, _, by simpa using letter, rfl, rfl⟩

theorem not_dash_of_mem_lowerWords (chars : ∀ c ∈ cs, isSeparator c = true ∨ c.isAlphanum = true) :
    ∀ word ∈ lowerWords cs, '-' ∉ word := by
  induction cs with
  | nil => exact List.forall_mem_nil _
  | cons c cs ih =>
      obtain ⟨first, others⟩ := List.forall_mem_cons.mp chars
      have rest := ih others
      cases separates : isSeparator c with
      | true =>
          rw [lowerWords_separator separates]
          exact rest
      | false =>
          have letter := first.resolve_left (by simp [separates])
          have other := (ne_dash_of_lowerOrDigit (isLowerOrDigit_toLower letter)).symm
          rcases lowerWords_letter separates cs with ⟨-, whole⟩ | ⟨word, words, -, same, whole⟩
          · rw [whole]
            exact List.forall_mem_cons.mpr ⟨by simpa using other, rest⟩
          · rw [same] at rest
            obtain ⟨inside, rest⟩ := List.forall_mem_cons.mp rest
            rw [whole]
            exact List.forall_mem_cons.mpr ⟨by simpa using ⟨other, inside⟩, rest⟩

/-- A text that ends in a letter has a word, and before a word each run of separators is one `-`. -/
theorem collapse_of_closed (some : cs ≠ []) (closed : Closed cs) : lowerWords cs ≠ [] ∧
    collapse cs = if cs.head?.any isSeparator then '-' :: ['-'].intercalate (lowerWords cs)
      else ['-'].intercalate (lowerWords cs) := by
  induction cs with
  | nil => exact absurd rfl some
  | cons c cs ih =>
      have shorter (some : cs ≠ []) : Closed cs := fun d last => closed d (by
        rw [List.getLast?_cons, last]
        rfl)
      cases separates : isSeparator c with
      | true =>
          have more : cs ≠ [] := by
            rintro rfl
            have letter := closed c rfl
            rw [not_alphanum_of_separator separates] at letter
            cases letter
          obtain ⟨words, written⟩ := ih more (shorter more)
          rw [lowerWords_separator separates, collapse, if_pos separates, written]
          refine ⟨words, ?_⟩
          split <;> simp [separates]
      | false =>
          have first : (c :: cs).head?.any isSeparator = false := separates
          rw [collapse, if_neg (by simp [separates]), if_neg (by simp [separates])]
          rcases lowerWords_letter separates cs with ⟨run, whole⟩ | ⟨word, rest, run, same, whole⟩
          · cases cs with
            | nil =>
                rw [whole]
                exact ⟨List.cons_ne_nil _ _, rfl⟩
            | cons d ds =>
                obtain ⟨words, written⟩ := ih (List.cons_ne_nil d ds) (shorter (List.cons_ne_nil d ds))
                obtain ⟨word, rest, same⟩ := List.exists_cons_of_ne_nil words
                have run' : (d :: ds).head?.any isSeparator = true := run
                rw [whole, written, if_pos run', same]
                exact ⟨List.cons_ne_nil _ _, by simp⟩
          · have more : cs ≠ [] := by
              rintro rfl
              cases same
            rw [whole, (ih more (shorter more)).2, if_neg (by simp [run]), same]
            refine ⟨List.cons_ne_nil _ _, ?_⟩
            cases rest <;> simp

/-- The collapsed form of a name is its words in lower case, with one `-` between two of them. -/
theorem IsName.collapse_eq (name : IsName cs) :
    PackageName.collapse cs = ['-'].intercalate (lowerWords cs) := by
  obtain ⟨c, first, letter⟩ := name.first
  obtain ⟨d, last, letter'⟩ := name.last
  have closed : Closed cs := fun e same => by
    cases last.symm.trans same
    exact letter'
  rw [(collapse_of_closed name.ne_nil closed).2, first, Option.any_some,
    not_separator_of_alphanum letter]
  rfl

/-- Two names have one collapsed form exactly if they have the same words, up to case. -/
theorem collapse_eq_iff (left : IsName cs) (right : IsName ds) :
    collapse cs = collapse ds ↔ lowerWords cs = lowerWords ds := by
  have words {cs : List Char} (name : IsName cs) :
      (collapse cs).splitOn '-' = lowerWords cs := by
    have some : lowerWords cs ≠ [] := by
      obtain ⟨d, last, letter⟩ := name.last
      refine (collapse_of_closed name.ne_nil fun e same => ?_).1
      cases last.symm.trans same
      exact letter
    rw [name.collapse_eq, List.splitOn_intercalate _ (not_dash_of_mem_lowerWords name.chars) some]
  refine ⟨fun same => ?_, fun same => ?_⟩
  · rw [← words left, same, words right]
  · rw [left.collapse_eq, same, right.collapse_eq]

/-! ## Names in normal form -/

theorem isNormalizedFrom_cons (letter : c.isAlphanum = true) (gap : Bool) (cs : List Char) :
    isNormalizedFrom gap (c.toLower :: cs) = isNormalizedFrom false cs := by
  have lower := isLowerOrDigit_toLower letter
  rw [isNormalizedFrom, if_neg (ne_dash_of_lowerOrDigit lower), lower, Bool.true_and]

/-- What normalizing the rest of a name gives is in normal form. -/
theorem isNormalizedFrom_of_normalizeFrom {gap : Bool} (read : normalizeFrom gap cs = some normal) :
    isNormalizedFrom false normal = true := by
  induction cs generalizing gap normal with
  | nil =>
      cases gap with
      | true => cases read
      | false =>
          cases read
          rfl
  | cons c cs ih =>
      rw [normalizeFrom] at read
      split at read
      · exact ih read
      · split at read
        · next letter =>
            obtain ⟨tail, rest, rfl⟩ := Option.map_eq_some_iff.mp read
            have lower := isLowerOrDigit_toLower letter
            cases gap with
            | true =>
                rw [if_pos rfl, isNormalizedFrom, if_pos rfl, isNormalizedFrom_cons letter, ih rest]
                rfl
            | false =>
                rw [if_neg (by simp), isNormalizedFrom_cons letter, ih rest]
        · cases read

theorem isNormalized_of_normalize? (read : normalize? cs = some normal) :
    isNormalized normal = true := by
  cases cs with
  | nil => cases read
  | cons c cs =>
      rw [normalize?] at read
      split at read
      · next letter =>
          obtain ⟨tail, rest, rfl⟩ := Option.map_eq_some_iff.mp read
          rw [isNormalized, isNormalizedFrom_cons letter, isNormalizedFrom_of_normalizeFrom rest]
      · cases read

theorem isNormalized_iff : isNormalized cs = true ↔ normalize? cs = some cs :=
  ⟨normalize?_of_isNormalized, isNormalized_of_normalize?⟩

theorem parse_eq_ok_iff {name : String} {n : PackageName} :
    parse name = .ok n ↔ IsName name.toList ∧
      n.text.toList = ['-'].intercalate (lowerWords name.toList) := by
  rw [parse]
  cases read : normalize? name.toList with
  | none =>
      refine ⟨nofun, fun ⟨valid, _⟩ => ?_⟩
      rw [normalize?_eq_some_iff.mpr ⟨valid, rfl⟩] at read
      cases read
  | some normal =>
      obtain ⟨valid, rfl⟩ := normalize?_eq_some_iff.mp read
      simp only [Except.ok.injEq, valid, true_and, ← valid.collapse_eq]
      refine ⟨?_, fun same => ?_⟩
      · rintro rfl
        exact String.toList_ofList
      · obtain ⟨text⟩ := n
        rw [← same, String.ofList_toList]

theorem error_of_parse {name : String} {error : InvalidName} (refused : parse name = .error error) :
    error = ⟨name⟩ := by
  rw [parse] at refused
  split at refused
  · cases refused
  · exact (Except.error.inj refused).symm

/-- A text is read as a package name exactly if it is one. The name that is read is its words in lower
    case, joined by `-`; it is read as itself, and it is the same for two texts exactly if they have
    the same words up to case. The texts in this form are those that may be taken as they stand. -/
theorem read_iff_isName (s : String) :
    ((∃ n, parse s = .ok n) ↔ IsName s.toList) ∧
    (¬ IsName s.toList → parse s = .error ⟨s⟩) ∧
    adopt s = parse s ∧
    (isNormalized s.toList = true ↔ parse s = .ok ⟨s⟩) ∧
    ∀ n, parse s = .ok n →
      n.text.toList = ['-'].intercalate (lowerWords s.toList) ∧
      parse n.text = .ok n ∧
      ∀ t m, parse t = .ok m → (n = m ↔ lowerWords s.toList = lowerWords t.toList) := by
  have accepted : (∃ n, parse s = .ok n) ↔ IsName s.toList := by
    refine ⟨fun ⟨n, read⟩ => (parse_eq_ok_iff.mp read).1, fun valid => ?_⟩
    exact ⟨_, parse_of_isName valid⟩
  refine ⟨accepted, fun invalid => ?_, adopt_eq_parse s, ?_, fun n read => ?_⟩
  · cases read : parse s with
    | ok n => exact absurd (accepted.mp ⟨n, read⟩) invalid
    | error error => rw [error_of_parse read]
  · rw [isNormalized_iff, normalize?_eq_some_iff, parse_eq_ok_iff]
    refine and_congr_right fun valid => ?_
    rw [valid.collapse_eq]
  · obtain ⟨valid, written⟩ := parse_eq_ok_iff.mp read
    refine ⟨written, ?_, fun t m other => ?_⟩
    · have normal : normalize? s.toList = some n.text.toList :=
        normalize?_eq_some_iff.mpr ⟨valid, written.trans valid.collapse_eq.symm⟩
      rw [parse, normalize?_of_isNormalized (isNormalized_of_normalize? normal)]
      simp only [String.ofList_toList]
    · obtain ⟨valid', written'⟩ := parse_eq_ok_iff.mp other
      rw [← collapse_eq_iff valid valid', valid.collapse_eq, valid'.collapse_eq, ← written,
        ← written', String.toList_inj]
      cases n
      cases m
      exact iff_of_eq (PackageName.mk.injEq ..)

/-- Another spelling of `a-b`, which is read as this name, and a text that is no name. -/
theorem read_a_b : parse "A_.b" = .ok ⟨"a-b"⟩ ∧ parse "a-b" = .ok ⟨"a-b"⟩ ∧
    lowerWords "A_.b".toList = lowerWords "a-b".toList ∧ parse "a-" = .error ⟨"a-"⟩ := by
  have read : parse "A_.b" = .ok ⟨"a-b"⟩ := by rfl
  have normal : parse "a-b" = .ok ⟨"a-b"⟩ := by rfl
  obtain ⟨-, -, -, -, named⟩ := read_iff_isName "A_.b"
  obtain ⟨-, itself, same⟩ := named _ read
  obtain ⟨-, refused, -⟩ := read_iff_isName "a-"
  exact ⟨read, itself, (same _ _ normal).mp rfl, refused (by decide)⟩

end PinFloor.PackageName
