import Mathlib
import PinFloor.Proofs.Text.Decimal
import PinFloor.Version.Parser

/-! # The canonical text of a version

A version that was read has numbers that fit a machine word and a label of words in lower case. The
text of such a version reads as that version, so the text tells all about it.
-/

namespace PinFloor

/-- A part of a label as it is read: letters and digits that read as the part. -/
structure LabelPart.IsProper (part : LabelPart) : Prop where
  filled : part.text.toList ≠ []
  plain : ∀ c ∈ part.text.toList, c.isAlphanum = true
  read : Version.labelWord part.text.toList = part

namespace Version

open Decimal

/-- A version as it is read. -/
structure IsProper (v : Version) : Prop where
  epoch : v.epoch < wordSize
  numbered : v.release ≠ []
  release : ∀ n ∈ v.release, n < wordSize
  pre : ∀ stage n, v.pre = some (stage, n) → n < wordSize
  post : ∀ n, v.post = some n → n < wordSize
  dev : ∀ n, v.dev = some n → n < wordSize
  label : ∀ part ∈ v.label, part.IsProper

/-! ## Numbers -/

section

variable {n : Nat} {rest : List Char}

theorem exists_digits (n : Nat) : ∃ d ds, digits n = d :: ds ∧ d.isDigit = true := by
  cases written : digits n with
  | nil => exact absurd written (digits_ne_nil n)
  | cons d ds =>
      refine ⟨d, ds, rfl, isDigit_of_mem_digits n d ?_⟩
      rw [written]
      exact List.mem_cons_self

theorem ne_of_isDigit {c d : Char} (digit : c.isDigit = true) (other : d.isDigit = false) :
    c ≠ d := by
  rintro rfl
  rw [digit] at other
  cases other

theorem toLower_of_isDigit {c : Char} (digit : c.isDigit = true) : c.toLower = c := by
  refine Char.toLower_eq_of_not_isUpper ?_
  simp only [Char.isDigit, Char.isUpper, Bool.and_eq_true, decide_eq_true_eq,
    UInt32.le_iff_toNat_le, ge_iff_le] at digit ⊢
  grind

theorem takeWhile_digits (stop : rest.takeWhile Char.isDigit = []) :
    (digits n ++ rest).takeWhile Char.isDigit = digits n := by
  rw [List.takeWhile_append_of_pos (isDigit_of_mem_digits n), stop, List.append_nil]

theorem dropWhile_digits (stop : rest.takeWhile Char.isDigit = []) :
    (digits n ++ rest).dropWhile Char.isDigit = rest := by
  have whole := List.takeWhile_append_dropWhile (p := Char.isDigit) (l := rest)
  rw [List.dropWhile_append_of_pos (isDigit_of_mem_digits n)]
  rwa [stop, List.nil_append] at whole

theorem number?_digits (fits : n < wordSize) (stop : rest.takeWhile Char.isDigit = []) :
    number? (digits n ++ rest) = some (some n, rest) := by
  obtain ⟨d, ds, written, -⟩ := exists_digits n
  unfold number?
  rw [takeWhile_digits stop, dropWhile_digits stop, written]
  simp only
  rw [← written, word?_digits fits, Option.map_some]

theorem counter_digits (fits : n < wordSize) (stop : rest.takeWhile Char.isDigit = []) :
    counter (digits n ++ rest) = some (n, rest) := by
  obtain ⟨d, ds, written, digit⟩ := exists_digits n
  have kept : skipJoint (digits n ++ rest) = digits n ++ rest := by
    have plain : isJoint d = false := by
      simp [isJoint, ne_of_isDigit digit (d := '.') rfl, ne_of_isDigit digit (d := '-') rfl,
        ne_of_isDigit digit (d := '_') rfl]
    simp [written, skipJoint, plain]
  simp [counter, kept, number?_digits fits stop]

theorem lt_of_number? {cs : List Char} (read : number? cs = some (some n, rest)) :
    n < wordSize := by
  unfold number? at read
  split at read
  · cases read
  · obtain ⟨m, word, same⟩ := Option.map_eq_some_iff.mp read
    cases same
    exact lt_of_word? word

theorem lt_of_counter {cs : List Char} (read : counter cs = some (n, rest)) : n < wordSize := by
  obtain ⟨⟨m, left⟩, number, same⟩ := Option.map_eq_some_iff.mp read
  cases same
  cases m with
  | none => decide
  | some m => exact lt_of_number? number

end

/-! ## Parts with a word -/

section

variable {α β : Type} {words : List (String × α)} {make : α → Nat → β} {cs rest : List Char}

theorem wordPart_of_word {meaning : α} {n : Nat} (fits : n < wordSize)
    (stop : rest.takeWhile Char.isDigit = [])
    (word : afterOneOf? words (skipJoint cs) = some (meaning, digits n ++ rest)) :
    wordPart words make cs = some (some (make meaning n), rest) := by
  simp [wordPart, word, counter_digits fits stop]

theorem wordPart_of_none (word : afterOneOf? words (skipJoint cs) = none) :
    wordPart words make cs = some (none, cs) := by
  simp [wordPart, word]

theorem exists_of_wordPart {b : β} (read : wordPart words make cs = some (some b, rest)) :
    ∃ meaning n, b = make meaning n ∧ n < wordSize := by
  unfold wordPart at read
  split at read
  · cases read
  · next meaning next _ =>
      obtain ⟨⟨n, left⟩, number, same⟩ := Option.map_eq_some_iff.mp read
      cases same
      exact ⟨meaning, n, rfl, lt_of_counter number⟩

end

/-! ## Written parts -/

/-- How an epoch is written. -/
def epochChars (n : Nat) : List Char :=
  if n = 0 then [] else digits n ++ ['!']

/-- How the release numbers after the first are written. -/
def furtherChars (ns : List Nat) : List Char :=
  ns.flatMap fun n => '.' :: digits n

/-- How a pre-release is written. -/
def preChars : Option (Stage × Nat) → List Char
  | none => []
  | some (.alpha, n) => 'a' :: digits n
  | some (.beta, n) => 'b' :: digits n
  | some (.candidate, n) => 'r' :: 'c' :: digits n

/-- How a post-release is written. -/
def postChars : Option Nat → List Char
  | none => []
  | some n => '.' :: 'p' :: 'o' :: 's' :: 't' :: digits n

/-- How a development release is written. -/
def devChars : Option Nat → List Char
  | none => []
  | some n => '.' :: 'd' :: 'e' :: 'v' :: digits n

/-- How a label is written. -/
def labelChars : List LabelPart → List Char
  | [] => []
  | parts => '+' :: ['.'].intercalate (parts.map (·.text.toList))

theorem toList_releaseText (n : Nat) (ns : List Nat) :
    (releaseText (n :: ns)).toList = digits n ++ furtherChars ns := by
  have each : String.toList ∘ Decimal.text = digits := by
    funext m
    simp [Decimal.text]
  have joined : ['.'].intercalate ((n :: ns).map digits) = digits n ++ furtherChars ns := by
    induction ns generalizing n with
    | nil => simp [furtherChars]
    | cons m ns ih =>
        rw [List.map_cons, List.map_cons, List.intercalate_cons_cons, ← List.map_cons, ih m]
        simp [furtherChars]
  rw [releaseText, String.toList_intercalate, List.map_map, each]
  exact joined

theorem toList_text {v : Version} {n : Nat} {ns : List Nat} (numbered : v.release = n :: ns) :
    v.text.toList = epochChars v.epoch ++ (digits n ++ (furtherChars ns ++
      (preChars v.pre ++ (postChars v.post ++ (devChars v.dev ++ labelChars v.label))))) := by
  simp only [text, String.toList_append, numbered, toList_releaseText, List.append_assoc]
  refine congrArg₂ _ ?epoch (congrArg _ (congrArg _ (congrArg₂ _ ?pre (congrArg₂ _ ?post
    (congrArg₂ _ ?dev ?label)))))
  case epoch =>
    unfold epochChars
    split <;> simp [Decimal.text]
  case pre =>
    cases v.pre with
    | none => rfl
    | some part =>
        obtain ⟨stage, n⟩ := part
        cases stage <;> simp [preChars, Stage.text, Decimal.text]
  case post => cases v.post <;> simp [postChars, Decimal.text]
  case dev => cases v.dev <;> simp [devChars, Decimal.text]
  case label =>
    cases v.label with
    | nil => rfl
    | cons part parts => simp [labelChars, String.toList_intercalate, Function.comp_def]

/-- What may stand after the release numbers: nothing, a letter of a pre-release, a label, or a
    point before a post-release or a development release. -/
inductive Suffix : List Char → Prop where
  | nil : Suffix []
  | sign {c : Char} {cs : List Char} (first : c ∈ ['a', 'b', 'r', '+']) : Suffix (c :: cs)
  | word {c : Char} {cs : List Char} (first : c ∈ ['p', 'd']) : Suffix ('.' :: c :: cs)

section

variable {cs : List Char}

theorem Suffix.takeWhile (suffix : Suffix cs) : cs.takeWhile Char.isDigit = [] := by
  cases suffix with
  | nil => rfl
  | sign first =>
      simp only [List.mem_cons, List.not_mem_nil, or_false] at first
      rcases first with rfl | rfl | rfl | rfl <;> rfl
  | word => rfl

theorem Suffix.releasePart (suffix : Suffix cs) : releasePart cs = some ([], cs) := by
  cases suffix with
  | nil => simp [Version.releasePart]
  | sign first =>
      simp only [List.mem_cons, List.not_mem_nil, or_false] at first
      rcases first with rfl | rfl | rfl | rfl <;> simp [Version.releasePart]
  | @word c cs first =>
      have stop : (c :: cs).takeWhile Char.isDigit = [] := by
        simp only [List.mem_cons, List.not_mem_nil, or_false] at first
        rcases first with rfl | rfl <;> rfl
      rw [Version.releasePart, stop]

theorem suffix_label (label : List LabelPart) : Suffix (labelChars label) := by
  cases label with
  | nil => exact .nil
  | cons part parts => exact .sign (by simp)

theorem suffix_dev (dev : Option Nat) (label : List LabelPart) :
    Suffix (devChars dev ++ labelChars label) := by
  cases dev with
  | none => exact suffix_label label
  | some n => exact .word (by simp)

theorem suffix_post (post dev : Option Nat) (label : List LabelPart) :
    Suffix (postChars post ++ (devChars dev ++ labelChars label)) := by
  cases post with
  | none => exact suffix_dev dev label
  | some n => exact .word (by simp)

theorem suffix_pre (pre : Option (Stage × Nat)) (post dev : Option Nat) (label : List LabelPart) :
    Suffix (preChars pre ++ (postChars post ++ (devChars dev ++ labelChars label))) := by
  match pre with
  | none => exact suffix_post post dev label
  | some (.alpha, n) | some (.beta, n) | some (.candidate, n) => exact .sign (by simp)

end

/-! ## Written parts read back -/

theorem splitJoints_word {word : List Char} (plain : ∀ c ∈ word, isJoint c = false) :
    splitJoints word = [word] := by
  induction word with
  | nil => rfl
  | cons c word ih =>
      simp [splitJoints, plain c List.mem_cons_self,
        ih fun d member => plain d (List.mem_cons_of_mem c member)]

theorem splitJoints_append {word rest : List Char} (plain : ∀ c ∈ word, isJoint c = false) :
    splitJoints (word ++ '.' :: rest) = word :: splitJoints rest := by
  induction word with
  | nil => rfl
  | cons c word ih =>
      simp [splitJoints, plain c List.mem_cons_self,
        ih fun d member => plain d (List.mem_cons_of_mem c member)]

theorem splitJoints_intercalate {words : List (List Char)} (some : words ≠ [])
    (plain : ∀ word ∈ words, ∀ c ∈ word, isJoint c = false) :
    splitJoints (['.'].intercalate words) = words := by
  induction words with
  | nil => exact absurd rfl some
  | cons word words ih =>
      have first := plain word List.mem_cons_self
      cases words with
      | nil => simpa using splitJoints_word first
      | cons next words =>
          rw [List.intercalate_cons_cons, List.append_assoc, List.singleton_append,
            splitJoints_append first, ih (List.cons_ne_nil _ _)
              fun other member => plain other (List.mem_cons_of_mem _ member)]

theorem not_joint_of_alphanum {c : Char} (plain : c.isAlphanum = true) : isJoint c = false := by
  have ne (d : Char) (other : d.isAlphanum = false) : c ≠ d := by
    rintro rfl
    rw [plain] at other
    cases other
  simp [isJoint, ne '.' rfl, ne '-' rfl, ne '_' rfl]

theorem inLabel_intercalate {words : List (List Char)}
    (plain : ∀ word ∈ words, ∀ c ∈ word, c.isAlphanum = true) :
    ∀ c ∈ ['.'].intercalate words, (c.isAlphanum || isJoint c) = true := by
  induction words with
  | nil => simp
  | cons word words ih =>
      have rest := ih fun other member => plain other (List.mem_cons_of_mem _ member)
      intro c member
      cases words with
      | nil =>
          rw [List.intercalate_singleton] at member
          simp [plain word List.mem_cons_self c member]
      | cons next words =>
          rw [List.intercalate_cons_cons, List.append_assoc, List.mem_append] at member
          rcases member with first | later
          · simp [plain word List.mem_cons_self c first]
          · rcases List.mem_cons.mp later with rfl | later
            · rfl
            · exact rest c later

theorem labelPart_words {words : List (List Char)} (some : words ≠ [])
    (filled : ∀ word ∈ words, word ≠ [])
    (plain : ∀ word ∈ words, ∀ c ∈ word, c.isAlphanum = true) :
    labelPart ('+' :: ['.'].intercalate words) = .some (words.map labelWord, []) := by
  have taken : (['.'].intercalate words).takeWhile (fun c => c.isAlphanum || isJoint c)
      = ['.'].intercalate words :=
    List.takeWhile_eq_self_iff.mpr (inLabel_intercalate plain)
  have dropped : (['.'].intercalate words).dropWhile (fun c => c.isAlphanum || isJoint c) = [] :=
    List.dropWhile_eq_nil_iff.mpr (inLabel_intercalate plain)
  have split : splitJoints (['.'].intercalate words) = words :=
    splitJoints_intercalate some
      fun word member c inside => not_joint_of_alphanum (plain word member c inside)
  have kept : words.any List.isEmpty = false :=
    List.any_eq_false.mpr fun word member => by simpa using filled word member
  simp [labelPart, taken, dropped, split, kept]

theorem labelPart_labelChars {label : List LabelPart} (proper : ∀ part ∈ label, part.IsProper) :
    labelPart (labelChars label) = some (label, []) := by
  have read : (label.map (·.text.toList)).map labelWord = label := by
    rw [List.map_map]
    exact (List.map_congr_left fun part member => (proper part member).read).trans (List.map_id _)
  have filled : ∀ word ∈ label.map (·.text.toList), word ≠ [] := by
    rintro word member
    obtain ⟨part, inside, rfl⟩ := List.mem_map.mp member
    exact (proper part inside).filled
  have plain : ∀ word ∈ label.map (·.text.toList), ∀ c ∈ word, c.isAlphanum = true := by
    intro word member
    obtain ⟨part, inside, rfl⟩ := List.mem_map.mp member
    exact (proper part inside).plain
  cases label with
  | nil => rfl
  | cons part parts =>
      refine (labelPart_words (List.cons_ne_nil _ _) filled plain).trans ?_
      exact congrArg (fun parts => some (parts, [])) read

section

variable {tail : List Char} (label : List LabelPart)

theorem devPart_devChars {dev : Option Nat} (fits : ∀ n, dev = some n → n < wordSize) :
    devPart (devChars dev ++ labelChars label) = some (dev, labelChars label) := by
  cases dev with
  | none =>
      refine wordPart_of_none ?_
      cases label <;> rfl
  | some n => exact wordPart_of_word (fits n rfl) (suffix_label label).takeWhile rfl

theorem Suffix.postPart_eq {cs : List Char} (suffix : Suffix cs) :
    postPart cs = postPart.named cs := by
  cases suffix with
  | nil => rfl
  | sign first =>
      simp only [List.mem_cons, List.not_mem_nil, or_false] at first
      rcases first with rfl | rfl | rfl | rfl <;> rfl
  | word => rfl

theorem postPart_postChars {post dev : Option Nat} (fits : ∀ n, post = some n → n < wordSize) :
    postPart (postChars post ++ (devChars dev ++ labelChars label))
      = some (post, devChars dev ++ labelChars label) := by
  rw [(suffix_post post dev label).postPart_eq]
  cases post with
  | none =>
      refine wordPart_of_none ?_
      cases dev <;> cases label <;> rfl
  | some n =>
      have word : afterOneOf? [("post", ()), ("rev", ()), ("r", ())]
          (skipJoint (postChars (some n) ++ (devChars dev ++ labelChars label)))
            = some ((), digits n ++ (devChars dev ++ labelChars label)) := rfl
      exact wordPart_of_word (fits n rfl) (suffix_dev dev label).takeWhile word

theorem afterWord?_digits {w : Char} {word rest : List Char} (n : Nat)
    (letter : w.isDigit = false) : afterWord? (w :: word) (digits n ++ rest) = none := by
  obtain ⟨d, ds, written, digit⟩ := exists_digits n
  rw [written, List.cons_append, afterWord?, toLower_of_isDigit digit,
    if_neg (ne_of_isDigit digit letter)]

theorem prePart_preChars {pre : Option (Stage × Nat)} {post dev : Option Nat}
    (fits : ∀ stage n, pre = some (stage, n) → n < wordSize) :
    prePart (preChars pre ++ (postChars post ++ (devChars dev ++ labelChars label)))
      = some (pre, postChars post ++ (devChars dev ++ labelChars label)) := by
  have stop := (suffix_post post dev label).takeWhile
  match pre with
  | none =>
      refine wordPart_of_none ?_
      cases post <;> cases dev <;> cases label <;> rfl
  | some (.alpha, n) | some (.beta, n) | some (.candidate, n) =>
      -- A digit follows, so none of the longer words for the stage stands here.
      refine wordPart_of_word (fits _ n rfl) stop ?_
      simp [preChars, skipJoint, isJoint, afterOneOf?, stageWords, afterWord?, afterWord?_digits]

end

section

variable {ns : List Nat} {tail : List Char}

theorem takeWhile_further (suffix : Suffix tail) :
    (furtherChars ns ++ tail).takeWhile Char.isDigit = [] := by
  cases ns with
  | nil => exact suffix.takeWhile
  | cons n ns => rfl

theorem releasePart_further (fits : ∀ n ∈ ns, n < wordSize) (suffix : Suffix tail) :
    releasePart (furtherChars ns ++ tail) = some (ns, tail) := by
  induction ns with
  | nil => exact suffix.releasePart
  | cons n ns ih =>
      have stop : (furtherChars ns ++ tail).takeWhile Char.isDigit = [] := takeWhile_further suffix
      have rest := ih fun m member => fits m (List.mem_cons_of_mem n member)
      have written : furtherChars (n :: ns) ++ tail
          = '.' :: (digits n ++ (furtherChars ns ++ tail)) := by simp [furtherChars]
      obtain ⟨d, ds, number, -⟩ := exists_digits n
      rw [written, releasePart, takeWhile_digits stop, dropWhile_digits stop, number]
      simp only
      rw [← number, word?_digits (fits n List.mem_cons_self), rest]
      rfl

theorem ne_bang_of_further (suffix : Suffix tail) (rest : List Char) :
    furtherChars ns ++ tail ≠ '!' :: rest := by
  cases ns with
  | cons n ns => simp [furtherChars]
  | nil =>
      cases suffix with
      | nil => simp [furtherChars]
      | word => simp [furtherChars]
      | sign first =>
          simp only [List.mem_cons, List.not_mem_nil, or_false] at first
          rcases first with rfl | rfl | rfl | rfl <;> simp [furtherChars]

theorem leadPart_written {epoch n : Nat} (epochFits : epoch < wordSize) (first : n < wordSize)
    (fits : ∀ n ∈ ns, n < wordSize) (suffix : Suffix tail) :
    leadPart (epochChars epoch ++ (digits n ++ (furtherChars ns ++ tail)))
      = some ((epoch, n :: ns), tail) := by
  have number : number? (digits n ++ (furtherChars ns ++ tail))
      = some (some n, furtherChars ns ++ tail) := number?_digits first (takeWhile_further suffix)
  have release := releasePart_further fits suffix
  by_cases zero : epoch = 0
  · subst zero
    rw [epochChars, if_pos rfl, List.nil_append, leadPart]
    split
    · next rest read =>
        obtain ⟨-, same⟩ : n = _ ∧ furtherChars ns ++ tail = '!' :: rest := by
          rw [number] at read
          simpa using read
        exact absurd same (ne_bang_of_further suffix rest)
    · next m rest _ read =>
        obtain ⟨rfl, rfl⟩ : n = m ∧ furtherChars ns ++ tail = rest := by
          rw [number] at read
          simpa using read
        rw [release]
        rfl
    · next other => exact absurd number (other _ _)
  · rw [epochChars, if_neg zero, List.append_assoc, leadPart, number?_digits epochFits rfl]
    simp [number, release]

theorem suffixes_written {v : Version} (proper : v.IsProper) :
    suffixes v.epoch v.release
      (preChars v.pre ++ (postChars v.post ++ (devChars v.dev ++ labelChars v.label)))
        = some v := by
  rw [suffixes, prePart_preChars v.label proper.pre]
  simp only [Option.bind_eq_bind, Option.bind_some]
  rw [postPart_postChars v.label proper.post]
  simp only [Option.bind_some]
  rw [devPart_devChars v.label proper.dev]
  simp only [Option.bind_some]
  rw [labelPart_labelChars proper.label]
  simp only [Option.bind_some, List.all_nil, if_true]

theorem Suffix.ne_star (suffix : Suffix tail) : tail ≠ ['.', '*'] := by
  cases suffix with
  | nil => simp
  | sign first =>
      simp only [List.mem_cons, List.not_mem_nil, or_false] at first
      rcases first with rfl | rfl | rfl | rfl <;> simp
  | word first =>
      simp only [List.mem_cons, List.not_mem_nil, or_false] at first
      rcases first with rfl | rfl <;> simp

theorem skip_text {v : Version} {n : Nat} {ns : List Nat} (numbered : v.release = n :: ns) :
    skipMark (v.text.toList.dropWhile isAsciiBlank) = v.text.toList := by
  obtain ⟨d, rest, written, digit⟩ : ∃ d rest, v.text.toList = d :: rest ∧ d.isDigit = true := by
    rw [toList_text numbered, epochChars]
    split
    · obtain ⟨d, ds, number, digit⟩ := exists_digits n
      exact ⟨d, _, by rw [number]; rfl, digit⟩
    · obtain ⟨d, ds, number, digit⟩ := exists_digits v.epoch
      exact ⟨d, _, by rw [number]; rfl, digit⟩
  have ne (c : Char) (other : c.isDigit = false) : d ≠ c := ne_of_isDigit digit other
  have kept : isAsciiBlank d = false := by
    simp [isAsciiBlank, ne ' ' rfl, ne '\t' rfl, ne '\n' rfl, ne '\x0c' rfl, ne '\r' rfl]
  rw [written, List.dropWhile_cons_of_neg (by simp [kept])]
  unfold skipMark
  split
  · next same => exact absurd (List.cons.inj same).1 (ne 'v' rfl)
  · next same => exact absurd (List.cons.inj same).1 (ne 'V' rfl)
  · rfl

/-- The text of a version reads as the version. -/
theorem parse?_text {v : Version} (proper : v.IsProper) : parse? v.text.toList = some v := by
  cases numbered : v.release with
  | nil => exact absurd numbered proper.numbered
  | cons n ns =>
      have numbers : n < wordSize ∧ ∀ m ∈ ns, m < wordSize := by
        have fits := proper.release
        rw [numbered] at fits
        exact ⟨fits n List.mem_cons_self, fun m member => fits m (List.mem_cons_of_mem n member)⟩
      have suffix := suffix_pre v.pre v.post v.dev v.label
      have lead := leadPart_written proper.epoch numbers.1 numbers.2 suffix
      rw [parse?, pattern?, skip_text numbered, toList_text numbered, lead]
      simp only [if_neg suffix.ne_star]
      rw [← numbered, suffixes_written proper]
      rfl

theorem text_injective {a b : Version} (first : a.IsProper) (second : b.IsProper)
    (same : a.text = b.text) : a = b := by
  have read : parse? b.text.toList = some a := by rw [← same, parse?_text first]
  exact Option.some.inj (read.symm.trans (parse?_text second))

end

/-! ## What is read -/

section

variable {cs rest : List Char}

theorem plain_of_mem_splitJoints {word : List Char} (member : word ∈ splitJoints cs) :
    ∀ c ∈ word, c ∈ cs ∧ isJoint c = false := by
  induction cs generalizing word with
  | nil => simp_all [splitJoints]
  | cons d cs ih =>
      intro c inside
      unfold splitJoints at member
      split at member
      · rcases List.mem_cons.mp member with rfl | member
        · cases inside
        · obtain ⟨among, plain⟩ := ih member c inside
          exact ⟨List.mem_cons_of_mem d among, plain⟩
      · next joint =>
          split at member
          · next first others found =>
              rw [found] at ih
              rcases List.mem_cons.mp member with rfl | member
              · rcases List.mem_cons.mp inside with rfl | inside
                · exact ⟨List.mem_cons_self, by simpa using joint⟩
                · obtain ⟨among, plain⟩ := ih List.mem_cons_self c inside
                  exact ⟨List.mem_cons_of_mem d among, plain⟩
              · obtain ⟨among, plain⟩ := ih (List.mem_cons_of_mem first member) c inside
                exact ⟨List.mem_cons_of_mem d among, plain⟩
          · obtain rfl := List.mem_singleton.mp member
            obtain rfl := List.mem_singleton.mp inside
            exact ⟨List.mem_cons_self, by simpa using joint⟩

theorem not_digit_of_alpha {c : Char} (letter : c.isAlpha = true) : c.isDigit = false := by
  simp only [Char.isAlpha, Char.isUpper, Char.isLower, Char.isDigit, Bool.or_eq_true,
    Bool.and_eq_true, Bool.and_eq_false_iff, decide_eq_true_eq, decide_eq_false_iff_not,
    UInt32.le_iff_toNat_le, ge_iff_le] at letter ⊢
  grind

theorem alphanum_toLower {c : Char} (plain : c.isAlphanum = true) :
    c.toLower.isAlphanum = true := by
  by_cases upper : c.isUpper = true
  · have letter : c.isAlpha = true := by simp [Char.isAlpha, upper]
    simp [Char.isAlphanum, Char.isAlpha_toLower_eq_isAlpha, letter]
  · rw [Char.toLower_eq_of_not_isUpper upper]
    exact plain

theorem proper_labelWord {word : List Char} (filled : word ≠ [])
    (plain : ∀ c ∈ word, c.isAlphanum = true) : (labelWord word).IsProper := by
  cases read : word? word with
  | some n =>
      have number : labelWord word = .number n := by simp [labelWord, read]
      have written : (labelWord word).text.toList = digits n := by
        simp [number, LabelPart.text, Decimal.text]
      refine ⟨?_, ?_, ?_⟩
      · rw [written]
        exact digits_ne_nil n
      · rw [written]
        intro c member
        simp [Char.isAlphanum, isDigit_of_mem_digits n c member]
      · rw [written, number, labelWord, word?_digits (lt_of_word? read)]
  | none =>
      have lower : labelWord word = .word (String.ofList (word.map Char.toLower)) := by
        simp [labelWord, read]
      have written : (labelWord word).text.toList = word.map Char.toLower := by
        simp [lower, LabelPart.text]
      have unread : word? (word.map Char.toLower) = none := by
        by_cases digital : ∀ c ∈ word, c.isDigit = true
        · have same : word.map Char.toLower = word :=
            (List.map_congr_left fun c member => toLower_of_isDigit (digital c member)).trans
              (List.map_id _)
          rwa [same]
        · obtain ⟨c, member, other⟩ : ∃ c ∈ word, c.isDigit = false := by simpa using digital
          have letter : c.isAlpha = true := by simpa [Char.isAlphanum, other] using plain c member
          refine word?_eq_none_of_not_digit (List.mem_map_of_mem member) (not_digit_of_alpha ?_)
          rw [Char.isAlpha_toLower_eq_isAlpha, letter]
      refine ⟨?_, ?_, ?_⟩
      · rw [written]
        simpa using filled
      · rw [written]
        intro c member
        obtain ⟨d, inside, rfl⟩ := List.mem_map.mp member
        exact alphanum_toLower (plain d inside)
      · rw [written, lower, labelWord, unread]
        simp [Function.comp_def]

theorem proper_of_labelPart {label : List LabelPart} (read : labelPart cs = some (label, rest)) :
    ∀ part ∈ label, part.IsProper := by
  unfold labelPart at read
  split at read
  · next cs =>
      simp only at read
      split at read
      · cases read
      · next filled =>
          cases read
          intro part member
          obtain ⟨word, inside, rfl⟩ := List.mem_map.mp member
          refine proper_labelWord ?_ ?_
          · rintro rfl
            exact filled (List.any_eq_true.mpr ⟨[], inside, rfl⟩)
          · intro c among
            obtain ⟨taken, plain⟩ := plain_of_mem_splitJoints inside c among
            have allowed := List.mem_takeWhile_imp taken
            simpa [plain] using allowed
  · cases read
    nofun

theorem lt_of_releasePart {ns : List Nat} (read : releasePart cs = some (ns, rest)) :
    ∀ n ∈ ns, n < wordSize := by
  fun_induction releasePart cs generalizing ns rest with
  | case1 =>
      cases read
      nofun
  | case2 => cases read
  | case3 tail m number word ih =>
      obtain ⟨⟨ms, left⟩, further, same⟩ := Option.map_eq_some_iff.mp read
      cases same
      intro n member
      rcases List.mem_cons.mp member with rfl | member
      · exact lt_of_word? word
      · exact ih further n member
  | case4 =>
      cases read
      nofun

theorem lt_of_leadPart {epoch : Nat} {release : List Nat}
    (read : leadPart cs = some ((epoch, release), rest)) :
    epoch < wordSize ∧ release ≠ [] ∧ ∀ n ∈ release, n < wordSize := by
  have numbers {n : Nat} {ns : List Nat} {cs' tail left : List Char}
      (first : number? cs' = some (some n, tail)) (further : releasePart tail = some (ns, left)) :
      n :: ns ≠ [] ∧ ∀ m ∈ n :: ns, m < wordSize := by
    refine ⟨List.cons_ne_nil n ns, fun m member => ?_⟩
    rcases List.mem_cons.mp member with rfl | member
    · exact lt_of_number? first
    · exact lt_of_releasePart further m member
  unfold leadPart at read
  split at read
  · next leading =>
      split at read
      · next first =>
          obtain ⟨⟨ms, left⟩, further, same⟩ := Option.map_eq_some_iff.mp read
          cases same
          exact ⟨lt_of_number? leading, numbers first further⟩
      · cases read
  · next first =>
      obtain ⟨⟨ms, left⟩, further, same⟩ := Option.map_eq_some_iff.mp read
      cases same
      exact ⟨by decide, numbers first further⟩
  · cases read

theorem lt_of_postPart {n : Nat} (read : postPart cs = some (some n, rest)) : n < wordSize := by
  have named {cs rest : List Char} (read : postPart.named cs = some (some n, rest)) :
      n < wordSize := by
    obtain ⟨_, m, rfl, fits⟩ := exists_of_wordPart read
    exact fits
  unfold postPart at read
  split at read
  · split at read
    · cases read
    · next number =>
        cases read
        exact lt_of_number? number
    · exact named read
  · exact named read

theorem proper_of_suffixes {epoch : Nat} {release : List Nat} {v : Version}
    (epochFits : epoch < wordSize) (numbered : release ≠ [])
    (fits : ∀ n ∈ release, n < wordSize) (read : suffixes epoch release cs = some v) :
    v.IsProper := by
  simp only [suffixes, Option.bind_eq_bind, Option.bind_eq_some_iff, Prod.exists] at read
  obtain ⟨pre, _, preRead, post, _, postRead, dev, _, devRead, label, _, labelRead, whole⟩ := read
  split at whole
  · cases whole
    refine ⟨epochFits, numbered, fits, ?_, ?_, ?_, proper_of_labelPart labelRead⟩
    · rintro stage n rfl
      obtain ⟨_, m, same, fits⟩ := exists_of_wordPart preRead
      cases same
      exact fits
    · rintro n rfl
      exact lt_of_postPart postRead
    · rintro n rfl
      obtain ⟨_, m, rfl, fits⟩ := exists_of_wordPart devRead
      exact fits
  · cases whole

theorem proper_of_pattern? {pattern : VersionPattern} (read : pattern? cs = some pattern) :
    pattern.version.IsProper := by
  unfold pattern? at read
  split at read
  · cases read
  · next lead =>
      obtain ⟨epoch, numbered, fits⟩ := lt_of_leadPart lead
      split at read
      · cases read
        exact ⟨epoch, numbered, fits, nofun, nofun, nofun, nofun⟩
      · obtain ⟨v, suffixed, same⟩ := Option.map_eq_some_iff.mp read
        cases same
        exact proper_of_suffixes epoch numbered fits suffixed

theorem proper_of_parse? {v : Version} (read : parse? cs = some v) : v.IsProper := by
  obtain ⟨pattern, patterned, plain⟩ := Option.bind_eq_some_iff.mp read
  split at plain
  · cases plain
  · cases plain
    exact proper_of_pattern? patterned

end

end Version

end PinFloor
