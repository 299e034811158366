import PinFloor.Requirement.Parser
import PinFloor.RequirementsFile.Statement
import PinFloor.Text.Search

/-!
# Scanning a requirements file

The parts of statements, read from the start of a text. A part that is read leaves the rest of the
text; one that is refused leaves the text at which it is refused. A backslash before a line end
joins two lines. A `#` starts a comment at the start of a line or after a blank.
-/

namespace PinFloor.Scanner

/-- Why and where the rest of a text is refused. -/
inductive Refusal where
  /-- The statement has the wrong form at this rest of the text. -/
  | malformed (error : SyntaxError) (rest : List Char)
  /-- There is no option of this name. -/
  | unsupportedOption (name : String) (rest : List Char)
  /-- The statement that starts at this rest is no requirement. -/
  | invalidRequirement (rest : List Char)
  deriving Repr

/-- What is read at the start of a text, and the rest of it. -/
abbrev Scan (α : Type) := Except Refusal (α × List Char)

/-- A space or a tab. -/
def isGap (c : Char) : Bool :=
  c = ' ' || c = '\t'

/-- A character that is part of a line end. -/
def isBreak (c : Char) : Bool :=
  c = '\n' || c = '\r'

/-- Skips spaces, tabs and line ends after a backslash. -/
def skipGap : List Char → List Char
  | '\\' :: '\n' :: rest => skipGap rest
  | '\\' :: '\r' :: '\n' :: rest => skipGap rest
  | '\\' :: '\r' :: rest => skipGap rest
  | ' ' :: rest => skipGap rest
  | '\t' :: rest => skipGap rest
  | cs => cs

/-- Skips one line end, if the text starts with one. -/
def skipBreak : List Char → List Char
  | '\r' :: '\n' :: rest => rest
  | '\r' :: rest => rest
  | '\n' :: rest => rest
  | cs => cs

/-- Skips the rest of a line with its end. -/
def skipLine (cs : List Char) : List Char :=
  skipBreak (cs.dropWhile (!isBreak ·))

theorem length_skipGap_le (cs : List Char) : (skipGap cs).length ≤ cs.length := by
  fun_induction skipGap cs with
  | case6 cs => exact Nat.le_refl _
  | case1 | case2 | case3 | case4 | case5 => simp only [List.length_cons]; omega

theorem length_skipBreak_le (cs : List Char) : (skipBreak cs).length ≤ cs.length := by
  fun_cases skipBreak cs with
  | case4 cs => exact Nat.le_refl _
  | case1 | case2 | case3 => simp only [List.length_cons]; omega

theorem length_dropWhile_le (p : Char → Bool) (cs : List Char) :
    (cs.dropWhile p).length ≤ cs.length :=
  (List.dropWhile_suffix p).length_le

theorem length_skipLine_le (cs : List Char) : (skipLine cs).length ≤ cs.length :=
  Nat.le_trans (length_skipBreak_le _) (length_dropWhile_le _ cs)

/-- Skips blanks, comments and empty lines before a statement. -/
def skipTrivia (cs : List Char) : List Char :=
  match _h : skipGap cs with
  | '#' :: rest => skipTrivia (skipLine rest)
  | '\n' :: rest => skipTrivia rest
  | '\r' :: '\n' :: rest => skipTrivia rest
  | '\r' :: rest => skipTrivia rest
  | rest => rest
termination_by cs.length
decreasing_by
  all_goals
    have hle := length_skipGap_le cs
    rw [_h] at hle
    simp only [List.length_cons] at hle
  · have := length_skipLine_le rest
    omega
  all_goals omega

/-- Reads the end of a statement's line, with blanks and a comment before it. -/
def endLine (cs : List Char) : Scan Unit :=
  match cs.dropWhile isGap with
  | [] => .ok ((), [])
  | '#' :: rest => .ok ((), skipLine rest)
  | '\r' :: '\n' :: rest => .ok ((), rest)
  | '\r' :: rest => .ok ((), rest)
  | '\n' :: rest => .ok ((), rest)
  | c :: rest => .error (.malformed (.trailing c) (c :: rest))

/-- A value, unless it is empty. -/
def finishValue (value rest : List Char) : Scan String :=
  match trimEnd value with
  | [] => .error (.malformed .missingValue rest)
  | value => .ok (String.ofList value, rest)

/-- Reads the value of an option after its key: after `=`, or after blanks. The value goes on as
    long as its characters satisfy `p`. -/
def value (p : Char → Bool) (cs : List Char) : Scan String :=
  match cs with
  | '=' :: rest => finishValue (rest.takeWhile p) (rest.dropWhile p)
  | ' ' :: _ | '\t' :: _ =>
      let rest := cs.dropWhile isGap
      finishValue (rest.takeWhile p) (rest.dropWhile p)
  | _ => .error (.malformed (.missingSeparator cs.head?) cs)

theorem length_le_of_endLine {cs rest : List Char} {u : Unit}
    (h : endLine cs = .ok (u, rest)) : rest.length ≤ cs.length := by
  have hle := length_dropWhile_le isGap cs
  unfold endLine at h
  split at h
  all_goals
    rename_i heq
    rw [heq] at hle
    simp only [Except.ok.injEq, Prod.mk.injEq, reduceCtorEq] at h
  case h_2 more =>
    have := length_skipLine_le more
    simp only [← h.2, List.length_cons] at hle ⊢
    omega
  all_goals
    simp only [← h.2, List.length_cons, List.length_nil] at hle ⊢
    omega

theorem rest_of_finishValue {v cs rest : List Char} {s : String}
    (h : finishValue v cs = .ok (s, rest)) : rest = cs := by
  unfold finishValue at h
  split at h <;> simp_all

theorem length_le_of_value {p : Char → Bool} {cs rest : List Char} {s : String}
    (h : value p cs = .ok (s, rest)) : rest.length ≤ cs.length := by
  unfold value at h
  split at h
  · rename_i tail
    have := length_dropWhile_le p tail
    simp only [rest_of_finishValue h, List.length_cons]
    omega
  · simp only [rest_of_finishValue h]
    exact Nat.le_trans (length_dropWhile_le _ _) (length_dropWhile_le _ _)
  · simp only [rest_of_finishValue h]
    exact Nat.le_trans (length_dropWhile_le _ _) (length_dropWhile_le _ _)
  · cases h

/-- What a statement's text is followed by. -/
inductive Ending where
  /-- The end of its line. -/
  | line
  /-- Options that start with `--`. -/
  | options
  deriving Repr, DecidableEq

/-- What is left after blanks and joined line ends, if the text starts with any. -/
def afterGap? (cs : List Char) : Option (List Char) :=
  if (skipGap cs).length < cs.length then some (skipGap cs) else none

theorem length_lt_of_afterGap? {cs rest : List Char} (h : afterGap? cs = some rest) :
    rest.length < cs.length := by
  unfold afterGap? at h
  split at h
  · simp_all
  · cases h

/-- Splits a text after the statement that it starts with: at the end of the line, before a comment,
    or before options that start with `--` after a blank. -/
def splitStatement (cs : List Char) : List Char × Ending × List Char :=
  match cs with
  | [] => ([], .line, [])
  | '\n' :: rest => ([], .line, rest)
  | '\r' :: '\n' :: rest => ([], .line, rest)
  | '\r' :: rest => ([], .line, rest)
  | c :: rest =>
      match _h : afterGap? (c :: rest) with
      | none =>
          let (text, ending, left) := splitStatement rest
          (c :: text, ending, left)
      | some ('-' :: '-' :: more) => ([], .options, '-' :: '-' :: more)
      | some ('#' :: more) => ([], .line, skipLine more)
      | some after =>
          let (text, ending, left) := splitStatement after
          ((c :: rest).take ((c :: rest).length - after.length) ++ text, ending, left)
termination_by cs.length
decreasing_by
  · simp only [List.length_cons]; omega
  · exact length_lt_of_afterGap? _h

theorem length_splitStatement_le (cs : List Char) :
    (splitStatement cs).2.2.length ≤ cs.length := by
  fun_induction splitStatement cs with
  | case1 => exact Nat.le_refl _
  | case2 | case3 | case4 => simp only [List.length_cons]; omega
  | case5 c rest _ _ _ _ text ending left heq ih =>
    simp only [heq] at ih
    simp only [List.length_cons]
    omega
  | case6 c rest _ _ _ more h =>
    exact Nat.le_of_lt (length_lt_of_afterGap? h)
  | case7 c rest _ _ _ more h =>
    have := length_lt_of_afterGap? h
    have := length_skipLine_le more
    simp only [List.length_cons] at *
    omega
  | case8 c rest _ _ _ after _ _ h text ending left heq ih =>
    have := length_lt_of_afterGap? h
    simp only [heq] at ih
    simp only [List.length_cons] at *
    omega

theorem length_splitStatement_lt {cs : List Char} (hne : cs ≠ []) :
    (splitStatement cs).2.2.length < cs.length := by
  fun_cases splitStatement cs with
  | case1 => exact absurd rfl hne
  | case2 | case3 | case4 => simp only [List.length_cons]; omega
  | case5 c rest _ _ _ _ text ending left heq =>
    have := length_splitStatement_le rest
    simp only [heq] at this
    simp only [List.length_cons]
    omega
  | case6 c rest _ _ _ more h => exact length_lt_of_afterGap? h
  | case7 c rest _ _ _ more h =>
    have := length_lt_of_afterGap? h
    have := length_skipLine_le more
    simp only [List.length_cons] at *
    omega
  | case8 c rest _ _ _ after _ _ h text ending left heq =>
    have := length_lt_of_afterGap? h
    have := length_splitStatement_le after
    simp only [heq] at this
    simp only [List.length_cons] at *
    omega

/-- Removes each `\` before `\r\n`, with the line end. -/
def joinCrLf : List Char → List Char
  | '\\' :: '\r' :: '\n' :: rest => joinCrLf rest
  | c :: rest => c :: joinCrLf rest
  | [] => []

/-- Removes each `\` before `\n`, with the line end. -/
def joinLf : List Char → List Char
  | '\\' :: '\n' :: rest => joinLf rest
  | c :: rest => c :: joinLf rest
  | [] => []

/-- Removes each `\` before `\r`, with the line end. -/
def joinCr : List Char → List Char
  | '\\' :: '\r' :: rest => joinCr rest
  | c :: rest => c :: joinCr rest
  | [] => []

/-- The text of a statement with its lines joined, without the blanks around. -/
def joinLines (text : List Char) : List Char :=
  trim (joinCr (joinLf (joinCrLf text)))

/-- Whether a text starts with a path or URL without a package name. A URL after `@` belongs to the
    name before it. -/
def isUnnamed (cs : List Char) : Bool :=
  let token := cs.takeWhile fun c => !isBlank c && c ≠ ';'
  (match token with
    | c :: _ => c = '.' || c = '/' || c = '~' || c = '\\'
    | [] => false)
    || "file:".toList.isPrefixOf token
    || occursIn "://".toList (token.takeWhile (· ≠ '@'))

/-- The word that introduces a hash. -/
def hashWord : List Char := "--hash".toList

/-- Reads the hashes after the first one. -/
def moreHashes (cs : List Char) : Scan (List String) :=
  let start := skipGap cs
  if hashWord.isPrefixOf start then
    match _h : value (!isBlank ·) (start.drop hashWord.length) with
    | .error refusal => .error refusal
    | .ok (hash, rest) =>
        match moreHashes rest with
        | .error refusal => .error refusal
        | .ok (hashes, rest) => .ok (hash :: hashes, rest)
  else .ok ([], start)
termination_by cs.length
decreasing_by
  have hle : start.length ≤ cs.length := length_skipGap_le cs
  have hval := length_le_of_value _h
  have hword := (List.isPrefixOf_iff_prefix.1 ‹_›).length_le
  simp only [List.length_drop, show hashWord.length = 6 from rfl] at hval hword
  omega

theorem length_le_of_moreHashes {cs rest : List Char} {hs : List String}
    (h : moreHashes cs = .ok (hs, rest)) : rest.length ≤ cs.length := by
  fun_induction moreHashes cs generalizing hs rest with
  | case1 | case2 => cases h
  | case3 cs start hpre hash next hvalue hashes left heq =>
    rename_i ih
    simp only [Except.ok.injEq, Prod.mk.injEq] at h
    have hle : start.length ≤ cs.length := length_skipGap_le cs
    have hval := length_le_of_value hvalue
    have := ih heq
    simp only [List.length_drop] at hval
    simp only [← h.2]
    omega
  | case4 cs start =>
    simp only [Except.ok.injEq, Prod.mk.injEq] at h
    exact h.2 ▸ length_skipGap_le cs

/-- Reads hashes, of which there is at least one, and the end of the line. -/
def hashes (cs : List Char) : Scan (List String) :=
  if !hashWord.isPrefixOf cs then
    .error (.malformed (.expectedHash (String.ofList (cs.takeWhile (!isBlank ·))))
      (cs.dropWhile (!isBlank ·)))
  else
    match moreHashes cs with
    | .error refusal => .error refusal
    | .ok (hashes, rest) => (endLine rest).map fun ((), rest) => (hashes, rest)

/-- Reads the hashes that follow a statement, if any do. -/
def trailingHashes : Ending → List Char → Scan (List String)
  | .line, rest => .ok ([], rest)
  | .options, rest => hashes rest

/-- Reads a value and the end of its line. -/
def lineValue (p : Char → Bool) (cs : List Char) : Scan String :=
  match value p cs with
  | .error refusal => .error refusal
  | .ok (value, rest) => (endLine rest).map fun ((), rest) => (value, rest)

/-- A character of the name of an included file. -/
def inFileName (c : Char) : Bool :=
  !isBreak c && c ≠ '#'

/-- Reads a statement that starts with an option. -/
def option (cs : List Char) : Scan Statement :=
  let inName := fun c : Char => !isBlank c && c ≠ '='
  let name := String.ofList (cs.takeWhile inName)
  let rest := cs.dropWhile inName
  match name with
  | "-r" | "--requirement" =>
      (lineValue inFileName rest).map fun (file, rest) => (.include .requirements ⟨file⟩, rest)
  | "-c" | "--constraint" =>
      (lineValue inFileName rest).map fun (file, rest) => (.include .constraints ⟨file⟩, rest)
  | "-e" | "--editable" =>
      (lineValue (!isBlank ·) rest).map fun (target, rest) => (.editable target, rest)
  | name =>
      match ValueOption.ofName? name, FlagOption.ofName? name with
      | some option, _ =>
          (lineValue (!isBlank ·) rest).map fun (value, rest) =>
            (.option (.setting option value), rest)
      | none, some flag => (endLine rest).map fun ((), rest) => (.option (.flag flag), rest)
      | none, none => .error (.unsupportedOption name rest)

/-- Reads a path or URL without a package name. Its hashes are not recorded. -/
def unnamed (cs : List Char) : Scan Statement :=
  let (text, ending, rest) := splitStatement cs
  (trailingHashes ending rest).map fun (_, rest) =>
    (.unnamed (String.ofList (joinLines text)), rest)

/-- Reads a named requirement. -/
def requirement (cs : List Char) : Scan Statement :=
  let (text, ending, rest) := splitStatement cs
  match Requirement.parse? (joinLines text) with
  | none => .error (.invalidRequirement cs)
  | some requirement =>
      (trailingHashes ending rest).map fun (hashes, rest) =>
        (.requirement requirement hashes, rest)

/-- Reads the statement that a text starts with. At the end of the text there is none. -/
def statement? (cs : List Char) : Option (Scan Statement) :=
  match cs with
  | [] => none
  | c :: _ =>
      if c = '-' then some (option cs)
      else if isUnnamed cs then some (unnamed cs)
      else if c.isAlphanum then some (requirement cs)
      else some (.error (.malformed (.unexpectedStart c) cs))

/-- What a successful `map` was applied to. -/
theorem exists_of_map_eq_ok {α β : Type} {f : α × List Char → β × List Char} {scan : Scan α}
    {r : β × List Char} (h : scan.map f = .ok r) : ∃ a, scan = .ok a ∧ f a = r := by
  cases scan with
  | error => cases h
  | ok a => exact ⟨a, rfl, Except.ok.inj h⟩

theorem length_le_of_lineValue {p : Char → Bool} {cs rest : List Char} {s : String}
    (h : lineValue p cs = .ok (s, rest)) : rest.length ≤ cs.length := by
  unfold lineValue at h
  split at h
  · cases h
  · rename_i hvalue
    obtain ⟨⟨_, next⟩, hend, heq⟩ := exists_of_map_eq_ok h
    simp only [Prod.mk.injEq] at heq
    exact heq.2 ▸ Nat.le_trans (length_le_of_endLine hend) (length_le_of_value hvalue)

theorem length_le_of_trailingHashes {ending : Ending} {cs rest : List Char} {hs : List String}
    (h : trailingHashes ending cs = .ok (hs, rest)) : rest.length ≤ cs.length := by
  cases ending with
  | line =>
    simp only [trailingHashes, Except.ok.injEq, Prod.mk.injEq] at h
    exact Nat.le_of_eq (congrArg _ h.2.symm)
  | options =>
    simp only [trailingHashes, hashes] at h
    split at h
    · cases h
    · split at h
      · cases h
      · rename_i hmore
        obtain ⟨⟨_, next⟩, hend, heq⟩ := exists_of_map_eq_ok h
        simp only [Prod.mk.injEq] at heq
        exact heq.2 ▸ Nat.le_trans (length_le_of_endLine hend) (length_le_of_moreHashes hmore)

theorem length_lt_of_option {cs rest : List Char} {st : Statement}
    (h : option ('-' :: cs) = .ok (st, rest)) : rest.length < ('-' :: cs).length := by
  have hle : (('-' :: cs).dropWhile fun c : Char => !isBlank c && c ≠ '=').length ≤ cs.length := by
    have hdrop : (('-' :: cs).dropWhile fun c : Char => !isBlank c && c ≠ '=')
        = cs.dropWhile fun c : Char => !isBlank c && c ≠ '=' := rfl
    exact hdrop ▸ length_dropWhile_le _ cs
  simp only [option] at h
  simp only [List.length_cons]
  refine Nat.lt_succ_of_le (Nat.le_trans ?_ hle)
  split at h
  case h_7 =>
    split at h
    · obtain ⟨⟨_, next⟩, hscan, heq⟩ := exists_of_map_eq_ok h
      simp only [Prod.mk.injEq] at heq
      exact heq.2 ▸ length_le_of_lineValue hscan
    · obtain ⟨⟨_, next⟩, hscan, heq⟩ := exists_of_map_eq_ok h
      simp only [Prod.mk.injEq] at heq
      exact heq.2 ▸ length_le_of_endLine hscan
    · cases h
  all_goals
    obtain ⟨⟨_, next⟩, hscan, heq⟩ := exists_of_map_eq_ok h
    simp only [Prod.mk.injEq] at heq
    exact heq.2 ▸ length_le_of_lineValue hscan

theorem length_lt_of_unnamed {cs rest : List Char} {st : Statement} (hne : cs ≠ [])
    (h : unnamed cs = .ok (st, rest)) : rest.length < cs.length := by
  obtain ⟨⟨_, next⟩, hscan, heq⟩ := exists_of_map_eq_ok h
  simp only [Prod.mk.injEq] at heq
  exact heq.2 ▸
    Nat.lt_of_le_of_lt (length_le_of_trailingHashes hscan) (length_splitStatement_lt hne)

theorem length_lt_of_requirement {cs rest : List Char} {st : Statement} (hne : cs ≠ [])
    (h : requirement cs = .ok (st, rest)) : rest.length < cs.length := by
  simp only [requirement] at h
  split at h
  · cases h
  · obtain ⟨⟨_, next⟩, hscan, heq⟩ := exists_of_map_eq_ok h
    simp only [Prod.mk.injEq] at heq
    exact heq.2 ▸
      Nat.lt_of_le_of_lt (length_le_of_trailingHashes hscan) (length_splitStatement_lt hne)

/-- A statement is never empty. -/
theorem length_lt_of_statement? {cs rest : List Char} {st : Statement}
    (h : statement? cs = some (.ok (st, rest))) : rest.length < cs.length := by
  unfold statement? at h
  split at h
  · cases h
  · rename_i c cs
    split at h
    · rename_i hc
      subst hc
      exact length_lt_of_option (Option.some.inj h)
    · split at h
      · exact length_lt_of_unnamed (List.cons_ne_nil _ _) (Option.some.inj h)
      · split at h
        · exact length_lt_of_requirement (List.cons_ne_nil _ _) (Option.some.inj h)
        · simp only [Option.some.injEq, reduceCtorEq] at h

theorem length_skipTrivia_le (cs : List Char) : (skipTrivia cs).length ≤ cs.length := by
  fun_induction skipTrivia cs with
  | case1 cs rest heq ih =>
    have := length_skipGap_le cs
    have := length_skipLine_le rest
    simp only [heq, List.length_cons] at *
    omega
  | case2 cs rest heq ih | case3 cs rest heq ih | case4 cs rest _ heq ih =>
    have := length_skipGap_le cs
    simp only [heq, List.length_cons] at *
    omega
  | case5 cs => exact length_skipGap_le cs

end PinFloor.Scanner
