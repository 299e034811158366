import PinFloor.Proofs.PackageName
import PinFloor.Proofs.Text.Trimming
import PinFloor.Requirement.Parser

/-! # The name of a requirement

A requirement starts with the name of its package. Another spelling of this name makes the same
requirement, unless it stands alone and looks like the file name of an archive.
-/

namespace PinFloor.Requirement

open PackageName

variable {n t : List Char} {c : Char}

theorem inName_of_alphanum (letter : c.isAlphanum = true) : inName c = true := by
  simp [inName, letter]

theorem inName_of_isName (name : IsName n) (inside : c ∈ n) : inName c = true := by
  rcases name.chars c inside with separates | letter
  · simp only [isSeparator, Bool.or_eq_true, decide_eq_true_eq] at separates
    rcases separates with (rfl | rfl) | rfl <;> rfl
  · exact inName_of_alphanum letter

/-- The characters of names are visible ones of ASCII. -/
theorem bounds_of_inName (inside : inName c = true) : 0x20 < c.toNat ∧ c.toNat < 0x7F := by
  simp only [inName, Char.isAlphanum, Char.isAlpha, Char.isUpper, Char.isLower, Char.isDigit,
    Bool.or_eq_true, Bool.and_eq_true, decide_eq_true_eq, UInt32.le_iff_toNat_le, ge_iff_le]
    at inside
  rcases inside with ((((⟨low, high⟩ | ⟨low, high⟩) | ⟨low, high⟩) | rfl) | rfl) | rfl
  · exact ⟨Nat.lt_of_lt_of_le (by decide) low, Nat.lt_of_le_of_lt high (by decide)⟩
  · exact ⟨Nat.lt_of_lt_of_le (by decide) low, Nat.lt_of_le_of_lt high (by decide)⟩
  · exact ⟨Nat.lt_of_lt_of_le (by decide) low, Nat.lt_of_le_of_lt high (by decide)⟩
  all_goals decide

theorem not_blank_of_inName (inside : inName c = true) : isBlank c = false := by
  obtain ⟨low, high⟩ := bounds_of_inName inside
  have val : c.val.toNat = c.toNat := rfl
  simp only [isBlank, Bool.or_eq_false_iff, Bool.and_eq_false_iff, decide_eq_false_iff_not,
    UInt32.le_iff_toNat_le, ← UInt32.toNat_inj, val]
  simp only [UInt32.reduceToNat]
  omega

theorem ne_of_inName {d : Char} (inside : inName c = true) (other : inName d = false) : c ≠ d := by
  rintro rfl
  rw [inside] at other
  cases other

/-- What follows the name at the start of a text is no part of it. -/
def EndsName (t : List Char) : Prop :=
  ∀ c, t.head? = some c → inName c = false

theorem EndsName.of_prefix {s : List Char} (ends : EndsName t) (part : s <+: t) : EndsName s := by
  intro c first
  obtain ⟨more, rfl⟩ := part
  exact ends c (by rw [List.head?_append, first, Option.some_or])

theorem takeWhile_name (name : IsName n) (ends : EndsName t) : (n ++ t).takeWhile inName = n := by
  have all : ∀ c ∈ n, inName c = true := fun c inside => inName_of_isName name inside
  rw [List.takeWhile_append_of_pos all]
  cases t with
  | nil => simp
  | cons c t => simp [ends c rfl]

theorem dropWhile_name (name : IsName n) (ends : EndsName t) : (n ++ t).dropWhile inName = t := by
  have whole := List.takeWhile_append_dropWhile (p := inName) (l := n ++ t)
  rw [takeWhile_name name ends] at whole
  exact List.append_cancel_left whole

theorem trimStart_name (name : IsName n) (t : List Char) : trimStart (n ++ t) = n ++ t := by
  obtain ⟨c, first, letter⟩ := name.first
  obtain ⟨more, rfl⟩ := List.head?_eq_some_iff.mp first
  have plain := not_blank_of_inName (inName_of_alphanum letter)
  rw [trimStart, List.cons_append, List.dropWhile_cons_of_neg (by simp [plain])]

theorem name?_eq (name : IsName n) (ends : EndsName t) :
    name? (n ++ t) = some (⟨String.ofList (collapse n)⟩, t) := by
  have normal := normalize?_eq_some_iff.mpr ⟨name, rfl⟩
  rw [name?, takeWhile_name name ends, dropWhile_name name ends, PackageName.parse,
    String.toList_ofList, normal]

/-- A requirement is read from its name and from what follows the name. -/
theorem parse?_name (name : IsName n) (ends : EndsName t) : parse? (n ++ t) = (do
    let (extras, rest) ← extras? (trimStart t)
    let (source, rest) ← source? (trimStart rest)
    if source = .any ∧ looksLikeArchive n then none
    else
      let marker ← marker? rest
      some { name := ⟨String.ofList (collapse n)⟩, extras, source, marker }) := by
  rw [parse?, trimStart_name name, name?_eq name ends, takeWhile_name name ends]
  rfl

/-- A bare name that looks like an archive's file name is refused. Else all spellings of a name make
    the same requirement. -/
theorem parse?_respelled {n' : List Char} (same : SameName n n') (ends : EndsName t)
    {r : Requirement} (parsed : parse? (n ++ t) = some r) :
    parse? (n' ++ t) = if r.source = .any ∧ looksLikeArchive n' then none else some r := by
  rw [parse?_name same.left ends] at parsed
  rw [parse?_name same.right ends, ← same.collapse]
  simp only [bind, Option.bind_eq_some_iff] at parsed ⊢
  obtain ⟨⟨extras, afterExtras⟩, hasExtras, ⟨source, afterSource⟩, hasSource, made⟩ := parsed
  split at made
  · cases made
  · obtain ⟨marker, hasMarker, made⟩ := Option.bind_eq_some_iff.mp made
    cases made
    simp only [hasExtras, hasSource, hasMarker, Option.bind_some]

/-! ## The text around a name -/

theorem trim_name (name : IsName n) (line : List Char) : trim (n ++ line) = n ++ trimEnd line := by
  obtain ⟨c, last, letter⟩ := name.last
  rw [trim, trimStart_name name,
    trimEnd_append last (not_blank_of_inName (inName_of_alphanum letter))]

theorem EndsName.trimEnd (ends : EndsName t) : EndsName (trimEnd t) :=
  ends.of_prefix (isPrefix_trimEnd t)

/-- No `:` follows the name of a requirement. -/
theorem not_colon_of_parse? (name : IsName n) (ends : EndsName t) {r : Requirement}
    (parsed : parse? (n ++ trimEnd t) = some r) : t.head? ≠ some ':' := by
  intro colon
  obtain ⟨more, rfl⟩ := List.head?_eq_some_iff.mp colon
  have start : trimEnd (':' :: more) = ':' :: trimEnd more :=
    trimEnd_append (n := [':']) rfl rfl more
  rw [parse?_name name ends.trimEnd, start] at parsed
  cases parsed

theorem endsName_dropWhile (cs : List Char) : EndsName (cs.dropWhile inName) := by
  intro c first
  have stopped := List.head?_dropWhile_not inName cs
  rw [first] at stopped
  simpa using stopped

theorem isName_of_name? {cs rest : List Char} {name : PackageName}
    (named : name? cs = some (name, rest)) : IsName (cs.takeWhile inName) ∧
      name = ⟨String.ofList (collapse (cs.takeWhile inName))⟩ := by
  rw [name?, PackageName.parse, String.toList_ofList] at named
  cases normal : normalize? (cs.takeWhile inName) with
  | none => simp [normal] at named
  | some found =>
      obtain ⟨valid, rfl⟩ := normalize?_eq_some_iff.mp normal
      rw [normal] at named
      cases named
      exact ⟨valid, rfl⟩

/-- The text of a requirement starts with a name, which is that of the requirement. -/
theorem exists_name {cs : List Char} {r : Requirement} (parsed : parse? cs = some r) :
    ∃ n t, trimStart cs = n ++ t ∧ IsName n ∧ EndsName t ∧
      r.name = ⟨String.ofList (collapse n)⟩ := by
  simp only [parse?, bind, Option.bind_eq_some_iff] at parsed
  obtain ⟨⟨name, rest⟩, named, _, -, _, -, made⟩ := parsed
  obtain ⟨valid, rfl⟩ := isName_of_name? named
  refine ⟨_, _, List.takeWhile_append_dropWhile.symm, valid, endsName_dropWhile _, ?_⟩
  split at made
  · cases made
  · obtain ⟨marker, -, made⟩ := Option.bind_eq_some_iff.mp made
    cases made
    rfl

theorem EndsName.append_blanks (ends : EndsName t) {s : List Char}
    (blanks : ∀ c ∈ s, isBlank c = true) : EndsName (t ++ s) := by
  cases t with
  | nil =>
      intro c first
      refine Bool.eq_false_iff.mpr fun inside => ?_
      have blank := blanks c (List.mem_of_head? first)
      rw [not_blank_of_inName inside] at blank
      cases blank
  | cons c t => exact ends

/-- The line of a requirement starts with its name, if it does not start with a blank. -/
theorem exists_name_of_line {line : List Char} {r : Requirement} (inside : inName c = true)
    (parsed : parse? (trim (c :: line)) = some r) : ∃ n t, c :: line = n ++ t ∧ IsName n ∧
      EndsName t ∧ r.name = ⟨String.ofList (collapse n)⟩ := by
  have plain := not_blank_of_inName inside
  obtain ⟨n, t, whole, name, ends, named⟩ := exists_name parsed
  obtain ⟨blanks, same, onlyBlanks⟩ := exists_blanks line
  have start : trimStart (trim (c :: line)) = c :: PinFloor.trimEnd line := by
    have single := trimEnd_append (n := [c]) rfl plain line
    rw [List.singleton_append] at single
    simp [trim, trimStart, plain, single]
  refine ⟨n, t ++ blanks, ?_, name, ends.append_blanks onlyBlanks, named⟩
  calc
    c :: line = (c :: PinFloor.trimEnd line) ++ blanks := congrArg (c :: ·) same
    _ = (n ++ t) ++ blanks := by rw [← start, whole]
    _ = n ++ (t ++ blanks) := List.append_assoc n t blanks

end PinFloor.Requirement
