import Mathlib
import PinFloor.Check
import PinFloor.Data.Decode
import PinFloor.Data.Encode
import PinFloor.Proofs.Matrix
import PinFloor.Proofs.Requirement.Names
import PinFloor.Proofs.Version.Canonical

/-! # Python versions and the checks on them

A Python version is read from two or three numbers joined by points, and its text reads as the
version. The release numbers that markers ask for are read from texts, too. That never fails for a
version that was read, so a check on such versions always has a report.
-/

namespace PinFloor

/-! ## Numbers as they are spelled -/

namespace Decimal

variable {ds part : List Char} {n : Nat}

/-- Digits that write a number of 64 bits. -/
structure WritesDigits (ds : List Char) (n : Nat) : Prop where
  filled : ds ≠ []
  digits : ∀ c ∈ ds, c.isDigit = true
  value : value ds = n
  fits : n < 2 ^ 64

/-- A number of 64 bits is written with digits. One plus sign may stand before them. -/
inductive WritesNumber : List Char → Nat → Prop where
  | plain {ds : List Char} {n : Nat} : WritesDigits ds n → WritesNumber ds n
  | signed {ds : List Char} {n : Nat} : WritesDigits ds n → WritesNumber ('+' :: ds) n

theorem wordSize_eq : wordSize = 2 ^ 64 := rfl

theorem word?_eq_some_iff : word? ds = some n ↔ WritesDigits ds n := by
  rw [word?, Option.filter_eq_some_iff, read?, decide_eq_true_iff, wordSize_eq]
  constructor
  · rintro ⟨read, fits⟩
    split at read
    · cases read
    · next digital =>
        rw [Bool.or_eq_true, not_or, List.isEmpty_iff, Bool.not_eq_true', Bool.not_eq_false,
          List.all_eq_true] at digital
        exact ⟨digital.1, digital.2, Option.some.inj read, fits⟩
  · rintro ⟨filled, digits, rfl, fits⟩
    refine ⟨?_, fits⟩
    rw [if_neg]
    simpa [filled] using digits

theorem WritesDigits.head? (writes : WritesDigits ds n) : ds.head? ≠ some '+' := by
  intro sign
  exact absurd (writes.digits '+' (List.mem_of_head? sign)) (by decide)

theorem signedWord?_eq_some_iff : signedWord? part = some n ↔ WritesNumber part n := by
  constructor
  · intro read
    unfold signedWord? at read
    split at read
    · exact .signed (word?_eq_some_iff.mp read)
    · exact .plain (word?_eq_some_iff.mp read)
  · rintro (writes | writes)
    · unfold signedWord?
      split
      · exact absurd rfl writes.head?
      · exact word?_eq_some_iff.mpr writes
    · exact word?_eq_some_iff.mpr writes

theorem WritesNumber.plain_chars (writes : WritesNumber part n) : ∀ c ∈ part, c ≠ '.' := by
  have digital {ds : List Char} (writes : WritesDigits ds n) : ∀ c ∈ ds, c ≠ '.' := by
    rintro c member rfl
    exact absurd (writes.digits '.' member) (by decide)
  cases writes with
  | plain writes => exact digital writes
  | signed writes =>
      intro c member
      rcases List.mem_cons.mp member with rfl | later
      · decide
      · exact digital writes c later

theorem WritesNumber.fits (writes : WritesNumber part n) : n < 2 ^ 64 := by
  cases writes with
  | plain writes | signed writes => exact writes.fits

theorem writesNumber_digits (fits : n < 2 ^ 64) : WritesNumber (digits n) n :=
  .plain ⟨digits_ne_nil n, isDigit_of_mem_digits n, value_digits n, fits⟩

end Decimal

theorem mapM_eq_some_iff {α β : Type} {f : α → Option β} {xs : List α} {ys : List β} :
    xs.mapM f = some ys ↔ List.Forall₂ (fun x y => f x = some y) xs ys := by
  induction xs generalizing ys with
  | nil => simp [eq_comm]
  | cons x xs ih =>
      rw [List.mapM_cons]
      cases ys <;> simp [Option.bind_eq_some_iff, ih]

namespace PythonVersion

open Decimal

variable {s : String} {v : PythonVersion} {parts : List (List Char)} {numbers : List Nat}

/-- A text writes a version: its numbers are joined by points, with blanks around. -/
def Writes (s : String) (v : PythonVersion) : Prop :=
  ∃ parts, trim s.toList = ['.'].intercalate parts ∧ List.Forall₂ WritesNumber parts v.numbers

/-- A version that is the result of reading a text. -/
def IsRead (v : PythonVersion) : Prop :=
  ∃ s, parse s = .ok v

theorem fits_of_written (written : List.Forall₂ WritesNumber parts numbers) :
    ∀ n ∈ numbers, n < 2 ^ 64 := by
  induction written with
  | nil => exact List.forall_mem_nil _
  | cons first _ ih => exact List.forall_mem_cons.mpr ⟨first.fits, ih⟩

theorem numbers_of_written (written : List.Forall₂ WritesNumber parts numbers) :
    ∀ part ∈ parts, ∃ n, WritesNumber part n := by
  induction written with
  | nil => exact List.forall_mem_nil _
  | cons first _ ih => exact List.forall_mem_cons.mpr ⟨⟨_, first⟩, ih⟩

theorem splitOn_of_written (written : List.Forall₂ WritesNumber parts numbers)
    (some : numbers ≠ []) : (['.'].intercalate parts).splitOn '.' = parts := by
  have plain := (List.forall₂_and_left _ _).mp
    (written.imp fun part n writes => ⟨writes.plain_chars, writes⟩)
  refine List.splitOn_intercalate '.' (fun part member inside => ?_) ?_
  · exact plain.1 part member '.' inside rfl
  · rintro rfl
    cases written
    exact some rfl

theorem parse_eq_ok_iff : parse s = .ok v ↔ Writes s v := by
  have read : ((trim s.toList).splitOn '.').mapM signedWord? = some v.numbers ↔ Writes s v := by
    simp only [mapM_eq_some_iff, signedWord?_eq_some_iff]
    constructor
    · intro written
      exact ⟨_, (List.intercalate_splitOn '.').symm, written⟩
    · rintro ⟨parts, whole, written⟩
      rwa [whole, splitOn_of_written written (by simp [numbers])]
  rw [← read, parse]
  obtain ⟨major, minor, patch⟩ := v
  cases patch <;> grind [numbers]

/-- The texts that write a version. -/
theorem exists_writes_iff : (∃ v, Writes s v) ↔ ∃ parts, trim s.toList = ['.'].intercalate parts ∧
    (parts.length = 2 ∨ parts.length = 3) ∧ ∀ part ∈ parts, ∃ n, WritesNumber part n := by
  constructor
  · rintro ⟨v, parts, whole, written⟩
    refine ⟨parts, whole, ?_, ?_⟩
    · rw [written.length_eq, numbers]
      cases v.patch <;> simp
    · exact numbers_of_written written
  · rintro ⟨parts, whole, two | three, written⟩
    · obtain ⟨a, b, rfl⟩ := List.length_eq_two.mp two
      obtain ⟨major, first⟩ := written a (by simp)
      obtain ⟨minor, second⟩ := written b (by simp)
      exact ⟨⟨major, minor, none⟩, _, whole, .cons first (.cons second .nil)⟩
    · obtain ⟨a, b, c, rfl⟩ := List.length_eq_three.mp three
      obtain ⟨major, first⟩ := written a (by simp)
      obtain ⟨minor, second⟩ := written b (by simp)
      obtain ⟨patch, third⟩ := written c (by simp)
      exact ⟨⟨major, minor, some patch⟩, _, whole, .cons first (.cons second (.cons third .nil))⟩

theorem parse_eq_error {e : EnvironmentError} (failed : parse s = .error e) :
    e = .invalidPythonVersion s := by
  rw [parse] at failed
  split at failed <;> cases failed
  rfl

theorem toList_releaseText (numbers : List Nat) : (Version.releaseText numbers).toList =
    ['.'].intercalate (numbers.map digits) := by
  have each : String.toList ∘ Decimal.text = digits := by
    funext n
    simp [Decimal.text]
  rw [Version.releaseText, String.toList_intercalate, List.map_map, each]
  rfl

theorem not_blank_releaseText (numbers : List Nat) :
    ∀ c ∈ (Version.releaseText numbers).toList, isBlank c = false := by
  cases numbers with
  | nil => exact List.forall_mem_nil _
  | cons n ns =>
      intro c member
      refine Requirement.not_blank_of_inName ?_
      rw [Version.toList_releaseText, Version.furtherChars, List.mem_append, List.mem_flatMap]
        at member
      have digital (n : Nat) (inside : c ∈ digits n) : Requirement.inName c = true := by
        simp [Requirement.inName, Char.isAlphanum, isDigit_of_mem_digits n c inside]
      rcases member with first | ⟨m, -, later⟩
      · exact digital n first
      · rcases List.mem_cons.mp later with rfl | later
        · decide
        · exact digital m later

theorem trim_of_not_blank {cs : List Char} (plain : ∀ c ∈ cs, isBlank c = false) :
    trim cs = cs := by
  have kept (cs : List Char) (plain : ∀ c ∈ cs, isBlank c = false) : cs.dropWhile isBlank = cs := by
    cases cs with
    | nil => rfl
    | cons c cs => simp [plain c List.mem_cons_self]
  have reversed := kept cs.reverse fun c member => plain c (List.mem_reverse.mp member)
  rw [trim, trimStart, kept cs plain, trimEnd, dropTailWhile, reversed, List.reverse_reverse]

theorem writes_text (fits : ∀ n ∈ v.numbers, n < 2 ^ 64) : Writes v.text v := by
  refine ⟨v.numbers.map digits, ?_, ?_⟩
  · rw [text, trim_of_not_blank (not_blank_releaseText _), toList_releaseText]
  · rw [List.forall₂_map_left_iff, List.forall₂_same]
    exact fun n member => writesNumber_digits (fits n member)

/-- The versions that can be read are those whose numbers have 64 bits. -/
theorem isRead_iff : v.IsRead ↔ ∀ n ∈ v.numbers, n < 2 ^ 64 := by
  constructor
  · rintro ⟨s, read⟩
    obtain ⟨parts, -, written⟩ := parse_eq_ok_iff.mp read
    exact fits_of_written written
  · intro fits
    exact ⟨v.text, parse_eq_ok_iff.mpr (writes_text fits)⟩

theorem parse_text (read : v.IsRead) : parse v.text = .ok v :=
  parse_eq_ok_iff.mpr (writes_text (isRead_iff.mp read))

theorem decode_encode (read : v.IsRead) :
    Decode.pythonVersion (Encode.pythonVersion v) = .ok v := by
  simp only [Encode.pythonVersion, Decode.pythonVersion, Decode.text, parse_text read]
  rfl

end PythonVersion

namespace TargetEnvironment

variable {e : TargetEnvironment} {numbers : List Nat}

theorem readRelease_eq (some : numbers ≠ []) (fits : ∀ n ∈ numbers, n < 2 ^ 64) :
    e.readRelease numbers = .ok numbers := by
  have proper : (Version.ofRelease numbers).IsProper :=
    { epoch := Nat.two_pow_pos 64, numbered := some, release := fits, pre := nofun, post := nofun
      dev := nofun, label := nofun }
  have text : (Version.ofRelease numbers).text = Version.releaseText numbers := by
    simp [Version.text, Version.ofRelease]
  rw [readRelease, ← text, Version.parse?_text proper]
  rfl

/-- The values of the variables are those that the numbers of the version give. -/
theorem readMarkers_eq (read : e.python.IsRead) : e.readMarkers = .ok e.markers := by
  have fits := PythonVersion.isRead_iff.mp read
  simp only [PythonVersion.numbers, List.forall_mem_cons] at fits
  obtain ⟨major, minor, patch⟩ := fits
  have last : e.python.patch.getD 0 < 2 ^ 64 := by
    cases given : e.python.patch with
    | none => exact Nat.two_pow_pos 64
    | some n => exact patch n (by simp [given])
  have full : e.readRelease e.python.full = .ok e.python.full := by
    refine readRelease_eq (List.cons_ne_nil _ _) ?_
    simp only [PythonVersion.full, List.forall_mem_cons]
    exact ⟨major, minor, last, List.forall_mem_nil _⟩
  have short : e.readRelease e.python.short = .ok e.python.short := by
    refine readRelease_eq (List.cons_ne_nil _ _) ?_
    simp only [PythonVersion.short, List.forall_mem_cons]
    exact ⟨major, minor, List.forall_mem_nil _⟩
  rw [readMarkers, full, short]
  rfl

theorem readActive_eq (read : e.python.IsRead) (m : Manifest) :
    m.readActive e = .ok (m.active e) := by
  rw [Manifest.readActive, readMarkers_eq read]
  rfl

end TargetEnvironment

namespace Check

variable {settings : CheckSettings} {m : Manifest}

theorem foldlM_eq_ok {α β ε : Type} {f : β → α → Except ε β} {g : β → α → β} {xs : List α}
    (each : ∀ b, ∀ x ∈ xs, f b x = .ok (g b x)) (b : β) : xs.foldlM f b = .ok (xs.foldl g b) := by
  induction xs generalizing b with
  | nil => rfl
  | cons x xs ih =>
      rw [List.foldlM_cons, each b x List.mem_cons_self, List.foldl_cons]
      exact ih (fun b x member => each b x (List.mem_cons_of_mem _ member)) _

theorem tryEnvironment_eq {e : TargetEnvironment} (read : e.python.IsRead) (fs : Findings) :
    tryEnvironment settings m fs e = .ok (addEnvironment settings m fs e) := by
  rw [tryEnvironment, TargetEnvironment.readActive_eq read]
  rfl

/-- A check on versions that were read has a report. -/
theorem attempt_eq_run (read : ∀ v ∈ settings.matrix.pythonVersions, v.IsRead) :
    attempt settings m = .ok (run settings m) := by
  have each : ∀ fs, ∀ e ∈ settings.matrix.environments,
      tryEnvironment settings m fs e = .ok (addEnvironment settings m fs e) := by
    intro fs e inside
    obtain ⟨v, member, among⟩ := List.mem_flatMap.mp inside
    obtain ⟨platform, -, rfl⟩ := List.mem_map.mp among
    exact tryEnvironment_eq (read v member) fs
  rw [attempt, foldlM_eq_ok each]
  rfl

/-- A text is read as a Python version if and only if it is, without the blanks around, two or three
    numbers of 64 bits joined by points; a number may have a plus sign. The text of a version that
    was read reads as the version, and so does what it is encoded as. In an environment of such a
    version the variables of markers have their values, so that there are always the entries that
    apply in it, and a check in a matrix of such versions always ends with its report. -/
theorem read_versions_checkable :
    (∀ s, ((∃ v, PythonVersion.parse s = .ok v) ↔
        ∃ parts, trim s.toList = ['.'].intercalate parts ∧ (parts.length = 2 ∨ parts.length = 3) ∧
          ∀ part ∈ parts, ∃ n, Decimal.WritesNumber part n) ∧
      (∀ v, PythonVersion.parse s = .ok v ↔ v.Writes s) ∧
      ∀ e, PythonVersion.parse s = .error e → e = .invalidPythonVersion s) ∧
    (∀ v : PythonVersion, v.IsRead →
      PythonVersion.parse v.text = .ok v ∧
      Decode.pythonVersion (Encode.pythonVersion v) = .ok v ∧
      ∀ platform, let e : TargetEnvironment := ⟨v, platform⟩
        e.readMarkers = .ok e.markers ∧ ∀ m : Manifest, m.readActive e = .ok (m.active e)) ∧
    ∀ versions platforms matrix, (∀ v ∈ versions, v.IsRead) →
      Matrix.make versions platforms = .ok matrix →
      ∀ settings m, settings.matrix = matrix → attempt settings m = .ok (run settings m) := by
  refine ⟨fun s => ⟨?_, fun v => PythonVersion.parse_eq_ok_iff, ?_⟩, fun v read => ?_, ?_⟩
  · simp only [PythonVersion.parse_eq_ok_iff]
    exact PythonVersion.exists_writes_iff
  · exact fun e failed => PythonVersion.parse_eq_error failed
  · exact ⟨PythonVersion.parse_text read, PythonVersion.decode_encode read, fun platform =>
      ⟨TargetEnvironment.readMarkers_eq read, TargetEnvironment.readActive_eq read⟩⟩
  · rintro versions platforms matrix read made settings m rfl
    refine attempt_eq_run fun v member => read v ?_
    rw [Matrix.eq_of_make made] at member
    exact List.mem_eraseDups.mp member

/-- A version with the greatest number of 64 bits, spelled with a plus sign and a leading zero. -/
theorem greatest_version_checkable :
    let v : PythonVersion := ⟨3, 18446744073709551615, none⟩
    let matrix : Matrix := ⟨[v], [.linux]⟩
    PythonVersion.parse " +03.18446744073709551615\n" = .ok v ∧
      PythonVersion.parse "3.18446744073709551615" = .ok v ∧
      Matrix.make [v, v] [.linux] = .ok matrix ∧
      attempt ⟨matrix, .standard, [], false⟩ .empty
        = .ok (run ⟨matrix, .standard, [], false⟩ .empty) := by
  intro v matrix
  have read : PythonVersion.parse " +03.18446744073709551615\n" = .ok v := by cbv
  have isRead : v.IsRead := ⟨_, read⟩
  have text : v.text = "3.18446744073709551615" := by cbv
  obtain ⟨-, each, checked⟩ := read_versions_checkable
  refine ⟨read, text ▸ (each v isRead).1, rfl, ?_⟩
  exact checked [v, v] [.linux] matrix (by simp [isRead]) rfl _ _ rfl

end Check

end PinFloor
