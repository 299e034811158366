import PinFloor.Proofs.Text.Lines
import Mathlib.Data.List.Chain

/-! # Texts without comments

A comment starts at the start of a line, or behind a blank. Texts of one line in which none starts
can be cut into parts and put together again, as long as no `#` comes to stand behind a blank.
-/

namespace PinFloor

open Scanner

/-- A text of one line in which no comment starts behind a blank. -/
structure Uncommented (t : List Char) : Prop where
  oneLine : ∀ c ∈ t, isBreak c = false
  apart : t.IsChain fun c d => isGap c = true → d ≠ '#'

/-- A text of one line in which no comment starts, whatever stands before it. -/
structure Quiet (t : List Char) : Prop extends Uncommented t where
  start : t.head? ≠ some '#'

/-- A text without blanks and line ends. Other white space is part of a word here. -/
def Solid (t : List Char) : Prop :=
  ∀ c ∈ t, isGap c = false ∧ isBreak c = false

/-- A text without `#` and line ends. -/
def Plain (t : List Char) : Prop :=
  ∀ c ∈ t, isBreak c = false ∧ c ≠ '#'

variable {s t : List Char} {c : Char} {parts : List (List Char)}

/-- What holds of no blank and of no line end holds of other characters only. -/
theorem solid_of {p : Char → Bool}
    (others : p ' ' = false ∧ p '\t' = false ∧ p '\n' = false ∧ p '\r' = false)
    (holds : p c = true) : isGap c = false ∧ isBreak c = false := by
  obtain ⟨space, tab, newline, ret⟩ := others
  have other {d : Char} (fails : p d = false) : c ≠ d := by
    rintro rfl
    rw [fails] at holds
    cases holds
  simp only [isGap, isBreak, Bool.or_eq_false_iff, decide_eq_false_iff_not]
  exact ⟨⟨other space, other tab⟩, other newline, other ret⟩

theorem forall_mem_intercalate {P : Char → Prop} (sep : ∀ c ∈ s, P c)
    (each : ∀ part ∈ parts, ∀ c ∈ part, P c) : ∀ c ∈ s.intercalate parts, P c := by
  induction parts with
  | nil => nofun
  | cons part parts ih =>
      obtain ⟨first, others⟩ := List.forall_mem_cons.mp each
      cases parts with
      | nil => rwa [List.intercalate_singleton]
      | cons next parts =>
          rw [List.intercalate_cons_cons]
          exact List.forall_mem_append.mpr ⟨List.forall_mem_append.mpr ⟨first, sep⟩, ih others⟩

namespace Uncommented

theorem nil : Uncommented [] :=
  ⟨nofun, .nil⟩

theorem of_isInfix (text : Uncommented t) (part : s <:+: t) : Uncommented s :=
  ⟨fun c inside => text.oneLine c (part.subset inside), text.apart.infix part⟩

theorem dropWhile (text : Uncommented t) (p : Char → Bool) : Uncommented (t.dropWhile p) :=
  text.of_isInfix (List.dropWhile_suffix p).isInfix

theorem tail (text : Uncommented (c :: t)) : Uncommented t :=
  text.of_isInfix (List.suffix_cons c t).isInfix

theorem head_ne (text : Uncommented (c :: t)) (gap : isGap c = true) : t.head? ≠ some '#' :=
  fun hash => (List.isChain_cons.mp text.apart).1 '#' hash gap rfl

theorem append (first : Uncommented s) (second : Uncommented t)
    (apart : ∀ c, s.getLast? = some c → isGap c = true → t.head? ≠ some '#') :
    Uncommented (s ++ t) where
  oneLine := List.forall_mem_append.mpr ⟨first.oneLine, second.oneLine⟩
  apart := first.apart.append second.apart fun c last _ head gap same =>
    apart c last gap (same ▸ head)

theorem append_quiet (first : Uncommented s) (second : Quiet t) : Uncommented (s ++ t) :=
  first.append second.toUncommented fun _ _ _ => second.start

theorem cons (plain : isBreak c = false) (text : Uncommented t)
    (apart : isGap c = true → t.head? ≠ some '#') : Uncommented (c :: t) where
  oneLine := List.forall_mem_cons.mpr ⟨plain, text.oneLine⟩
  apart := text.apart.cons fun _ head gap same => apart gap (same ▸ head)

theorem cons_visible (gap : isGap c = false) (plain : isBreak c = false) (text : Uncommented t) :
    Uncommented (c :: t) :=
  .cons plain text fun blank => absurd blank (by simp [gap])

/-- Where blanks are left out, no other blank comes to stand before a comment. -/
theorem filter {p : Char → Bool} (text : Uncommented t) (kept : ∀ c ∈ t, p c = false → isGap c = true) :
    Uncommented (t.filter p) := by
  have start {c : Char} {t : List Char} (text : Uncommented (c :: t)) (gap : isGap c = true)
      (kept : ∀ c ∈ t, p c = false → isGap c = true) : (t.filter p).head? ≠ some '#' := by
    induction t generalizing c with
    | nil => nofun
    | cons d t ih =>
        obtain ⟨first, others⟩ := List.forall_mem_cons.mp kept
        cases inside : p d with
        | true =>
            rw [List.filter_cons_of_pos inside]
            exact text.head_ne gap
        | false =>
            rw [List.filter_cons_of_neg (by simp [inside])]
            exact ih text.tail (first inside) others
  induction t with
  | nil => exact .nil
  | cons c t ih =>
      obtain ⟨-, others⟩ := List.forall_mem_cons.mp kept
      rw [List.filter_cons]
      split
      · exact .cons (text.oneLine c List.mem_cons_self) (ih text.tail others)
          fun gap => start text gap others
      · exact ih text.tail others

end Uncommented

namespace Solid

theorem nil : Solid [] :=
  List.forall_mem_nil _

theorem append (first : Solid s) (second : Solid t) : Solid (s ++ t) :=
  List.forall_mem_append.mpr ⟨first, second⟩

theorem cons (gap : isGap c = false) (plain : isBreak c = false) (text : Solid t) : Solid (c :: t) :=
  List.forall_mem_cons.mpr ⟨⟨gap, plain⟩, text⟩

theorem append_uncommented (first : Solid s) (second : Uncommented t) : Uncommented (s ++ t) := by
  induction s with
  | nil => exact second
  | cons c s ih =>
      obtain ⟨⟨gap, plain⟩, others⟩ := List.forall_mem_cons.mp first
      exact .cons_visible gap plain (ih others)

theorem uncommented (text : Solid t) : Uncommented t :=
  t.append_nil ▸ text.append_uncommented .nil

end Solid

namespace Plain

/-- What holds of no line end and not of `#` holds of the characters of plain texts. -/
theorem of_class {p : Char → Bool} (others : p '\n' = false ∧ p '\r' = false ∧ p '#' = false)
    (holds : ∀ c ∈ t, p c = true) : Plain t := by
  intro c inside
  have other {d : Char} (fails : p d = false) : c ≠ d := by
    rintro rfl
    rw [holds c inside] at fails
    cases fails
  simp only [isBreak, Bool.or_eq_false_iff, decide_eq_false_iff_not]
  exact ⟨⟨other others.1, other others.2.1⟩, other others.2.2⟩

theorem append (first : Plain s) (second : Plain t) : Plain (s ++ t) :=
  List.forall_mem_append.mpr ⟨first, second⟩

end Plain

namespace Quiet

theorem nil : Quiet [] :=
  ⟨.nil, nofun⟩

theorem cons (plain : isBreak c = false) (other : c ≠ '#') (text : Quiet t) : Quiet (c :: t) :=
  ⟨.cons plain text.toUncommented fun _ => text.start, fun hash => other (Option.some.inj hash)⟩

theorem of_plain (plain : Plain t) : Quiet t := by
  induction t with
  | nil => exact .nil
  | cons c t ih =>
      obtain ⟨⟨plain, other⟩, others⟩ := List.forall_mem_cons.mp plain
      exact .cons plain other (ih others)

theorem append (first : Quiet s) (second : Quiet t) : Quiet (s ++ t) where
  toUncommented := first.append_quiet second
  start := by
    cases s with
    | nil => exact second.start
    | cons c s => exact first.start

theorem intercalate (sep : Quiet s) (quiet : ∀ part ∈ parts, Quiet part) :
    Quiet (s.intercalate parts) := by
  induction parts with
  | nil => exact .nil
  | cons part parts ih =>
      obtain ⟨first, others⟩ := List.forall_mem_cons.mp quiet
      cases parts with
      | nil => rwa [List.intercalate_singleton]
      | cons next parts =>
          rw [List.intercalate_cons_cons]
          exact (first.append sep).append (ih others)

/-- Behind a character that is no blank a text may start with a `#`. -/
theorem of_word (gap : isGap c = false) (plain : isBreak c = false) (other : c ≠ '#')
    (text : Uncommented t) : Quiet (c :: t) where
  toUncommented := .cons_visible gap plain text
  start hash := other (Option.some.inj hash)

theorem quoted (text : Uncommented t) : Quiet ('\'' :: (t ++ ['\''])) :=
  .of_word rfl rfl (by decide) (text.append_quiet (.of_plain (by simp [Plain, isBreak])))

end Quiet

end PinFloor
