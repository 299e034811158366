import Mathlib.Data.List.TakeWhile
import PinFloor.Text.Blank

/-! # Trimming

What is dropped from the end of a text are blanks, and what is kept ends in something else. So blanks
that are put behind a text change nothing, and a text that ends in something else is kept whole.
-/

namespace PinFloor

variable {c : Char} {n cs : List Char}

/-- A text ends in the characters that are dropped from its end. -/
theorem exists_dropped (p : Char → Bool) (cs : List Char) :
    ∃ tail, cs = dropTailWhile p cs ++ tail ∧ ∀ c ∈ tail, p c = true := by
  refine ⟨(cs.reverse.takeWhile p).reverse, ?_, fun c inside => ?_⟩
  · rw [dropTailWhile, ← List.reverse_append, List.takeWhile_append_dropWhile, List.reverse_reverse]
  · exact List.mem_takeWhile_imp (List.mem_reverse.mp inside)

/-- A text ends in the blanks that are dropped from it. -/
theorem exists_blanks (cs : List Char) :
    ∃ s, cs = trimEnd cs ++ s ∧ ∀ c ∈ s, isBlank c = true :=
  exists_dropped isBlank cs

theorem isPrefix_trimEnd (cs : List Char) : trimEnd cs <+: cs := by
  obtain ⟨s, whole, -⟩ := exists_blanks cs
  exact ⟨s, whole.symm⟩

theorem mem_of_mem_trim (inside : c ∈ trim cs) : c ∈ cs :=
  (List.dropWhile_suffix isBlank).subset ((isPrefix_trimEnd _).subset inside)

theorem not_blank_of_getLast?_trimEnd (last : (trimEnd cs).getLast? = some c) :
    isBlank c = false := by
  have stopped := List.head?_dropWhile_not isBlank cs.reverse
  rw [trimEnd, dropTailWhile, List.getLast?_reverse] at last
  rw [last] at stopped
  simpa using stopped

theorem trimEnd_append (last : n.getLast? = some c) (plain : isBlank c = false) (line : List Char) :
    trimEnd (n ++ line) = n ++ trimEnd line := by
  obtain ⟨more, rfl⟩ := List.getLast?_eq_some_iff.mp last
  have stops : (more ++ [c]).reverse.dropWhile isBlank = (more ++ [c]).reverse := by
    simp [plain]
  rw [trimEnd, dropTailWhile, List.reverse_append, List.dropWhile_append]
  split
  · next blank =>
      rw [stops, List.reverse_reverse, trimEnd, dropTailWhile, List.isEmpty_iff.mp blank]
      simp
  · rw [List.reverse_append, List.reverse_reverse]
    rfl

theorem trimEnd_append_blanks {b : List Char} (blanks : ∀ c ∈ b, isBlank c = true)
    (cs : List Char) : trimEnd (cs ++ b) = trimEnd cs := by
  have reversed : ∀ c ∈ b.reverse, isBlank c = true :=
    fun c inside => blanks c (List.mem_reverse.mp inside)
  rw [trimEnd, trimEnd, dropTailWhile, dropTailWhile, List.reverse_append,
    List.dropWhile_append_of_pos reversed]

/-- Of blanks at the start of a text all are kept, or nothing is left. -/
theorem isPrefix_trimEnd_of_blanks {b : List Char} (blanks : ∀ c ∈ b, isBlank c = true)
    (start : b <+: cs) :
    trimEnd cs = [] ∨ b <+: trimEnd cs := by
  rcases List.prefix_or_prefix_of_prefix (isPrefix_trimEnd cs) start with short | long
  · refine .inl (List.eq_nil_iff_forall_not_mem.mpr fun d inside => ?_)
    obtain ⟨c, last⟩ := Option.ne_none_iff_exists'.mp
      (fun none => List.ne_nil_of_mem inside (List.getLast?_eq_none_iff.mp none))
    have blank := blanks c (short.subset (List.mem_of_getLast? last))
    rw [not_blank_of_getLast?_trimEnd last] at blank
    cases blank
  · exact .inr long

end PinFloor
