import PinFloor.Proofs.Text.Trimming

/-! # The words of a text

A blank between two texts belongs to no word, so the words of both are those of the whole. Blanks at
the ends of a text may be dropped, and the words together hold all other characters.
-/

namespace PinFloor

variable {c : Char} {cs ds blanks : List Char}

/-! ## Parts of a text -/

theorem not_mem_of_mem_splitOn {part : List Char} (among : part ∈ cs.splitOn c) : c ∉ part := by
  induction cs generalizing part with
  | nil =>
      obtain rfl : part = [] := by simpa using among
      exact List.not_mem_nil
  | cons d cs ih =>
      rw [List.splitOn_cons_eq_if_modifyHead] at among
      split at among
      · rcases List.mem_cons.mp among with rfl | later
        · exact List.not_mem_nil
        · exact ih later
      · next other =>
          obtain ⟨first, rest, split⟩ := List.exists_cons_of_ne_nil (List.splitOn_ne_nil c cs)
          rw [split] at among ih
          rcases List.mem_cons.mp among with rfl | later
          · have apart : c ≠ d := fun same => other (beq_iff_eq.mpr same.symm)
            simpa [apart] using ih List.mem_cons_self
          · exact ih (List.mem_cons_of_mem first later)

/-! ## Words -/

theorem words_append_blank (blank : isBlank c = true) (cs ds : List Char) :
    words (cs ++ c :: ds) = words cs ++ words ds := by
  rw [words, List.splitOnP_append_cons cs ds blank, List.filter_append]
  rfl

theorem words_blanks_append (blank : ∀ c ∈ blanks, isBlank c = true) (cs : List Char) :
    words (blanks ++ cs) = words cs := by
  induction blanks with
  | nil => rfl
  | cons c blanks ih =>
      obtain ⟨first, others⟩ := List.forall_mem_cons.mp blank
      calc
        words (c :: (blanks ++ cs)) = words [] ++ words (blanks ++ cs) :=
          words_append_blank first [] _
        _ = words cs := ih others

theorem words_append_blanks (blank : ∀ c ∈ blanks, isBlank c = true) (cs : List Char) :
    words (cs ++ blanks) = words cs := by
  cases blanks with
  | nil => rw [List.append_nil]
  | cons c blanks =>
      obtain ⟨first, others⟩ := List.forall_mem_cons.mp blank
      have none := words_blanks_append others []
      rw [List.append_nil] at none
      rw [words_append_blank first, none]
      exact List.append_nil _

theorem words_dropTailWhile {p : Char → Bool} (blank : ∀ c, p c = true → isBlank c = true)
    (cs : List Char) : words (dropTailWhile p cs) = words cs := by
  obtain ⟨tail, whole, dropped⟩ := exists_dropped p cs
  have kept := words_append_blanks (fun c inside => blank c (dropped c inside)) (dropTailWhile p cs)
  rw [← kept, ← whole]

theorem words_trimEnd (cs : List Char) : words (trimEnd cs) = words cs :=
  words_dropTailWhile (fun _ => id) cs

theorem words_trim (cs : List Char) : words (trim cs) = words cs := by
  have start : words (cs.takeWhile isBlank ++ cs.dropWhile isBlank) = words (cs.dropWhile isBlank) :=
    words_blanks_append (fun c => List.mem_takeWhile_imp) _
  rw [List.takeWhile_append_dropWhile] at start
  rw [trim, words_trimEnd, trimStart, start]

/-- The words hold all characters but the blanks. -/
theorem flatten_words (cs : List Char) : (words cs).flatten = cs.filter (!isBlank ·) := by
  induction cs with
  | nil => rfl
  | cons c cs ih =>
      cases blank : isBlank c with
      | true =>
          have split : words (c :: cs) = words cs :=
            words_blanks_append (List.forall_mem_singleton.mpr blank) cs
          rw [split, ih, List.filter_cons_of_neg (by simp [blank])]
      | false =>
          obtain ⟨first, rest, split⟩ := List.exists_cons_of_ne_nil (List.splitOnP_ne_nil isBlank cs)
          have whole : words (c :: cs) = (c :: first) :: rest.filter (!·.isEmpty) := by
            simp [words, List.splitOnP_cons_eq_if_modifyHead, blank, split]
          have joined : (words cs).flatten = first ++ (rest.filter (!·.isEmpty)).flatten := by
            -- An empty first part is no word, and adds nothing.
            cases first <;> simp [words, split]
          rw [whole, List.flatten_cons, List.cons_append, ← joined, ih,
            List.filter_cons_of_pos (by simp [blank])]

theorem mem_words_iff (visible : isBlank c = false) : (∃ word ∈ words cs, c ∈ word) ↔ c ∈ cs := by
  rw [← List.mem_flatten, flatten_words, List.mem_filter, visible]
  simp

theorem mem_iff_of_words (visible : isBlank c = false) (same : words cs = words ds) :
    c ∈ cs ↔ c ∈ ds := by
  rw [← mem_words_iff visible, same, mem_words_iff visible]

end PinFloor
