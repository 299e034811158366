import Mathlib.Data.List.Chain
import PinFloor.Proofs.Text.Words
import PinFloor.Text.Wrap

/-! # Laying out keeps the words of a text

A text is broken into rows at blanks only, whatever a row costs: each plan for a line has all its words
in their order. Rows are indented and lose the spaces at their ends, so a text that is laid out has the
words that it had before, at any width and without one.
-/

namespace PinFloor.Wrap

variable {cs line : List Char} {w : Word} {ws before left done : List Word} {plan : Plan}
  {plans : List Plan}

/-! ## Lines and rows -/

theorem words_joined (rows : List (List Char)) :
    PinFloor.words (joined rows) = rows.flatMap PinFloor.words := by
  induction rows with
  | nil => rfl
  | cons row rows ih =>
      cases rows with
      | nil => simp [joined]
      | cons next rows =>
          have split : joined (row :: next :: rows) = row ++ '\n' :: joined (next :: rows) := by
            rw [joined, List.intercalate_cons_cons, List.append_assoc]
            rfl
          rw [split, words_append_blank rfl, ih]
          rfl

theorem words_lines (cs : List Char) : (lines cs).flatMap PinFloor.words = PinFloor.words cs := by
  rw [← words_joined, joined, lines, List.intercalate_splitOn]

theorem lines_of_plain (plain : '\n' ∉ cs) : lines cs = [cs] :=
  List.splitOn_eq_singleton plain

/-- The lines of a text are those before a line end and those after it. -/
theorem endedLines_append_newline (cs ds : List Char) :
    endedLines (cs ++ '\n' :: ds) = lines cs ++ endedLines ds := by
  have split : lines (cs ++ '\n' :: ds) = lines cs ++ lines ds :=
    List.splitOnP_append_cons cs ds (beq_self_eq_true '\n')
  have some : lines ds ≠ [] := List.splitOn_ne_nil '\n' ds
  rw [endedLines, endedLines, split, List.getLast?_append_of_ne_nil _ some]
  split
  · rw [List.dropLast_append_of_ne_nil some]
  · rfl

theorem endedLines_rows {rows : List (List Char)} (plain : ∀ row ∈ rows, '\n' ∉ row)
    (cs : List Char) : endedLines (rows.flatMap (· ++ ['\n']) ++ cs) = rows ++ endedLines cs := by
  induction rows with
  | nil => rfl
  | cons row rows ih =>
      obtain ⟨first, others⟩ := List.forall_mem_cons.mp plain
      rw [List.flatMap_cons, List.append_assoc, List.append_assoc, List.singleton_append,
        endedLines_append_newline, lines_of_plain first, ih others]
      rfl

theorem mem_lines_of_mem_endedLines (member : line ∈ endedLines cs) : line ∈ lines cs := by
  rw [endedLines] at member
  split at member
  · exact List.dropLast_subset _ member
  · exact member

theorem words_endedLines (cs : List Char) :
    (endedLines cs).flatMap PinFloor.words = PinFloor.words cs := by
  rw [← words_lines, endedLines]
  split
  · next last =>
      obtain ⟨before, whole⟩ := List.getLast?_eq_some_iff.mp last
      rw [whole, List.dropLast_concat, List.flatMap_append]
      exact (List.append_nil _).symm
  · rfl

theorem mem_of_mem_endedLines {c : Char} (visible : isBlank c = false)
    (member : line ∈ endedLines cs) (inside : c ∈ line) : c ∈ cs := by
  obtain ⟨word, among, inside⟩ := (mem_words_iff visible).mpr inside
  have whole := words_endedLines cs ▸ List.mem_flatMap.mpr ⟨line, member, among⟩
  exact (mem_words_iff visible).mp ⟨word, whole, inside⟩

theorem flatMap_zipIdx {α β : Type} {f : α × Nat → List β} {g : α → List β}
    (same : ∀ x i, f (x, i) = g x) (xs : List α) : xs.zipIdx.flatMap f = xs.flatMap g := by
  have first : f = fun p => g p.1 := funext fun ⟨x, i⟩ => same x i
  rw [first, ← List.flatMap_map Prod.fst g, List.zipIdx_map_fst]

theorem words_spaces_append (n : Nat) (cs : List Char) :
    PinFloor.words (List.replicate n ' ' ++ cs) = PinFloor.words cs :=
  words_blanks_append (fun _ inside => List.eq_of_mem_replicate inside ▸ rfl) cs

theorem words_append_spaces (cs : List Char) (n : Nat) :
    PinFloor.words (cs ++ List.replicate n ' ') = PinFloor.words cs :=
  words_append_blanks (fun _ inside => List.eq_of_mem_replicate inside ▸ rfl) cs

theorem words_unwrapped (indent : Nat) (cs : List Char) :
    (unwrapped indent cs).flatMap PinFloor.words = PinFloor.words cs := by
  rw [unwrapped, List.flatMap_map, ← words_endedLines]
  refine flatMap_zipIdx (fun line i => ?_) _
  dsimp only
  split
  · rfl
  · exact words_spaces_append indent line

/-! ## The words of a line -/

/-- Every word but the last has spaces after it. -/
def Spaced (ws : List Word) : Prop :=
  ws.IsChain fun w _ => 0 < w.spaces

theorem full_words (line : List Char) : (words line).flatMap Word.full = line := by
  fun_induction words line with
  | case1 => rfl
  | case2 c rest letters tail ih =>
      have spaces : List.replicate (tail.takeWhile (· = ' ')).length ' ' = tail.takeWhile (· = ' ') :=
        (List.eq_replicate_iff.mpr
          ⟨rfl, fun d inside => by simpa using List.mem_takeWhile_imp inside⟩).symm
      rw [List.flatMap_cons, ih, Word.full, spaces, List.append_assoc,
        List.takeWhile_append_dropWhile, List.takeWhile_append_dropWhile]

theorem spaced_words (line : List Char) : Spaced (words line) := by
  fun_induction words line with
  | case1 => exact .nil
  | case2 c rest letters tail ih =>
      refine List.isChain_cons.mpr ⟨fun next more => ?_, ih⟩
      -- Another word follows, so the letters end before a space.
      cases start : tail with
      | nil =>
          rw [start] at more
          simp [words] at more
      | cons d tail' =>
          have stopped := List.head?_dropWhile_not (fun e : Char => decide (e ≠ ' ')) (c :: rest)
          rw [show (c :: rest).dropWhile _ = d :: tail' from start] at stopped
          have space : d = ' ' := by simpa using stopped
          simp [space]

/-- A row is its words without the spaces after the last one. -/
theorem exists_spaces (ws : List Word) :
    ∃ n, ws.flatMap Word.full = rowText ws ++ List.replicate n ' ' := by
  fun_induction rowText ws with
  | case1 => exact ⟨0, rfl⟩
  | case2 w => exact ⟨w.spaces, by simp [Word.full]⟩
  | case3 w ws _ ih =>
      obtain ⟨n, same⟩ := ih
      exact ⟨n, by rw [List.flatMap_cons, same, List.append_assoc]⟩

theorem words_rowText (spaced : Spaced ws) :
    PinFloor.words (rowText ws) = ws.flatMap fun w => PinFloor.words w.letters := by
  fun_induction rowText ws with
  | case1 => rfl
  | case2 w => simp
  | case3 w ws more ih =>
      obtain ⟨v, vs, rfl⟩ := List.exists_cons_of_ne_nil more
      obtain ⟨positive, spaced⟩ := List.isChain_cons_cons.mp spaced
      obtain ⟨n, spaces⟩ := Nat.exists_eq_succ_of_ne_zero (Nat.ne_of_gt positive)
      rw [Word.full, spaces, List.append_assoc, List.replicate_succ, List.cons_append,
        words_append_blank rfl, words_spaces_append, ih spaced]
      rfl

theorem words_line (line : List Char) :
    PinFloor.words line = (words line).flatMap fun w => PinFloor.words w.letters := by
  obtain ⟨n, same⟩ := exists_spaces (words line)
  rw [full_words] at same
  calc
    PinFloor.words line = PinFloor.words (rowText (words line) ++ List.replicate n ' ') :=
      congrArg _ same
    _ = PinFloor.words (rowText (words line)) := words_append_spaces _ n
    _ = _ := words_rowText (spaced_words line)

/-! ## Plans -/

namespace Plan

theorem cheapest_mem (first : Plan) (others : List Plan) :
    cheapest first others ∈ first :: others := by
  induction others generalizing first with
  | nil => exact List.mem_cons_self
  | cons plan others ih =>
      rw [cheapest, List.foldl_cons]
      rcases List.mem_cons.mp (ih (if plan.cost < first.cost then plan else first)) with same | later
      · rw [cheapest] at same
        rw [same]
        split <;> simp
      · exact List.mem_cons_of_mem _ (List.mem_cons_of_mem _ later)

/-- A plan that is extended by the words that it leaves over has all words. -/
theorem flatten_of_mem_extensions {room : Room} {last : Bool}
    (starts : ∀ i plan, plans[i]? = some plan → plan.rows.flatten = before ++ left.take i)
    (member : plan ∈ extensions room last plans left) : plan.rows.flatten = before ++ left := by
  induction plans generalizing before left with
  | nil => cases member
  | cons first plans ih =>
      cases left with
      | nil => cases member
      | cons w left =>
          rcases List.mem_cons.mp member with rfl | later
          · have start : first.rows.flatten = before := by simpa using starts 0 first rfl
            simp [add, start]
          · have further : ∀ i p, plans[i]? = some p →
                p.rows.flatten = (before ++ [w]) ++ left.take i := by
              intro i p found
              rw [List.append_assoc]
              exact starts (i + 1) p found
            have whole := ih further later
            rwa [List.append_assoc] at whole

/-- There is a plan for each start of a line, from the empty one on. -/
structure Covers (done : List Word) (plans : List Plan) : Prop where
  length : plans.length = done.length + 1
  flatten : ∀ i plan, plans[i]? = some plan → plan.rows.flatten = done.take i

theorem covers_empty : Covers [] [empty] := by
  refine ⟨rfl, fun i plan found => ?_⟩
  obtain ⟨-, rfl⟩ : i = 0 ∧ empty = plan := by simpa [List.getElem?_cons] using found
  simp [empty]

theorem Covers.flatten_start (covers : Covers done plans) (w : Word) (i : Nat) (plan : Plan)
    (found : plans[i]? = some plan) : plan.rows.flatten = (done ++ [w]).take i := by
  have inside := (List.getElem?_eq_some_iff.mp found).1
  rw [covers.length] at inside
  rw [List.take_append_of_le_length (Nat.le_of_lt_succ inside)]
  exact covers.flatten i plan found

theorem Covers.concat (covers : Covers done plans) (whole : plan.rows.flatten = done ++ [w]) :
    Covers (done ++ [w]) (plans ++ [plan]) := by
  refine ⟨by simp [covers.length], fun i p found => ?_⟩
  rcases Nat.lt_or_ge i plans.length with inside | last
  · rw [List.getElem?_append_left inside] at found
    exact covers.flatten_start w i p found
  · rw [List.getElem?_append_right last] at found
    obtain rfl : p = plan := List.mem_singleton.mp (List.mem_of_getElem? found)
    rw [whole, List.take_of_length_le]
    rwa [List.length_append, List.length_singleton, ← covers.length]

/-- Word by word the table grows to the whole line. -/
theorem Covers.exists_last (covers : Covers done plans) (room : Room) (rest : List Word) :
    ∃ plan, (table room plans done rest).getLast? = some plan ∧ plan.rows.flatten = done ++ rest := by
  have given : plans ≠ [] := by
    rintro rfl
    cases covers.length
  induction rest generalizing done plans with
  | nil =>
      rcases List.eq_nil_or_concat' plans with none | ⟨earlier, plan, rfl⟩
      · exact absurd none given
      · have length : earlier.length = done.length := by simpa using covers.length
        have whole := covers.flatten earlier.length plan (by simp)
        rw [length, List.take_length] at whole
        exact ⟨plan, by rw [table, List.getLast?_concat], by rw [whole, List.append_nil]⟩
  | cons w rest ih =>
      rw [table]
      split
      · next none =>
          obtain ⟨plan, others, rfl⟩ := List.exists_cons_of_ne_nil given
          obtain ⟨v, start, whole⟩ := List.exists_cons_of_ne_nil (List.concat_ne_nil w done)
          rw [whole] at none
          cases none
      · next first others found =>
          have whole : (cheapest first others).rows.flatten = [] ++ (done ++ [w]) :=
            flatten_of_mem_extensions (covers.flatten_start w)
              (found ▸ cheapest_mem first others)
          obtain ⟨plan, last, all⟩ := ih (covers.concat whole) (by simp)
          exact ⟨plan, last, by rw [all, List.append_assoc]; rfl⟩

theorem flatten_forLine (room : Room) (line : List Word) : (forLine room line).rows.flatten = line := by
  obtain ⟨plan, last, whole⟩ := covers_empty.exists_last room line
  rw [forLine, last]
  exact whole

end Plan

theorem flatten_rows (room : Room) (line : List Word) : (rows room line).flatten = line := by
  rw [rows]
  split
  · next none => simp [List.isEmpty_iff.mp none]
  · exact Plan.flatten_forLine room line

/-! ## Layouts -/

theorem words_lineRows (columns indent : Nat) (first : Bool) (line : List Char) :
    (lineRows columns indent first line).flatMap PinFloor.words = PinFloor.words line := by
  rw [lineRows]
  split
  · rw [List.flatMap_cons, List.flatMap_nil, List.append_nil, dropSpaces]
    exact words_dropTailWhile (fun c space => by simp_all [isBlank]) line
  · rw [List.flatMap_map, words_line]
    calc
      _ = (rows ⟨columns, columns - indent⟩ (words line)).flatMap (PinFloor.words ∘ rowText) := by
        refine flatMap_zipIdx (fun row i => ?_) _
        dsimp only
        split
        · rfl
        · exact words_spaces_append indent (rowText row)
      _ = (rows ⟨columns, columns - indent⟩ (words line)).flatMap fun row =>
            row.flatMap fun w => PinFloor.words w.letters := by
        refine List.flatMap_congr fun row member => words_rowText ?_
        have part := List.infix_of_mem_flatten member
        rw [flatten_rows] at part
        exact List.IsChain.infix (spaced_words line) part
      _ = (rows ⟨columns, columns - indent⟩ (words line)).flatten.flatMap fun w =>
            PinFloor.words w.letters := by
        rw [List.flatten_eq_flatMap, List.flatMap_assoc]
        rfl
      _ = _ := by rw [flatten_rows]

theorem mem_tail_of_joined {rows : List (List Char)} {row : List Char}
    (plain : ∀ row ∈ rows, '\n' ∉ row) (member : row ∈ (endedLines (joined rows)).tail) :
    row ∈ rows.tail := by
  by_cases none : rows = []
  · subst none
    cases member
  · have same : lines (joined rows) = rows := List.splitOn_intercalate '\n' plain none
    rw [endedLines, same] at member
    split at member
    · exact (List.dropLast_sublist rows).tail.subset member
    · exact member

/-- Without a width, the rows after the first are indented, unless they are empty. -/
theorem indented_of_mem_tail {row : List Char} {indent : Nat}
    (member : row ∈ (endedLines (layout none indent cs)).tail) :
    row = [] ∨ List.replicate indent ' ' <+: row := by
  have plain : ∀ row ∈ unwrapped indent cs, '\n' ∉ row := by
    intro row member
    obtain ⟨⟨line, i⟩, inside, rfl⟩ := List.mem_map.mp member
    have single := not_mem_of_mem_splitOn
      (mem_lines_of_mem_endedLines (List.fst_mem_of_mem_zipIdx inside))
    dsimp only
    split
    · exact single
    · simp [single]
  have later := mem_tail_of_joined plain member
  rw [unwrapped] at later
  cases whole : endedLines cs with
  | nil =>
      rw [whole] at later
      cases later
  | cons first others =>
      rw [whole, List.zipIdx_cons, List.map_cons, List.tail_cons] at later
      obtain ⟨⟨line, i⟩, inside, rfl⟩ := List.mem_map.mp later
      have behind : i ≠ 0 := Nat.ne_of_gt (List.le_snd_of_mem_zipIdx inside)
      dsimp only
      split
      · next none =>
          exact .inl (List.isEmpty_iff.mp (none.resolve_left behind))
      · exact .inr (List.prefix_append _ line)

theorem words_layout (columns : Option Nat) (indent : Nat) (cs : List Char) :
    PinFloor.words (layout columns indent cs) = PinFloor.words cs := by
  cases columns with
  | none => rw [layout, words_joined, words_unwrapped]
  | some columns =>
      rw [layout, words_joined, wrapped, List.flatMap_assoc, ← words_lines]
      exact flatMap_zipIdx (fun line i => words_lineRows ..) _

end PinFloor.Wrap
