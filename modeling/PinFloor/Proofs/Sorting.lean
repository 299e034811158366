import Mathlib.Data.List.Forall2

/-! # Sorting a part of a list

Sorting is stable, so elements that stand level keep their order. Hence sorting a part of a list
gives the same as taking that part of the sorted list, and a sorted list is settled by what stands
on each of its levels.
-/

namespace PinFloor

variable {α : Type} {le : α → α → Bool}
  (trans : ∀ a b c, le a b = true → le b c = true → le a c = true)
  (total : ∀ a b, (le a b || le b a) = true)

include trans total

/-- Sorting puts the first element before those that it may stand before, and behind the others. -/
theorem mergeSort_cons_eq (a : α) (xs : List α) : (a :: xs).mergeSort le =
    (xs.mergeSort le).filter (!le a ·) ++ a :: (xs.mergeSort le).filter (le a ·) := by
  obtain ⟨before, after, whole, rest, early⟩ := List.mergeSort_cons trans total a xs
  -- What comes behind the first element may do so, as the whole is sorted.
  have late : ∀ b ∈ after, le a b = true := by
    have sorted := List.pairwise_mergeSort trans total (a :: xs)
    rw [whole] at sorted
    exact fun b member => List.rel_of_pairwise_cons (List.pairwise_append.mp sorted).2.1 member
  have notLate : ∀ b ∈ before, ¬ le a b = true := fun b member => by simpa using early b member
  have notEarly : ∀ b ∈ after, ¬ (!le a b) = true := fun b member => by simpa using late b member
  rw [whole, rest, List.filter_append, List.filter_append, List.filter_eq_self.mpr early,
    List.filter_eq_nil_iff.mpr notEarly, List.filter_eq_nil_iff.mpr notLate,
    List.filter_eq_self.mpr late, List.append_nil, List.nil_append]

theorem filter_mergeSort (p : α → Bool) (xs : List α) :
    (xs.mergeSort le).filter p = (xs.filter p).mergeSort le := by
  induction xs with
  | nil => simp
  | cons a rest ih =>
      cases taken : p a with
      | true =>
          -- The first element cuts both lists by `le a`, and cutting commutes with selecting.
          have swap (q : α → Bool) (ys : List α) :
              (ys.filter q).filter p = (ys.filter p).filter q := by
            simp only [List.filter_filter, Bool.and_comm]
          rw [List.filter_cons_of_pos taken, mergeSort_cons_eq trans total,
            mergeSort_cons_eq trans total, List.filter_append, List.filter_cons_of_pos taken,
            swap, swap, ih]
      | false =>
          have left : ¬ p a = true := Bool.not_eq_true _ ▸ taken
          obtain ⟨before, after, whole, parts, -⟩ := List.mergeSort_cons trans total a rest
          rw [List.filter_cons_of_neg left, ← ih, whole, parts, List.filter_append,
            List.filter_cons_of_neg left, List.filter_append]

omit trans total in
/-- The elements of a list that stand level with another. -/
def levelOf (le : α → α → Bool) (a : α) (xs : List α) : List α :=
  xs.filter fun x => le a x && le x a

omit trans in
theorem mem_levelOf_self {a : α} {xs : List α} (member : a ∈ xs) : a ∈ levelOf le a xs := by
  have reflexive : le a a = true := by simpa using total a a
  exact List.mem_filter.mpr ⟨member, by simp [reflexive]⟩

/-- The first element of a sorted list stands before what is on the level of an element of the other
    list, if the levels of both lists are as long. -/
theorem le_head_of_levels {x y : α} {xs ys : List α}
    (sorted : (x :: xs).Pairwise fun a b => le a b = true)
    (lengths : (levelOf le y (x :: xs)).length = (levelOf le y (y :: ys)).length) :
    le x y = true := by
  have filled : levelOf le y (x :: xs) ≠ [] := by
    intro empty
    have there := mem_levelOf_self total (List.mem_cons_self : y ∈ y :: ys)
    rw [empty, List.length_nil, eq_comm, List.length_eq_zero_iff] at lengths
    rw [lengths] at there
    cases there
  obtain ⟨z, found⟩ := List.exists_mem_of_ne_nil _ filled
  obtain ⟨member, level⟩ := List.mem_filter.mp found
  have back : le z y = true := (Bool.and_eq_true _ _ ▸ level).2
  rcases List.mem_cons.mp member with rfl | behind
  · exact back
  · exact trans x z y (List.rel_of_pairwise_cons sorted behind) back

/-- Two sorted lists agree place by place if they do so on each level. -/
theorem forall₂_of_levels {R : α → α → Prop} {xs ys : List α}
    (sortedX : xs.Pairwise fun a b => le a b = true)
    (sortedY : ys.Pairwise fun a b => le a b = true)
    (alike : ∀ a, List.Forall₂ R (levelOf le a xs) (levelOf le a ys)) : List.Forall₂ R xs ys := by
  induction xs generalizing ys with
  | nil =>
      cases ys with
      | nil => exact .nil
      | cons y ys =>
          have there := mem_levelOf_self total (List.mem_cons_self : y ∈ y :: ys)
          rw [List.forall₂_nil_left_iff.mp (alike y)] at there
          cases there
  | cons x xs ih =>
      cases ys with
      | nil =>
          have there := mem_levelOf_self total (List.mem_cons_self : x ∈ x :: xs)
          rw [List.forall₂_nil_right_iff.mp (alike x)] at there
          cases there
      | cons y ys =>
          have xy : le x y = true := le_head_of_levels trans total sortedX (alike y).length_eq
          have yx : le y x = true := le_head_of_levels trans total sortedY (alike x).length_eq.symm
          have xx : le x x = true := trans x y x xy yx
          have heads : R x y := by
            have first := alike x
            simp only [levelOf, List.filter_cons, xx, xy, yx, Bool.and_self, if_true,
              List.forall₂_cons] at first
            exact first.1
          refine .cons heads (ih sortedX.of_cons sortedY.of_cons fun a => ?_)
          have together : (le a x && le x a) = (le a y && le y a) := by
            rw [Bool.eq_iff_iff, Bool.and_eq_true, Bool.and_eq_true]
            constructor
            · rintro ⟨before, after⟩
              exact ⟨trans a x y before xy, trans y x a yx after⟩
            · rintro ⟨before, after⟩
              exact ⟨trans a y x before yx, trans x y a xy after⟩
          have both := alike a
          simp only [levelOf, List.filter_cons, together] at both
          split at both
          · exact (List.forall₂_cons.mp both).2
          · exact both

end PinFloor
