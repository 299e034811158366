import PinFloor.Version.Basic

/-! # The order of versions

Versions are compared by rank, so two versions are the same exactly if their ranks are equal, and
the order is total up to that. A local label only moves a version up.
-/

namespace PinFloor.Version

open Std

theorem same_iff (a b : Version) : a.same b = true ↔ a.rank = b.rank := by
  simp only [same, compare, beq_iff_eq, Std.compare_eq_iff_eq]

@[simp] theorem same_refl (v : Version) : v.same v = true := (same_iff v v).mpr rfl

instance : TransCmp Version.compare :=
  inferInstanceAs (TransCmp (compareOn rank))

section

variable {a b c : Version}

theorem atMost_eq_isLE (a b : Version) : a.atMost b = (a.compare b).isLE := by
  rw [atMost]
  cases a.compare b <;> rfl

theorem before_iff : a.before b = true ↔ a.compare b = .lt := by
  rw [before, beq_iff_eq]

@[simp] theorem atMost_refl (v : Version) : v.atMost v = true := by
  have equal : v.compare v = .eq := ReflCmp.compare_self
  rw [atMost_eq_isLE, equal]
  rfl

theorem before_iff_not_atMost : a.before b = true ↔ b.atMost a = false := by
  have swapped : a.compare b = (b.compare a).swap := OrientedCmp.eq_swap
  rw [before_iff, atMost_eq_isLE, swapped]
  cases b.compare a <;> decide

theorem atMost_iff : a.atMost b = true ↔ a.before b = true ∨ a.same b = true := by
  rw [before_iff, atMost_eq_isLE, same, beq_iff_eq]
  cases a.compare b <;> decide

theorem atMost_of_before (less : a.before b = true) : a.atMost b = true :=
  atMost_iff.mpr (.inl less)

theorem atMost_trans (first : a.atMost b = true) (second : b.atMost c = true) :
    a.atMost c = true := by
  rw [atMost_eq_isLE] at *
  exact TransCmp.isLE_trans first second

theorem before_of_before_of_atMost (first : a.before b = true) (second : b.atMost c = true) :
    a.before c = true := by
  rw [before_iff, atMost_eq_isLE] at *
  exact TransCmp.lt_of_lt_of_isLE first second

theorem not_before_of_same (same : a.same b = true) : a.before b = false := by
  rw [Version.same, beq_iff_eq] at same
  rw [before, same]
  rfl

theorem same_congr_left (same : a.same b = true) (v : Version) : a.compare v = b.compare v := by
  rw [compare, (same_iff a b).mp same, compare]

end

end PinFloor.Version
