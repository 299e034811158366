import PinFloor.Proofs.Places

/-! # The order of diagnostics

Diagnostics are compared by severity, package, rule, first origin and message. Each of these
comparisons is a total order of what it looks at, so a report can be sorted, and two diagnostics
stand level exactly if they agree in all five.
-/

namespace PinFloor

open Std

theorem compare_texts_eq_lt {s t : String} : Ord.compare s t = .lt ↔ s < t :=
  compareOfLessAndEq_eq_lt

theorem Severity.rank_inj {a b : Severity} : a.rank = b.rank ↔ a = b := by
  cases a <;> cases b <;> decide

theorem Rule.rank_inj {a b : Rule} : a.rank = b.rank ↔ a = b := by
  cases a <;> cases b <;> decide

theorem PackageName.text_inj {a b : PackageName} : a.text = b.text ↔ a = b := by
  cases a
  cases b
  simp

theorem PathPart.rank_inj {a b : PathPart} : a.rank = b.rank ↔ a = b := by
  constructor
  · intro same
    cases a <;> cases b <;> simp [rank, List.map_inj_right, Char.toNat_inj, String.toList_inj] at same ⊢
    exact same
  · exact congrArg rank

theorem Path.compare_eq_iff {a b : Path} : a.compare b = .eq ↔ a.parts = b.parts := by
  rw [compare, LawfulEqOrd.compare_eq_iff_eq]
  exact List.map_inj_right fun _ _ => PathPart.rank_inj.mp

instance : TransCmp Path.compare :=
  inferInstanceAs (TransCmp (compareOn fun p : Path => p.parts.map PathPart.rank))

namespace Origin

instance : TransCmp Origin.compare :=
  inferInstanceAs (TransCmp (compareLex (compareOn fun o : Origin => o.path.parts.map PathPart.rank)
    (compareOn Origin.line)))

theorem compare_eq_iff {a b : Origin} : a.compare b = .eq ↔ a.key = b.key := by
  simp only [compare, Ordering.then_eq_eq, Path.compare_eq_iff, LawfulEqOrd.compare_eq_iff_eq, key,
    Prod.mk.injEq]

end Origin

namespace Diagnostic

instance : TransCmp compareOrigins :=
  let _ : Ord Origin := ⟨Origin.compare⟩
  have : TransOrd Origin := inferInstanceAs (TransCmp Origin.compare)
  inferInstanceAs (TransCmp (compareOn (id : Option Origin → Option Origin)))

theorem compareOrigins_eq_iff {a b : Option Origin} :
    compareOrigins a b = .eq ↔ a.map Origin.key = b.map Origin.key := by
  cases a <;> cases b <;> simp [compareOrigins, Origin.compare_eq_iff]

private instance : TransCmp fun a b : Diagnostic => Ord.compare b.severity.rank a.severity.rank :=
  @TransCmp.opposite _ (compareOn fun d : Diagnostic => d.severity.rank) _

private instance : TransCmp fun a b : Diagnostic =>
    compareOrigins a.finding.origin? b.finding.origin? where
  eq_swap := OrientedCmp.eq_swap
  isLE_trans := TransCmp.isLE_trans

instance : TransCmp Diagnostic.compare :=
  inferInstanceAs (TransCmp (compareLex (compareLex (compareLex (compareLex
    (fun a b : Diagnostic => Ord.compare b.severity.rank a.severity.rank)
    (compareOn fun d : Diagnostic => d.finding.package.text))
    (compareOn fun d : Diagnostic => d.finding.rule.rank))
    (fun a b : Diagnostic => compareOrigins a.finding.origin? b.finding.origin?))
    (compareOn fun d : Diagnostic => d.finding.message)))

variable {a b c : Diagnostic}

theorem le_eq_isLE (a b : Diagnostic) : a.le b = (a.compare b).isLE := by
  rw [le]
  cases a.compare b <;> rfl

theorem le_trans (a b c : Diagnostic) (first : a.le b = true) (second : b.le c = true) :
    a.le c = true := by
  rw [le_eq_isLE] at *
  exact TransCmp.isLE_trans first second

theorem le_total (a b : Diagnostic) : (a.le b || b.le a) = true := by
  have swapped : a.compare b = (b.compare a).swap := OrientedCmp.eq_swap
  rw [le_eq_isLE, le_eq_isLE, swapped]
  cases b.compare a <;> rfl

/-- Two diagnostics stand level. -/
theorem compare_eq_iff : a.compare b = .eq ↔ a.severity = b.severity ∧
    a.finding.package = b.finding.package ∧ a.finding.rule = b.finding.rule ∧
    a.finding.origin?.map Origin.key = b.finding.origin?.map Origin.key ∧
    a.finding.message = b.finding.message := by
  simp only [compare, Ordering.then_eq_eq, compareOrigins_eq_iff, LawfulEqOrd.compare_eq_iff_eq,
    Severity.rank_inj, Rule.rank_inj, PackageName.text_inj, and_assoc, @eq_comm _ b.severity]

/-- One diagnostic stands before another: the most severe first, then by package, rule, first origin
    and message, each of which counts where those before it are equal. -/
inductive Before (a b : Diagnostic) : Prop where
  | severity (more : b.severity.rank < a.severity.rank)
  | package (severity : a.severity = b.severity)
      (less : a.finding.package.text < b.finding.package.text)
  | rule (severity : a.severity = b.severity) (package : a.finding.package = b.finding.package)
      (less : a.finding.rule.rank < b.finding.rule.rank)
  | origin (severity : a.severity = b.severity) (package : a.finding.package = b.finding.package)
      (rule : a.finding.rule = b.finding.rule)
      (less : compareOrigins a.finding.origin? b.finding.origin? = .lt)
  | message (severity : a.severity = b.severity) (package : a.finding.package = b.finding.package)
      (rule : a.finding.rule = b.finding.rule)
      (origin : a.finding.origin?.map Origin.key = b.finding.origin?.map Origin.key)
      (less : a.finding.message < b.finding.message)

theorem compare_eq_lt_iff : a.compare b = .lt ↔ a.Before b := by
  simp only [compare, Ordering.then_eq_lt, Ordering.then_eq_eq, compareOrigins_eq_iff,
    LawfulEqOrd.compare_eq_iff_eq, Severity.rank_inj, Rule.rank_inj, PackageName.text_inj,
    compare_eq_lt, compare_texts_eq_lt, and_assoc, @eq_comm _ b.severity]
  constructor
  · rintro ((((more | ⟨severity, less⟩) | ⟨severity, package, less⟩) |
      ⟨severity, package, rule, less⟩) | ⟨severity, package, rule, origin, less⟩)
    · exact .severity more
    · exact .package severity less
    · exact .rule severity package less
    · exact .origin severity package rule less
    · exact .message severity package rule origin less
  · intro before
    cases before with
    | severity more => exact .inl (.inl (.inl (.inl more)))
    | package severity less => exact .inl (.inl (.inl (.inr ⟨severity, less⟩)))
    | rule severity package less => exact .inl (.inl (.inr ⟨severity, package, less⟩))
    | origin severity package rule less => exact .inl (.inr ⟨severity, package, rule, less⟩)
    | message severity package rule origin less =>
        exact .inr ⟨severity, package, rule, origin, less⟩

theorem le_iff_not_before : a.le b = true ↔ ¬ b.Before a := by
  have swapped : a.compare b = .gt ↔ b.compare a = .lt := OrientedCmp.gt_iff_lt
  rw [le, bne_iff_ne, ne_eq, swapped, compare_eq_lt_iff]

end Diagnostic

end PinFloor
