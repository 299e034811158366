import PinFloor.Proofs.Check.EnvironmentCounts
import PinFloor.Proofs.Check.Selection

/-! # Packages do not interfere

What is found about a package depends on the entries that are about it and on nothing else. So its
diagnostics are those of a check of these entries alone, and to ignore it takes its diagnostics from
the report and changes no other.
-/

namespace PinFloor

theorem flatMap_only {α β : Type} [DecidableEq α] {xs : List α} (distinct : xs.Nodup) (a : α)
    (ys : List β) :
    (xs.flatMap fun x => if x = a then ys else []) = if a ∈ xs then ys else [] := by
  induction xs with
  | nil => rfl
  | cons x rest ih =>
      obtain ⟨fresh, distinct⟩ := List.nodup_cons.mp distinct
      rw [List.flatMap_cons, ih distinct]
      by_cases here : x = a
      · subst here
        simp [fresh]
      · simp [here, Ne.symm here]

namespace Manifest

/-- The entries of a manifest that are about a package. -/
def about (m : Manifest) (name : PackageName) : Manifest where
  requirements := m.requirements.filter (·.name == name)
  constraints := m.constraints.filter (·.name == name)

variable {m : Manifest} {environment : TargetEnvironment} {name : PackageName}

theorem requirementsOf_about :
    (m.about name).requirementsOf environment name = m.requirementsOf environment name := by
  simp only [requirementsOf, about, List.filter_filter, Bool.and_assoc, Bool.and_self]

theorem constraintsOf_about :
    (m.about name).constraintsOf environment name = m.constraintsOf environment name := by
  simp only [constraintsOf, about, List.filter_filter, Bool.and_assoc, Bool.and_self]

theorem isRequired_about : (m.about name).isRequired name = m.isRequired name := by
  rw [Bool.eq_iff_iff, isRequired_iff, isRequired_iff]
  simp [about]

end Manifest

namespace Check

variable {settings : CheckSettings} {m : Manifest} {environment : TargetEnvironment}
  {name : PackageName} {f : Finding}

theorem foundAbout_about : foundAbout settings (m.about name) environment name =
    foundAbout settings m environment name := by
  rw [foundAbout, foundAbout, Manifest.isRequired_about, Manifest.requirementsOf_about,
    Manifest.constraintsOf_about]

/-- The findings about a package stand together. -/
theorem filter_package_ofEnvironment :
    (ofEnvironment settings m environment).filter (·.package == name)
      = foundAbout settings m environment name := by
  have part (other : PackageName) :
      (foundAbout settings m environment other).filter (·.package == name)
        = if other = name then foundAbout settings m environment name else [] := by
    by_cases here : other = name
    · subst here
      rw [if_pos rfl, List.filter_eq_self]
      exact fun f found => beq_iff_eq.mpr (package_of_mem_foundAbout found)
    · rw [if_neg here, List.filter_eq_nil_iff]
      exact fun f found same =>
        here ((package_of_mem_foundAbout found).symm.trans (beq_iff_eq.mp same))
  rw [ofEnvironment_eq, List.filter_flatMap]
  simp only [part]
  rw [flatMap_only (nodup_packages _)]
  split
  · rfl
  · next absent => exact (foundAbout_of_absent absent).symm

theorem package_of_mem_ofEnvironment_about
    (found : f ∈ ofEnvironment settings (m.about name) environment) : f.package = name := by
  obtain ⟨-, other, -, arises⟩ := mem_ofEnvironment_iff.mp found
  obtain ⟨e, inside, named⟩ := Manifest.mem_packages.mp (mem_packages_of_arisesIn arises)
  have ours : e.name = name := by
    rcases List.mem_append.mp inside with inside | inside <;>
      exact beq_iff_eq.mp (List.mem_filter.mp (List.mem_filter.mp inside).1).2
  rw [package_of_arisesIn arises, ← named, ours]

theorem ofEnvironment_about : ofEnvironment settings (m.about name) environment =
    (ofEnvironment settings m environment).filter (·.package == name) := by
  have all : ∀ f ∈ ofEnvironment settings (m.about name) environment,
      (f.package == name) = true :=
    fun f found => beq_iff_eq.mpr (package_of_mem_ofEnvironment_about found)
  rw [← List.filter_eq_self.mpr all, filter_package_ofEnvironment, filter_package_ofEnvironment,
    foundAbout_about]

theorem ofEnvironment_ignoring :
    ofEnvironment { settings with ignore := name :: settings.ignore } m environment
      = (ofEnvironment settings m environment).filter (·.package != name) := by
  rw [ofEnvironment_eq, ofEnvironment_eq, List.filter_flatMap]
  refine congrArg (List.flatMap · _) (funext fun other => ?_)
  by_cases here : other = name
  · subst here
    rw [List.filter_eq_nil_iff.mpr fun f found => by simp [package_of_mem_foundAbout found]]
    simp [foundAbout]
  · rw [List.filter_eq_self.mpr fun f found => by simpa [package_of_mem_foundAbout found] using here]
    simp [foundAbout, here]

theorem sightings_about : sightings settings (m.about name) =
    (sightings settings m).filter (·.2.package == name) := by
  rw [filter_sightings _ _ (·.package == name), sightings]
  simp only [ofEnvironment_about]

theorem sightings_ignoring :
    sightings { settings with ignore := name :: settings.ignore } m
      = (sightings settings m).filter (·.2.package != name) := by
  rw [filter_sightings _ _ (·.package != name), sightings]
  simp only [ofEnvironment_ignoring]

/-- A check of the entries about a package reports its diagnostics as the whole check does; and to
    ignore the package takes these diagnostics from the report and leaves the others as they are. -/
theorem packages_apart (settings : CheckSettings) (m : Manifest) (name : PackageName) :
    (run settings m).diagnostics.filter (·.finding.package == name)
        = (run settings (m.about name)).diagnostics ∧
      run { settings with ignore := name :: settings.ignore } m
        = { run settings m with
            diagnostics := (run settings m).diagnostics.filter (·.finding.package != name) } := by
  constructor
  · rw [run_diagnostics, run_diagnostics, sightings_about,
      filter_reported (Finding.shared_package (· == name))]
  · rw [run_diagnostics settings, filter_reported (Finding.shared_package (· != name)),
      ← sightings_ignoring, ← run_diagnostics { settings with ignore := name :: settings.ignore }]
    rfl

end Check

end PinFloor
