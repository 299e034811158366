import Mathlib.Logic.ExistsUnique
import PinFloor.Proofs.Check.Selection

/-! # Aggregation

Each finding is reported once, with the environments in which it was made, and the report is sorted.
The findings are brought together by `Findings.add`; whatever is added, and in whatever order, the
index stays exact and no addition is lost.
-/

namespace PinFloor

open Check

namespace Findings

/-- The finding of an addition with its environment. -/
def Addition.sighting (a : Addition) : Sighting := (a.environment, a.finding)

variable {added : List Addition}

/-- But for the severities, to add findings is to merge them. -/
theorem map_relabel_addAll (table : Severities) (added : List Addition) :
    (empty.addAll added).diagnostics.map (Diagnostic.relabel table)
      = (added.map Addition.sighting).foldl (merge table) [] := by
  rw [exact_empty.diagnostics_addAll, List.foldl_map]
  exact (List.foldl_hom (List.map (Diagnostic.relabel table)) fun ds _ =>
    (Diagnostic.map_relabel_insert table ds).symm).symm

theorem merged_addAll (table : Severities) (added : List Addition) :
    Merged table (added.map Addition.sighting)
      ((empty.addAll added).diagnostics.map (Diagnostic.relabel table)) := by
  rw [map_relabel_addAll]
  simpa using Merged.nil.foldl (added.map Addition.sighting)

/-- A diagnostic has the environments of the additions of its finding, in their order. -/
theorem environments_of_mem_addAll {d : Diagnostic}
    (member : d ∈ (empty.addAll added).diagnostics) :
    d.environments = (added.filter (d.finding.same ·.finding)).map Addition.environment := by
  -- Severities have no part in it, so any table will do.
  have merged := merged_addAll .standard added
  have seen : d.environments = seenIn d.finding (added.map Addition.sighting) :=
    merged.environments (d.relabel .standard) (List.mem_map_of_mem member)
  rw [seen, seenIn, List.filter_map, List.map_map]
  rfl

/-- Each addition is in exactly one diagnostic. -/
theorem existsUnique_place {a : Addition} (member : a ∈ added) :
    ∃! place : Nat, ∃ d, (empty.addAll added).diagnostics[place]? = some d ∧
      d.finding.same a.finding = true ∧ a.environment ∈ d.environments := by
  have merged := merged_addAll .standard added
  obtain ⟨labelled, among, same⟩ := merged.complete _ (List.mem_map_of_mem member)
  obtain ⟨d, inside, rfl⟩ := List.mem_map.mp among
  obtain ⟨place, there⟩ := List.mem_iff_getElem?.mp inside
  have named : a.environment ∈ d.environments := by
    rw [environments_of_mem_addAll inside]
    exact List.mem_map_of_mem (List.mem_filter.mpr ⟨member, same⟩)
  refine ⟨place, ⟨d, there, same, named⟩, ?_⟩
  rintro other ⟨x, here, alike, -⟩
  have exact : (empty.addAll added).Exact := exact_empty.addAll added
  exact Option.some.inj ((exact.place_eq here alike).symm.trans (exact.place_eq there same))

end Findings

namespace Check

theorem run_sorted (settings : CheckSettings) (m : Manifest) :
    (run settings m).diagnostics.Pairwise fun a b => ¬ b.Before a := by
  rw [run_diagnostics]
  exact sorted_reported.imp Diagnostic.le_iff_not_before.mp

/-- Findings are merged completely and the report is sorted: no finding has two diagnostics, each
    diagnostic names environments, all of them of the matrix, and none stands before a diagnostic
    that should stand before it. For that the findings may be added in any order: afterwards the
    index knows the place of each diagnostic and no other place, a diagnostic has the environments
    of the additions of its finding, and each addition is in exactly one diagnostic. -/
theorem findings_aggregated :
    (∀ (settings : CheckSettings) (m : Manifest),
      (run settings m).diagnostics.Pairwise (fun a b => a.finding.same b.finding = false) ∧
      (∀ d ∈ (run settings m).diagnostics, d.environments ≠ [] ∧
        ∀ environment ∈ d.environments, environment ∈ settings.matrix.environments) ∧
      (run settings m).diagnostics.Pairwise fun a b => ¬ b.Before a) ∧
    ∀ added : List Findings.Addition,
      (∀ f place, (Findings.empty.addAll added).place? f = some place ↔
        ∃ d, (Findings.empty.addAll added).diagnostics[place]? = some d ∧
          d.finding.same f = true) ∧
      (∀ d ∈ (Findings.empty.addAll added).diagnostics, d.environments
        = (added.filter (d.finding.same ·.finding)).map Findings.Addition.environment) ∧
      ∀ a ∈ added, ∃! place : Nat, ∃ d, (Findings.empty.addAll added).diagnostics[place]? = some d ∧
        d.finding.same a.finding = true ∧ a.environment ∈ d.environments := by
  constructor
  · intro settings m
    refine ⟨(merged_run settings m).apart, fun d member => ?_, run_sorted settings m⟩
    exact ⟨environments_ne_nil member, fun _ named => (exists_finding member named).1⟩
  · intro added
    exact ⟨Findings.exact_empty.addAll added, fun _ => Findings.environments_of_mem_addAll,
      fun _ => Findings.existsUnique_place⟩

end Check

end PinFloor
