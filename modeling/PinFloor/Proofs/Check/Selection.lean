import Mathlib.Data.List.Basic
import PinFloor.Proofs.Check.Merging
import PinFloor.Proofs.Check.Order
import PinFloor.Proofs.Sorting

/-! # Parts of a report

What a check reports is settled by its sightings alone: they are merged, and the diagnostics are
sorted. A property that findings share if they are the same can be asked of the sightings or of the
diagnostics, and to select by it before the merge comes to the same as to select from the report.
The severities can be exchanged afterwards in the same way.
-/

namespace PinFloor

/-- Findings that are the same agree in a property. -/
def Finding.Shared (p : Finding → Bool) : Prop :=
  ∀ f g : Finding, f.same g = true → p f = p g

theorem Finding.shared_rule (p : Rule → Bool) : Shared fun f => p f.rule :=
  fun _ _ same => congrArg p (rule_eq_of_same same)

theorem Finding.shared_package (p : PackageName → Bool) : Shared fun f => p f.package :=
  fun _ _ same => congrArg p (package_eq_of_same same)

namespace Diagnostic

variable {environment : TargetEnvironment} {severity : Severity} {finding : Finding}

theorem filter_insert {p : Finding → Bool} (shared : Finding.Shared p) (ds : List Diagnostic) :
    (insert environment severity finding ds).filter (p ·.finding)
      = if p finding then insert environment severity finding (ds.filter (p ·.finding))
        else ds.filter (p ·.finding) := by
  induction ds with
  | nil => cases taken : p finding <;> simp [insert, taken]
  | cons d rest ih =>
      cases same : d.finding.same finding with
      | true =>
          have alike := shared _ _ same
          cases taken : p finding <;> simp [insert, same, alike, taken]
      | false =>
          cases taken : p finding <;> cases kept : p d.finding <;>
            simp [insert, same, taken, kept, ih]

/-- A diagnostic with the severity of its rule in another table. -/
def relabel (table : Severities) (d : Diagnostic) : Diagnostic :=
  { d with severity := table.get d.finding.rule }

theorem map_relabel_insert (table : Severities) (ds : List Diagnostic) :
    (insert environment severity finding ds).map (relabel table)
      = insert environment (table.get finding.rule) finding (ds.map (relabel table)) := by
  induction ds with
  | nil => rfl
  | cons d rest ih =>
      cases same : d.finding.same finding <;> simp [insert, relabel, alsoIn, same, ih]

/-- Which of two diagnostics of one rule stands first does not depend on how severe it is. -/
theorem le_relabel {a b : Diagnostic} (table : Severities) (severity : a.severity = b.severity)
    (rule : a.finding.rule = b.finding.rule) :
    a.le b = (a.relabel table).le (b.relabel table) := by
  simp [le, compare, relabel, severity, rule]

end Diagnostic

namespace Check

section

variable {severities : Severities} {p : Finding → Bool} (shared : Finding.Shared p)

include shared

theorem filter_foldl_merge (sightings : List Sighting) (ds : List Diagnostic) :
    (sightings.foldl (merge severities) ds).filter (p ·.finding)
      = (sightings.filter (p ·.2)).foldl (merge severities) (ds.filter (p ·.finding)) := by
  rw [List.foldl_filter]
  refine (List.foldl_hom (List.filter fun d : Diagnostic => p d.finding) fun ds s => ?_).symm
  exact (Diagnostic.filter_insert shared ds).symm

end

theorem map_relabel_foldl_merge (severities table : Severities) (sightings : List Sighting)
    (ds : List Diagnostic) :
    (sightings.foldl (merge severities) ds).map (Diagnostic.relabel table)
      = sightings.foldl (merge table) (ds.map (Diagnostic.relabel table)) :=
  (List.foldl_hom (List.map (Diagnostic.relabel table)) fun ds _ =>
    (Diagnostic.map_relabel_insert table ds).symm).symm

/-- What is reported of some sightings. -/
def reported (severities : Severities) (sightings : List Sighting) : List Diagnostic :=
  (sightings.foldl (merge severities) []).mergeSort Diagnostic.le

section

variable (settings : CheckSettings) (m : Manifest)

theorem filter_sightings (p : Finding → Bool) : (sightings settings m).filter (p ·.2) =
    settings.matrix.environments.flatMap fun environment =>
      ((ofEnvironment settings m environment).filter p).map (environment, ·) := by
  simp only [sightings, List.filter_flatMap, List.filter_map]
  rfl

theorem run_diagnostics :
    (run settings m).diagnostics = reported settings.severities (sightings settings m) := by
  rw [run, reportOf, diagnostics_eq_foldl, reported]

end

section

variable {severities : Severities} {sightings : List Sighting}

theorem merged_reported : Merged severities sightings (reported severities sightings) :=
  (Merged.nil.foldl sightings).perm (List.mergeSort_perm _ _).symm

theorem sorted_reported :
    (reported severities sightings).Pairwise fun a b => a.le b = true :=
  List.pairwise_mergeSort Diagnostic.le_trans Diagnostic.le_total _

theorem filter_reported {p : Finding → Bool} (shared : Finding.Shared p) :
    (reported severities sightings).filter (p ·.finding)
      = reported severities (sightings.filter (p ·.2)) := by
  rw [reported, filter_mergeSort Diagnostic.le_trans Diagnostic.le_total,
    filter_foldl_merge shared, reported]
  rfl

theorem reported_congr {table : Severities}
    (agree : ∀ s ∈ sightings, severities.get s.2.rule = table.get s.2.rule) :
    reported severities sightings = reported table sightings := by
  have merged : sightings.foldl (merge severities) [] = sightings.foldl (merge table) [] :=
    List.foldl_ext _ _ _ fun ds s seen => by rw [merge, agree s seen, ← merge]
  rw [reported, merged, reported]

/-- If only one rule is broken, another table changes the severity of the diagnostics and nothing
    else. -/
theorem map_relabel_reported {rule : Rule} (table : Severities)
    (only : ∀ s ∈ sightings, s.2.rule = rule) :
    (reported severities sightings).map (Diagnostic.relabel table) = reported table sightings := by
  have merged : Merged severities sightings (sightings.foldl (merge severities) []) :=
    Merged.nil.foldl sightings
  have ruled : ∀ d ∈ sightings.foldl (merge severities) [], d.finding.rule = rule := by
    intro d member
    obtain ⟨s, seen, equal⟩ := merged.sound d member
    rw [← equal, only s seen]
  -- The order looks at severities, but those of a single rule are equal in either table.
  have level : ∀ a ∈ sightings.foldl (merge severities) [],
      ∀ b ∈ sightings.foldl (merge severities) [],
        a.le b = (a.relabel table).le (b.relabel table) := by
    intro a left b right
    have alike : a.finding.rule = b.finding.rule := (ruled a left).trans (ruled b right).symm
    refine Diagnostic.le_relabel table ?_ alike
    rw [merged.severity a left, merged.severity b right, alike]
  rw [reported, List.map_mergeSort level, map_relabel_foldl_merge, reported, List.map_nil]

end

theorem merged_run (settings : CheckSettings) (m : Manifest) :
    Merged settings.severities (sightings settings m) (run settings m).diagnostics := by
  rw [run_diagnostics]
  exact merged_reported

end Check

end PinFloor
