import PinFloor.Proofs.Check.Findings
import PinFloor.Proofs.Check.Index

/-! # Merging the findings of all environments

A check makes its findings environment by environment and adds each to the diagnostics as it is
made. `Merged` says what the diagnostics have to do with the findings made so far; one addition
keeps it, so it holds at the end of every check.
-/

namespace PinFloor

namespace Diagnostic

section

variable {environment : TargetEnvironment} {severity : Severity} {finding : Finding}

/-- A diagnostic with an environment more, if it is of this finding. -/
def extend (environment : TargetEnvironment) (finding : Finding) (d : Diagnostic) : Diagnostic :=
  if d.finding.same finding then d.alsoIn environment else d

theorem extend_finding (d : Diagnostic) : (d.extend environment finding).finding = d.finding := by
  rw [extend]
  split <;> rfl

theorem extend_severity (d : Diagnostic) :
    (d.extend environment finding).severity = d.severity := by
  rw [extend]
  split <;> rfl

theorem insert_of_known {ds : List Diagnostic}
    (apart : ds.Pairwise fun a b => a.finding.same b.finding = false)
    (known : ∃ d ∈ ds, d.finding.same finding = true) :
    insert environment severity finding ds = ds.map (extend environment finding) := by
  induction ds with
  | nil => simp at known
  | cons d rest ih =>
      cases found : d.finding.same finding with
      | true =>
          -- No later diagnostic is of the finding too, so extending them changes nothing.
          have later : ∀ x ∈ rest, x.extend environment finding = x := by
            intro x member
            have differs : x.finding.same finding = false := by
              rw [Finding.same_comm, ← Finding.same_congr found]
              exact List.rel_of_pairwise_cons apart member
            simp [extend, differs]
          have unchanged : rest.map (extend environment finding) = rest :=
            (List.map_congr_left later).trans (List.map_id rest)
          rw [List.map_cons, unchanged]
          simp [insert, extend, found]
      | false =>
          have known : ∃ x ∈ rest, x.finding.same finding = true := by
            simpa [found] using known
          simp [insert, extend, found, ih apart.of_cons known]

end

end Diagnostic

namespace Check

/-- A finding and the environment in which it is made. -/
abbrev Sighting := TargetEnvironment × Finding

/-- The environments in which a finding is made, in the order of the sightings. -/
def seenIn (f : Finding) (sightings : List Sighting) : List TargetEnvironment :=
  (sightings.filter (f.same ·.2)).map Prod.fst

theorem seenIn_append (f : Finding) (earlier later : List Sighting) :
    seenIn f (earlier ++ later) = seenIn f earlier ++ seenIn f later := by
  simp [seenIn]

theorem mem_seenIn {f : Finding} {sightings : List Sighting} {environment : TargetEnvironment} :
    environment ∈ seenIn f sightings ↔ ∃ g, (environment, g) ∈ sightings ∧ f.same g = true := by
  simp [seenIn]

theorem seenIn_eq_nil {f : Finding} {sightings : List Sighting}
    (unseen : ∀ s ∈ sightings, f.same s.2 = false) : seenIn f sightings = [] := by
  simpa [seenIn] using unseen

/-- Diagnostics and the sightings that they come from. Each finding has one diagnostic, with the
    severity of its rule, and with the environments in which it was seen, as often as it was. -/
structure Merged (severities : Severities) (sightings : List Sighting) (ds : List Diagnostic) :
    Prop where
  apart : ds.Pairwise fun a b => a.finding.same b.finding = false
  complete : ∀ s ∈ sightings, ∃ d ∈ ds, d.finding.same s.2 = true
  sound : ∀ d ∈ ds, ∃ s ∈ sightings, s.2 = d.finding
  severity : ∀ d ∈ ds, d.severity = severities.get d.finding.rule
  environments : ∀ d ∈ ds, d.environments = seenIn d.finding sightings

/-- Adds a finding with its environment to diagnostics. -/
def merge (severities : Severities) (ds : List Diagnostic) (s : Sighting) : List Diagnostic :=
  Diagnostic.insert s.1 (severities.get s.2.rule) s.2 ds

namespace Merged

variable {severities : Severities} {sightings : List Sighting} {ds : List Diagnostic}

theorem nil : Merged severities [] [] := by
  constructor <;> simp

theorem insert_new (merged : Merged severities sightings ds) (s : Sighting)
    (new : ∀ d ∈ ds, d.finding.same s.2 = false) :
    Merged severities (sightings ++ [s]) (merge severities ds s) := by
  rw [merge, Diagnostic.insert_of_new new]
  have unseen : ∀ x ∈ sightings, s.2.same x.2 = false := by
    intro x member
    obtain ⟨d, inside, known⟩ := merged.complete x member
    rw [Finding.same_comm, ← Finding.same_congr known]
    exact new d inside
  constructor
  · refine List.pairwise_append.mpr ⟨merged.apart, List.pairwise_singleton _ _, ?_⟩
    intro d inside x last
    rw [List.mem_singleton.mp last]
    exact new d inside
  · intro x member
    rcases List.mem_append.mp member with member | member
    · obtain ⟨d, inside, known⟩ := merged.complete x member
      exact ⟨d, List.mem_append_left _ inside, known⟩
    · rw [List.mem_singleton.mp member]
      exact ⟨_, List.mem_append_right _ List.mem_cons_self, Finding.same_refl _⟩
  · intro d inside
    rcases List.mem_append.mp inside with inside | inside
    · obtain ⟨x, member, equal⟩ := merged.sound d inside
      exact ⟨x, List.mem_append_left _ member, equal⟩
    · rw [List.mem_singleton.mp inside]
      exact ⟨s, List.mem_append_right _ List.mem_cons_self, rfl⟩
  · intro d inside
    rcases List.mem_append.mp inside with inside | inside
    · exact merged.severity d inside
    · rw [List.mem_singleton.mp inside]
  · intro d inside
    rcases List.mem_append.mp inside with inside | inside
    · have elsewhere : seenIn d.finding [s] = [] := seenIn_eq_nil (by simpa using new d inside)
      rw [merged.environments d inside, seenIn_append, elsewhere, List.append_nil]
    · rw [List.mem_singleton.mp inside, seenIn_append, seenIn_eq_nil unseen]
      simp [seenIn]

theorem insert_known (merged : Merged severities sightings ds) (s : Sighting)
    (known : ∃ d ∈ ds, d.finding.same s.2 = true) :
    Merged severities (sightings ++ [s]) (merge severities ds s) := by
  rw [merge, Diagnostic.insert_of_known merged.apart known]
  constructor
  · rw [List.pairwise_map]
    simpa only [Diagnostic.extend_finding] using merged.apart
  · intro x member
    have original : ∃ d ∈ ds, d.finding.same x.2 = true := by
      rcases List.mem_append.mp member with member | member
      · exact merged.complete x member
      · rw [List.mem_singleton.mp member]
        exact known
    obtain ⟨d, inside, same⟩ := original
    exact ⟨_, List.mem_map_of_mem inside, by rw [Diagnostic.extend_finding]; exact same⟩
  · intro extended member
    obtain ⟨d, inside, rfl⟩ := List.mem_map.mp member
    obtain ⟨x, seen, equal⟩ := merged.sound d inside
    exact ⟨x, List.mem_append_left _ seen, by rw [Diagnostic.extend_finding]; exact equal⟩
  · intro extended member
    obtain ⟨d, inside, rfl⟩ := List.mem_map.mp member
    rw [Diagnostic.extend_severity, Diagnostic.extend_finding]
    exact merged.severity d inside
  · intro extended member
    obtain ⟨d, inside, rfl⟩ := List.mem_map.mp member
    rw [Diagnostic.extend_finding, seenIn_append, ← merged.environments d inside]
    cases same : d.finding.same s.2 <;> simp [Diagnostic.extend, seenIn, same]

/-- Adding one finding keeps the diagnostics merged. -/
theorem insert (merged : Merged severities sightings ds) (s : Sighting) :
    Merged severities (sightings ++ [s]) (merge severities ds s) := by
  by_cases known : ∃ d ∈ ds, d.finding.same s.2 = true
  · exact merged.insert_known s known
  · refine merged.insert_new s fun d inside => ?_
    exact Bool.eq_false_iff.mpr fun same => known ⟨d, inside, same⟩

/-- In what order the diagnostics stand does not matter. -/
theorem perm {sorted : List Diagnostic} (merged : Merged severities sightings ds)
    (same : ds.Perm sorted) : Merged severities sightings sorted where
  apart := same.pairwise merged.apart fun differ => (Finding.same_comm _ _).trans differ
  complete s member :=
    have ⟨d, inside, known⟩ := merged.complete s member
    ⟨d, same.mem_iff.mp inside, known⟩
  sound d inside := merged.sound d (same.mem_iff.mpr inside)
  severity d inside := merged.severity d (same.mem_iff.mpr inside)
  environments d inside := merged.environments d (same.mem_iff.mpr inside)

theorem foldl (later : List Sighting) (merged : Merged severities sightings ds) :
    Merged severities (sightings ++ later) (later.foldl (merge severities) ds) := by
  induction later generalizing sightings ds with
  | nil => simpa using merged
  | cons s rest ih => simpa using ih (merged.insert s)

end Merged

/-- The findings of a check with their environments, in the order in which they are made. -/
def sightings (settings : CheckSettings) (m : Manifest) : List Sighting :=
  settings.matrix.environments.flatMap fun environment =>
    (ofEnvironment settings m environment).map (environment, ·)

section

variable {settings : CheckSettings} {m : Manifest} {environment : TargetEnvironment}
  {d : Diagnostic} {f : Finding}

theorem mem_sightings : (environment, f) ∈ sightings settings m ↔
    environment ∈ settings.matrix.environments ∧ f ∈ ofEnvironment settings m environment := by
  simp [sightings]

/-- A check adds its findings one after the other, each with the severity of its rule. -/
theorem findings_eq_addAll (settings : CheckSettings) (m : Manifest) :
    findings settings m = Findings.empty.addAll
      ((sightings settings m).map fun s => ⟨s.1, settings.severities.get s.2.rule, s.2⟩) := by
  rw [Findings.addAll, List.foldl_map, sightings, List.foldl_flatMap]
  simp only [List.foldl_map]
  rfl

theorem diagnostics_eq_foldl (settings : CheckSettings) (m : Manifest) :
    diagnostics settings m = (sightings settings m).foldl (merge settings.severities) [] := by
  rw [diagnostics, findings_eq_addAll, Findings.exact_empty.diagnostics_addAll, List.foldl_map]
  rfl

/-- The diagnostics of a check are the merged findings of all environments. -/
theorem merged_diagnostics (settings : CheckSettings) (m : Manifest) :
    Merged settings.severities (sightings settings m) (diagnostics settings m) := by
  rw [diagnostics_eq_foldl]
  simpa using Merged.nil.foldl (sightings settings m)

theorem mem_run_diagnostics :
    d ∈ (run settings m).diagnostics ↔ d ∈ diagnostics settings m :=
  List.mem_mergeSort

/-- A finding made in an environment of the matrix has a diagnostic, which names the environment. -/
theorem exists_diagnostic (inside : environment ∈ settings.matrix.environments)
    (found : f ∈ ofEnvironment settings m environment) :
    ∃ d ∈ (run settings m).diagnostics, d.finding.same f = true ∧ environment ∈ d.environments := by
  have merged := merged_diagnostics settings m
  have seen : (environment, f) ∈ sightings settings m := mem_sightings.mpr ⟨inside, found⟩
  obtain ⟨d, member, same⟩ := merged.complete _ seen
  refine ⟨d, mem_run_diagnostics.mpr member, same, ?_⟩
  rw [merged.environments d member]
  exact mem_seenIn.mpr ⟨f, seen, same⟩

/-- A requirement with a floor is reported where its package has no constraint. -/
theorem exists_missing {name : PackageName} {r : Entry} {floor : Floor}
    (inside : environment ∈ settings.matrix.environments)
    (enabled : settings.severities.isEnabled .missingPin = true) (checked : name ∉ settings.ignore)
    (active : r ∈ m.requirementsOf environment name) (bare : m.constraintsOf environment name = [])
    (floored : r.floor? = some floor) :
    ∃ d ∈ (run settings m).diagnostics, d.finding.rule = .missingPin ∧
      environment ∈ d.environments := by
  have found : missing r floor ∈ ofEnvironment settings m environment :=
    mem_ofEnvironment_iff.mpr ⟨enabled, name, checked, .fault active (.missing bare floored)⟩
  obtain ⟨d, member, same, named⟩ := exists_diagnostic inside found
  exact ⟨d, member, Finding.rule_eq_of_same same, named⟩

theorem environments_ne_nil (member : d ∈ (run settings m).diagnostics) : d.environments ≠ [] := by
  have merged := merged_diagnostics settings m
  have member := mem_run_diagnostics.mp member
  obtain ⟨⟨environment, f⟩, seen, equal⟩ := merged.sound d member
  refine List.ne_nil_of_mem (?_ : environment ∈ d.environments)
  rw [merged.environments d member, mem_seenIn]
  exact ⟨f, seen, equal ▸ Finding.same_refl f⟩

/-- A diagnostic names an environment only for a finding made there. -/
theorem exists_finding (member : d ∈ (run settings m).diagnostics)
    (named : environment ∈ d.environments) :
    environment ∈ settings.matrix.environments ∧
      ∃ f ∈ ofEnvironment settings m environment, d.finding.same f = true := by
  have merged := merged_diagnostics settings m
  rw [merged.environments d (mem_run_diagnostics.mp member)] at named
  obtain ⟨f, seen, same⟩ := mem_seenIn.mp named
  obtain ⟨inside, found⟩ := mem_sightings.mp seen
  exact ⟨inside, f, found, same⟩

end

end Check

end PinFloor
