import PinFloor.Proofs.Check.Rules
import PinFloor.Proofs.Check.Selection

/-! # Severities filter and label

A rule that is switched off still holds back the rules that come after it: what is found is settled
before the severities are looked at. They decide which findings are kept and how severe these are.
-/

namespace PinFloor

namespace CheckSettings

/-- The settings with another table of severities. -/
def withSeverities (settings : CheckSettings) (table : Severities) : CheckSettings :=
  { settings with severities := table }

end CheckSettings

namespace Diagnostic

/-- All that a diagnostic says but its severity. -/
def unlabelled (d : Diagnostic) : Finding × List TargetEnvironment := (d.finding, d.environments)

theorem unlabelled_relabel (table : Severities) (d : Diagnostic) :
    (d.relabel table).unlabelled = d.unlabelled := rfl

end Diagnostic

namespace Severities

variable {table : Severities} {rule other : Rule}

theorem isEnabled_iff : table.isEnabled rule = true ↔ table.get rule ≠ .ignore := by
  simp [isEnabled]

theorem get_set_of_ne (differ : other ≠ rule) (severity : Severity) :
    (table.set rule severity).get other = table.get other := by
  simp [set, differ]

theorem isEnabled_set_ignore :
    (table.set rule .ignore).isEnabled other = (other != rule && table.isEnabled other) := by
  by_cases here : other = rule <;> simp [isEnabled, set, here]

end Severities

namespace Check

variable {settings : CheckSettings} {m : Manifest} {s t : Severities} {p : Rule → Bool}

theorem filter_foundAbout_of_agree {environment : TargetEnvironment} {name : PackageName}
    (agree : ∀ rule, p rule = true → s.isEnabled rule = t.isEnabled rule) :
    (foundAbout (settings.withSeverities s) m environment name).filter (p ·.rule)
      = (foundAbout (settings.withSeverities t) m environment name).filter (p ·.rule) := by
  have kept (f : Finding) :
      (p f.rule && s.isEnabled f.rule) = (p f.rule && t.isEnabled f.rule) := by
    cases taken : p f.rule with
    | false => rfl
    | true => rw [agree f.rule taken]
  by_cases ignored : name ∈ settings.ignore
  · have nothing (table : Severities) :
        foundAbout (settings.withSeverities table) m environment name = [] :=
      foundAbout_of_ignored ignored
    rw [nothing, nothing]
  · have found (table : Severities) :
        foundAbout (settings.withSeverities table) m environment name
          = (ofPackage (m.isRequired name) name (m.requirementsOf environment name)
              (m.constraintsOf environment name)).filter fun f => table.isEnabled f.rule :=
      foundAbout_of_checked ignored
    rw [found, found, List.filter_filter, List.filter_filter]
    simp only [kept]

theorem filter_sightings_of_agree
    (agree : ∀ rule, p rule = true → s.isEnabled rule = t.isEnabled rule) :
    (sightings (settings.withSeverities s) m).filter (p ·.2.rule)
      = (sightings (settings.withSeverities t) m).filter (p ·.2.rule) := by
  simp only [filter_sightings _ _ (p ·.rule), ofEnvironment_eq, List.filter_flatMap,
    filter_foundAbout_of_agree agree]
  rfl

theorem isEnabled_of_mem_sightings {x : Sighting} (seen : x ∈ sightings settings m) :
    settings.severities.isEnabled x.2.rule = true :=
  (mem_ofEnvironment_iff.mp (mem_sightings.mp seen).2).1

theorem filter_rule_run (p : Rule → Bool) :
    (run (settings.withSeverities s) m).diagnostics.filter (p ·.finding.rule)
      = reported s ((sightings (settings.withSeverities s) m).filter (p ·.2.rule)) := by
  rw [run_diagnostics, filter_reported (Finding.shared_rule p)]
  rfl

theorem run_unlabelled_eq {rule : Rule} (left : s.isEnabled rule = true)
    (right : t.isEnabled rule = true) :
    ((run (settings.withSeverities s) m).diagnostics.filter (·.finding.rule == rule)).map
        Diagnostic.unlabelled
      = ((run (settings.withSeverities t) m).diagnostics.filter (·.finding.rule == rule)).map
        Diagnostic.unlabelled := by
  have agree : ∀ other, (other == rule) = true → s.isEnabled other = t.isEnabled other := by
    intro other here
    rw [beq_iff_eq.mp here, left, right]
  have only : ∀ x ∈ (sightings (settings.withSeverities s) m).filter (·.2.rule == rule),
      x.2.rule = rule := fun x kept => beq_iff_eq.mp (List.mem_filter.mp kept).2
  rw [filter_rule_run (· == rule), filter_rule_run (· == rule),
    ← filter_sightings_of_agree agree, ← map_relabel_reported t only, List.map_map]
  exact List.map_congr_left fun d _ => (Diagnostic.unlabelled_relabel t d).symm

theorem rule_enabled_of_mem_run {d : Diagnostic} (member : d ∈ (run settings m).diagnostics) :
    settings.severities.isEnabled d.finding.rule = true := by
  obtain ⟨x, seen, equal⟩ := (merged_run settings m).sound d member
  rw [← equal]
  exact isEnabled_of_mem_sightings seen

theorem sightings_switched_off (rule : Rule) :
    sightings (settings.withSeverities (s.set rule .ignore)) m
      = (sightings (settings.withSeverities s) m).filter (·.2.rule != rule) := by
  have others : ∀ x ∈ sightings (settings.withSeverities (s.set rule .ignore)) m,
      (x.2.rule != rule) = true := by
    intro x seen
    have enabled : (s.set rule .ignore).isEnabled x.2.rule = true := isEnabled_of_mem_sightings seen
    rw [Severities.isEnabled_set_ignore, Bool.and_eq_true] at enabled
    exact enabled.1
  have agree : ∀ other, (other != rule) = true →
      (s.set rule .ignore).isEnabled other = s.isEnabled other := by
    intro other differs
    rw [Severities.isEnabled_set_ignore, differs, Bool.true_and]
  rw [← filter_sightings_of_agree agree, List.filter_eq_self.mpr others]

theorem run_switched_off (rule : Rule) :
    (run (settings.withSeverities (s.set rule .ignore)) m).diagnostics
      = (run (settings.withSeverities s) m).diagnostics.filter (·.finding.rule != rule) := by
  rw [filter_rule_run (· != rule), run_diagnostics, sightings_switched_off]
  refine reported_congr fun x kept => ?_
  exact Severities.get_set_of_ne (bne_iff_ne.mp (List.mem_filter.mp kept).2) .ignore

/-- The severities decide which findings are reported and how they are labelled, and nothing else.
    A rule that is enabled in two tables has the same diagnostics with both but for their severity,
    which is that of the rule in the table; a rule set to `ignore` has none; and to switch a rule
    off takes its diagnostics from the report and leaves all others as they are. -/
theorem severities_filter_and_label (settings : CheckSettings) (m : Manifest) (s t : Severities) :
    (∀ rule, s.isEnabled rule = true → t.isEnabled rule = true →
      ((run (settings.withSeverities s) m).diagnostics.filter (·.finding.rule == rule)).map
          Diagnostic.unlabelled
        = ((run (settings.withSeverities t) m).diagnostics.filter (·.finding.rule == rule)).map
          Diagnostic.unlabelled) ∧
    (∀ d ∈ (run (settings.withSeverities s) m).diagnostics,
      d.severity = s.get d.finding.rule) ∧
    (∀ rule, s.get rule = .ignore →
      (run (settings.withSeverities s) m).diagnostics.filter (·.finding.rule == rule) = []) ∧
    ∀ rule, (run (settings.withSeverities (s.set rule .ignore)) m).diagnostics
      = (run (settings.withSeverities s) m).diagnostics.filter (·.finding.rule != rule) := by
  refine ⟨fun rule => run_unlabelled_eq, ?_, ?_, run_switched_off⟩
  · exact (merged_run (settings.withSeverities s) m).severity
  · intro rule ignored
    refine List.filter_eq_nil_iff.mpr fun d member here => ?_
    have enabled := rule_enabled_of_mem_run member
    rw [beq_iff_eq.mp here] at enabled
    exact Severities.isEnabled_iff.mp enabled ignored

/-- A floor without a pin is an error in one table and a warning in the other, and the same but for
    that. -/
theorem missing_pin_relabelled :
    let settings := CheckSettings.onLinux
    let s : Severities := ⟨fun _ => .error⟩
    let t := Severities.standard
    let m : Manifest := {
      requirements := [.plain "requirements.txt" "six" [⟨.atLeast, .ofRelease [1, 16]⟩]] }
    let found (table : Severities) :=
      (run (settings.withSeverities table) m).diagnostics.filter (·.finding.rule == .missingPin)
    s.get .missingPin ≠ t.get .missingPin ∧ found s ≠ [] ∧
      (found s).map Diagnostic.unlabelled = (found t).map Diagnostic.unlabelled := by
  intro settings s t m found
  refine ⟨nofun, ?_, (severities_filter_and_label settings m s t).1 .missingPin rfl rfl⟩
  obtain ⟨d, member, ruled, -⟩ : ∃ d ∈ (run (settings.withSeverities s) m).diagnostics, _ ∧ _ :=
    @exists_missing _ _ ⟨⟨3, 12, none⟩, .linux⟩ ⟨"six"⟩ _ _ List.mem_cons_self rfl List.not_mem_nil
      List.mem_cons_self rfl rfl
  exact List.ne_nil_of_mem (List.mem_filter.mpr ⟨member, beq_iff_eq.mpr ruled⟩)

end Check

end PinFloor
