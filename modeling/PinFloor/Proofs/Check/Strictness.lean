import PinFloor.Proofs.Check.Severities

/-! # Stricter settings

A check fails because of a finding: one that is made in an environment of the matrix about a package
that is not ignored, and whose rule is severe enough. Which findings there are to make in an
environment does not depend on the settings. So what fails a check fails every stricter one.
-/

namespace PinFloor

/-- A finding this severe makes a check fail. -/
def Severity.Fails (strict : Bool) (severity : Severity) : Prop :=
  severity = .error ∨ strict = true ∧ severity = .warning

namespace Severity

variable {strict strict' : Bool} {severity severity' : Severity}

theorem Fails.ne_ignore (fails : severity.Fails strict) : severity ≠ .ignore := by
  rintro rfl
  rcases fails with wrong | ⟨-, wrong⟩ <;> cases wrong

theorem Fails.mono (fails : severity.Fails strict) (strictly : strict = true → strict' = true)
    (least : severity.rank ≤ severity'.rank) : severity'.Fails strict' := by
  cases severity' with
  | error => exact .inl rfl
  | warning =>
      rcases fails with rfl | ⟨on, -⟩
      · simp [rank] at least
      · exact .inr ⟨strictly on, rfl⟩
  | ignore =>
      rcases fails with rfl | ⟨-, rfl⟩ <;> simp [rank] at least

end Severity

theorem Report.isSuccess_eq_false_iff {r : Report} :
    r.isSuccess = false ↔ ∃ d ∈ r.diagnostics, d.severity.Fails r.strict := by
  have errors : r.errors ≠ 0 ↔ ∃ d ∈ r.diagnostics, d.severity = .error := by
    simp [Report.errors]
  have warnings : 0 < r.warnings ↔ ∃ d ∈ r.diagnostics, d.severity = .warning := by
    simp [Report.warnings]
  have failed : r.isSuccess = false ↔ r.errors ≠ 0 ∨ r.strict = true ∧ 0 < r.warnings := by
    rw [Report.isSuccess]
    by_cases clean : r.errors = 0 <;> simp [clean]
  rw [failed, errors, warnings]
  constructor
  · rintro (⟨d, member, severity⟩ | ⟨on, d, member, severity⟩)
    · exact ⟨d, member, .inl severity⟩
    · exact ⟨d, member, .inr ⟨on, severity⟩⟩
  · rintro ⟨d, member, severity | ⟨on, severity⟩⟩
    · exact .inl ⟨d, member, severity⟩
    · exact .inr ⟨on, d, member, severity⟩

/-- Settings that take each rule at least as severely, are strict if the others are, and check in
    all of their environments every package that they check. -/
structure CheckSettings.AsStrictAs (tight lax : CheckSettings) : Prop where
  severities : ∀ rule, (lax.severities.get rule).rank ≤ (tight.severities.get rule).rank
  strict : lax.strict = true → tight.strict = true
  environments : ∀ environment ∈ lax.matrix.environments, environment ∈ tight.matrix.environments
  ignore : ∀ name ∈ tight.ignore, name ∈ lax.ignore

namespace Check

variable {settings tight lax : CheckSettings} {m : Manifest}

/-- Something is found that makes the check fail. -/
def Fails (settings : CheckSettings) (m : Manifest) : Prop :=
  ∃ environment ∈ settings.matrix.environments, ∃ name, name ∉ settings.ignore ∧
    ∃ f, ArisesIn m environment name f ∧
      (settings.severities.get f.rule).Fails settings.strict

theorem isSuccess_eq_false_iff : (run settings m).isSuccess = false ↔ Fails settings m := by
  rw [Report.isSuccess_eq_false_iff]
  constructor
  · rintro ⟨d, member, severe⟩
    obtain ⟨environment, named⟩ := List.exists_mem_of_ne_nil _ (environments_ne_nil member)
    obtain ⟨inside, f, found, same⟩ := exists_finding member named
    obtain ⟨-, name, checked, arises⟩ := mem_ofEnvironment_iff.mp found
    rw [(merged_run settings m).severity d member, Finding.rule_eq_of_same same] at severe
    exact ⟨environment, inside, name, checked, f, arises, severe⟩
  · rintro ⟨environment, inside, name, checked, f, arises, severe⟩
    have enabled : settings.severities.isEnabled f.rule = true :=
      Severities.isEnabled_iff.mpr severe.ne_ignore
    have found : f ∈ ofEnvironment settings m environment :=
      mem_ofEnvironment_iff.mpr ⟨enabled, name, checked, arises⟩
    obtain ⟨d, member, same, -⟩ := exists_diagnostic inside found
    refine ⟨d, member, ?_⟩
    rw [(merged_run settings m).severity d member, Finding.rule_eq_of_same same]
    exact severe

theorem Fails.mono (fails : Fails lax m) (stricter : tight.AsStrictAs lax) : Fails tight m := by
  obtain ⟨environment, inside, name, checked, f, arises, severe⟩ := fails
  refine ⟨environment, stricter.environments environment inside, name, ?_, f, arises, ?_⟩
  · exact fun ignored => checked (stricter.ignore name ignored)
  · exact severe.mono stricter.strict (stricter.severities f.rule)

/-- Stricter settings never pass what laxer ones fail. -/
theorem failure_kept_by_stricter (m : Manifest) (stricter : tight.AsStrictAs lax)
    (failed : (run lax m).isSuccess = false) : (run tight m).isSuccess = false :=
  isSuccess_eq_false_iff.mpr ((isSuccess_eq_false_iff.mp failed).mono stricter)

/-- A strict check fails by a warning about a floor without a pin; so does one that takes it for an
    error, on a platform more, and ignores no package. -/
theorem failure_kept_by_error :
    let lax : CheckSettings :=
      { CheckSettings.onLinux with severities := .standard, ignore := [⟨"ply"⟩], strict := true }
    let tight : CheckSettings :=
      { CheckSettings.onLinux with
        matrix := ⟨[⟨3, 12, none⟩], [.windows, .linux]⟩, strict := true }
    let m : Manifest := {
      requirements := [.plain "requirements.txt" "six" [⟨.atLeast, .ofRelease [1, 16]⟩]] }
    tight.AsStrictAs lax ∧ (run lax m).isSuccess = false ∧ (run tight m).isSuccess = false := by
  intro lax tight m
  have stricter : tight.AsStrictAs lax := by
    constructor
    · intro rule
      cases rule <;> decide
    · exact fun _ => rfl
    · decide
    · nofun
  have failed : (run lax m).isSuccess = false := by
    rw [Report.isSuccess_eq_false_iff]
    obtain ⟨d, member, ruled, -⟩ : ∃ d ∈ (run lax m).diagnostics, _ ∧ _ :=
      @exists_missing _ _ ⟨⟨3, 12, none⟩, .linux⟩ ⟨"six"⟩ _ _ List.mem_cons_self rfl
        (by decide) List.mem_cons_self rfl rfl
    refine ⟨d, member, .inr ⟨rfl, ?_⟩⟩
    rw [(merged_run lax m).severity d member, ruled]
    rfl
  exact ⟨stricter, failed, failure_kept_by_stricter m stricter failed⟩

end Check

end PinFloor
