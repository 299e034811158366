import PinFloor.Proofs.Check.Merging

/-! # What the rules promise

A report is empty exactly if the constraints of every package fit its requirements in every
environment, and the rules about a single pin and about pins in conflict report exactly what breaks
them.
-/

namespace PinFloor

namespace Entry

/-- A pin suits a requirement: it is not below the floor and, if it is exact, not excluded. -/
structure Accepts (r : Entry) (pin : Pin) : Prop where
  floor : ∀ floor version, r.floor? = some floor → pin.version? = some version →
    floor.admits version = true
  specifiers : ∀ list version, r.specifiers? = some list → pin = .exact version →
    Specifier.allAllow list version = true

/-- A requirement breaks one of the rules about a single pin. A pin below the floor is not also
    excluded. -/
def Breaks (r : Entry) (pin : Pin) : Rule → Prop
  | .belowFloor => ∃ floor version, r.floor? = some floor ∧ pin.version? = some version ∧
      floor.admits version = false
  | .excludedPin => ∃ version list, pin = .exact version ∧ r.specifiers? = some list ∧
      Specifier.allAllow list version = false ∧
      ∀ floor, r.floor? = some floor → floor.admits version = true
  | _ => False

end Entry

/-- The constraints of a package fit its requirements in an environment. -/
structure Manifest.Consistent (m : Manifest) (environment : TargetEnvironment)
    (name : PackageName) : Prop where
  pinned : ∀ c ∈ m.constraintsOf environment name, c.pin.isPinned = true
  required : m.constraintsOf environment name ≠ [] → ∃ r ∈ m.requirements, r.name = name
  covered : m.requirementsOf environment name ≠ [] → m.constraintsOf environment name = [] →
    ∀ r ∈ m.requirementsOf environment name, r.floor? = none
  agreed : m.requirementsOf environment name ≠ [] → m.constraintsOf environment name ≠ [] →
    ∃ pin : Pin, pin.IsSole (m.constraintsOf environment name) ∧
      ∀ r ∈ m.requirementsOf environment name, r.Accepts pin

/-- A package that no entry is about is consistent. -/
theorem Manifest.consistent_of_absent {m : Manifest} {environment : TargetEnvironment}
    {name : PackageName} (absent : ∀ e ∈ m.requirements ++ m.constraints, e.name ≠ name) :
    m.Consistent environment name := by
  have bare : m.constraintsOf environment name = [] :=
    List.eq_nil_iff_forall_not_mem.mpr fun c member =>
      have ⟨inside, _, named⟩ := mem_constraintsOf.mp member
      absent c (List.mem_append_right _ inside) named
  have idle : m.requirementsOf environment name = [] :=
    List.eq_nil_iff_forall_not_mem.mpr fun r member =>
      have ⟨inside, _, named⟩ := mem_requirementsOf.mp member
      absent r (List.mem_append_left _ inside) named
  constructor <;> simp [bare, idle]

/-- A diagnostic says that a requirement of a package breaks a rule in an environment. -/
structure Diagnostic.Blames (d : Diagnostic) (rule : Rule) (name : PackageName) (origin : Origin)
    (environment : TargetEnvironment) : Prop where
  rule : d.finding.rule = rule
  package : d.finding.package = name
  requirement : ∃ o, d.finding.requirement = some o ∧ o.same origin = true
  environment : environment ∈ d.environments

namespace Check

variable {settings : CheckSettings} {m : Manifest} {environment : TargetEnvironment}
  {name : PackageName}

theorem accepts_of_no_fault {constraints : List Entry} {r : Entry} {pin : Pin}
    (sole : pin.IsSole constraints) (clean : ∀ f, ¬ Fault constraints r f) : r.Accepts pin := by
  have admitted : ∀ floor version, r.floor? = some floor → pin.version? = some version →
      floor.admits version = true := by
    intro floor version floored pinned
    exact Bool.of_not_eq_false fun low => clean _ (.below sole pinned floored low)
  refine ⟨admitted, ?_⟩
  rintro list version specified rfl
  exact Bool.of_not_eq_false fun refused =>
    clean _ (.excluded sole (fun floor floored => admitted floor version floored rfl)
      specified refused)

theorem no_fault_of_accepts {constraints : List Entry} {r : Entry} {pin : Pin} {f : Finding}
    (sole : pin.IsSole constraints) (accepts : r.Accepts pin) : ¬ Fault constraints r f := by
  intro fault
  cases fault with
  | missing bare => exact sole.ne_nil bare
  | below found pinned floored low =>
      cases sole.unique found
      rw [accepts.floor _ _ floored pinned] at low
      cases low
  | excluded found admitted specified refused =>
      rw [accepts.specifiers _ _ specified (sole.unique found).symm] at refused
      cases refused

theorem consistent_of_no_finding (clean : ∀ f, ¬ ArisesIn m environment name f) :
    m.Consistent environment name := by
  have pinned : ∀ c ∈ m.constraintsOf environment name, c.pin.isPinned = true :=
    fun c member => Bool.of_not_eq_false fun loose => clean _ (.unpinned member loose)
  refine ⟨pinned, ?_, ?_, ?_⟩
  · intro bound
    obtain ⟨c, member⟩ := List.exists_mem_of_ne_nil _ bound
    rw [← Manifest.isRequired_iff]
    exact Bool.of_not_eq_false fun stray => clean _ (.unused member stray)
  · intro used bare r member
    cases floored : r.floor? with
    | none => rfl
    | some floor => exact absurd (.fault member (.missing bare floored)) (clean _)
  · intro used bound
    obtain ⟨c, member⟩ := List.exists_mem_of_ne_nil _ bound
    rcases Pin.sole_or_conflict member (pinned c member) with ⟨pin, sole⟩ | conflict
    · exact ⟨pin, sole, fun r active =>
        accepts_of_no_fault sole fun f fault => clean f (.fault active fault)⟩
    · exact absurd (.conflicting used conflict) (clean _)

theorem no_finding_of_consistent {f : Finding} (consistent : m.Consistent environment name) :
    ¬ ArisesIn m environment name f := by
  intro arises
  cases arises with
  | unpinned member loose =>
      rw [consistent.pinned _ member] at loose
      cases loose
  | unused member stray =>
      rw [Manifest.isRequired_iff.mpr (consistent.required (List.ne_nil_of_mem member))] at stray
      cases stray
  | conflicting used conflict =>
      have ⟨a, member, _⟩ := conflict
      obtain ⟨pin, sole, -⟩ := consistent.agreed used (List.ne_nil_of_mem member)
      exact sole.not_conflict conflict
  | fault member fault =>
      have used := List.ne_nil_of_mem member
      by_cases bare : m.constraintsOf environment name = []
      · cases fault with
        | missing _ floored =>
            rw [consistent.covered used bare _ member] at floored
            cases floored
        | below sole | excluded sole => exact sole.ne_nil bare
      · obtain ⟨pin, sole, accepts⟩ := consistent.agreed used bare
        exact no_fault_of_accepts sole (accepts _ member) fault

theorem run_diagnostics_eq_nil_iff : (run settings m).diagnostics = [] ↔
    ∀ environment ∈ settings.matrix.environments, ofEnvironment settings m environment = [] := by
  constructor
  · intro empty environment inside
    refine List.eq_nil_iff_forall_not_mem.mpr fun f found => ?_
    obtain ⟨d, member, -⟩ := exists_diagnostic inside found
    rw [empty] at member
    cases member
  · intro clean
    refine List.eq_nil_iff_forall_not_mem.mpr fun d member => ?_
    obtain ⟨⟨environment, f⟩, seen, -⟩ :=
      (merged_diagnostics settings m).sound d (mem_run_diagnostics.mp member)
    obtain ⟨inside, found⟩ := mem_sightings.mp seen
    rw [clean environment inside] at found
    cases found

/-- With all rules enabled, a report is empty exactly if every package that is not ignored is
    consistent in every environment. -/
theorem clean_iff_consistent (settings : CheckSettings) (m : Manifest)
    (enabled : ∀ rule, settings.severities.isEnabled rule = true) :
    (run settings m).diagnostics = [] ↔
      ∀ environment ∈ settings.matrix.environments, ∀ name, name ∉ settings.ignore →
        m.Consistent environment name := by
  rw [run_diagnostics_eq_nil_iff]
  refine forall₂_congr fun environment inside => ?_
  rw [List.eq_nil_iff_forall_not_mem]
  simp only [mem_ofEnvironment_iff, enabled, true_and, not_exists, not_and]
  constructor
  · intro clean name checked
    exact consistent_of_no_finding fun f arises => clean f name checked arises
  · intro consistent f name checked arises
    exact no_finding_of_consistent (consistent name checked) arises

/-- An exact pin at the floor of the one requirement is clean. Another pin and another requirement,
    which apply on Windows only, make no difference on Linux. -/
theorem clean_of_fitting_pin :
    let settings := CheckSettings.onLinux
    let requirement := Entry.plain "requirements.txt" "six"
      [⟨.atLeast, .ofRelease [1, 16]⟩, ⟨.less, .ofRelease [2]⟩]
    let constraint := Entry.plain "constraints.txt" "six" [⟨.equal, .ofRelease [1, 16]⟩]
    let m : Manifest := {
      requirements := [
        requirement,
        (Entry.plain "requirements.txt" "six" [⟨.atLeast, .ofRelease [1, 17]⟩]).onWindows]
      constraints := [
        constraint,
        (Entry.plain "constraints.txt" "six" [⟨.equal, .ofRelease [1, 17]⟩]).onWindows] }
    (∀ rule, settings.severities.isEnabled rule = true) ∧
      (∀ environment ∈ settings.matrix.environments,
        m.requirementsOf environment ⟨"six"⟩ = [requirement] ∧
          m.constraintsOf environment ⟨"six"⟩ = [constraint]) ∧
      (run settings m).diagnostics = [] := by
  intro settings requirement constraint m
  have enabled : ∀ rule, settings.severities.isEnabled rule = true := fun _ => rfl
  have applying : ∀ environment ∈ settings.matrix.environments,
      m.requirementsOf environment ⟨"six"⟩ = [requirement] ∧
        m.constraintsOf environment ⟨"six"⟩ = [constraint] := by
    intro environment inside
    cases List.mem_singleton.mp inside
    exact ⟨rfl, rfl⟩
  refine ⟨enabled, applying, (clean_iff_consistent settings m enabled).mpr ?_⟩
  intro environment inside name _
  by_cases named : name = ⟨"six"⟩
  · subst named
    obtain ⟨requirements, constraints⟩ := applying environment inside
    constructor
    · rw [constraints, List.forall_mem_singleton]
      rfl
    · intro _
      exact ⟨requirement, List.mem_cons_self, rfl⟩
    · intro _ bare
      rw [constraints] at bare
      cases bare
    · intro _ _
      rw [requirements, constraints]
      refine ⟨.exact (.ofRelease [1, 16]), ⟨rfl, ?_⟩, List.forall_mem_singleton.mpr ?_⟩
      · intro c member _
        cases List.mem_singleton.mp member
        decide
      · constructor
        · intro floor version floored pinned
          cases floored
          cases pinned
          decide
        · intro list version specified pinned
          cases specified
          cases pinned
          decide
  · apply Manifest.consistent_of_absent
    intro e member
    have six : ∀ e ∈ m.requirements ++ m.constraints, e.name = ⟨"six"⟩ := by
      simp [m, requirement, constraint, Entry.name, Entry.plain, Entry.onWindows]
    rw [six e member]
    exact Ne.symm named

theorem breaks_of_arisesIn {rule : Rule} {f : Finding}
    (floorRule : rule = .belowFloor ∨ rule = .excludedPin)
    (arises : ArisesIn m environment name f) (ruled : f.rule = rule) :
    ∃ r ∈ m.requirementsOf environment name, ∃ pin : Pin,
      pin.IsSole (m.constraintsOf environment name) ∧ r.Breaks pin rule ∧
      f.requirement = some r.origin ∧ f.constraints = m.carriersOf environment name pin := by
  subst ruled
  cases arises with
  | unpinned | unused | conflicting => rcases floorRule with ruled | ruled <;> cases ruled
  | fault member fault =>
      cases fault with
      | missing => rcases floorRule with ruled | ruled <;> cases ruled
      | below sole pinned floored low =>
          exact ⟨_, member, _, sole, ⟨_, _, floored, pinned, low⟩, rfl, rfl⟩
      | excluded sole admitted specified refused =>
          exact ⟨_, member, _, sole, ⟨_, _, rfl, specified, refused, admitted⟩, rfl, rfl⟩

theorem exists_arisesIn_of_breaks {rule : Rule} {r : Entry} {pin : Pin}
    (member : r ∈ m.requirementsOf environment name)
    (sole : pin.IsSole (m.constraintsOf environment name)) (breaks : r.Breaks pin rule) :
    ∃ f, ArisesIn m environment name f ∧ f.rule = rule ∧ f.requirement = some r.origin := by
  cases rule with
  | belowFloor =>
      obtain ⟨floor, version, floored, pinned, low⟩ := breaks
      exact ⟨_, .fault member (.below sole pinned floored low), rfl, rfl⟩
  | excludedPin =>
      obtain ⟨version, list, rfl, specified, refused, admitted⟩ := breaks
      exact ⟨_, .fault member (.excluded sole admitted specified refused), rfl, rfl⟩
  | missingPin | conflictingPins | unpinnedConstraint | unusedPin => cases breaks

/-- A diagnostic has a finding of its rule and package behind it in each of its environments. -/
theorem arisesIn_of_diagnostic {d : Diagnostic} (member : d ∈ (run settings m).diagnostics)
    (named : environment ∈ d.environments) : d.finding.package ∉ settings.ignore ∧
      ∃ f, ArisesIn m environment d.finding.package f ∧ d.finding.same f = true := by
  obtain ⟨-, f, found, same⟩ := exists_finding member named
  obtain ⟨-, name, checked, arises⟩ := mem_ofEnvironment_iff.mp found
  rw [Finding.package_eq_of_same same, package_of_arisesIn arises]
  exact ⟨checked, f, arises, same⟩

theorem breaks_of_blames {rule : Rule} {origin : Origin} {d : Diagnostic}
    (floorRule : rule = .belowFloor ∨ rule = .excludedPin)
    (member : d ∈ (run settings m).diagnostics) (blames : d.Blames rule name origin environment) :
    name ∉ settings.ignore ∧ ∃ r ∈ m.requirementsOf environment name,
      r.origin.same origin = true ∧ ∃ pin : Pin,
        pin.IsSole (m.constraintsOf environment name) ∧ r.Breaks pin rule ∧
        sameList Origin.same d.finding.constraints (m.carriersOf environment name pin) = true := by
  obtain ⟨ruled, rfl, ⟨o, required, here⟩, named⟩ := blames
  obtain ⟨checked, f, arises, same⟩ := arisesIn_of_diagnostic member named
  rw [Finding.rule_eq_of_same same] at ruled
  obtain ⟨r, active, pin, sole, breaks, stands, carriers⟩ :=
    breaks_of_arisesIn floorRule arises ruled
  refine ⟨checked, r, active, ?_, pin, sole, breaks, ?_⟩
  · have places := Finding.requirement_same_of_same same
    rw [required, stands] at places
    rw [Origin.same_iff, ← (Origin.same_iff o origin).mp here]
    exact (Option.some.inj places).symm
  · rw [← carriers]
    exact Finding.constraints_same_of_same same

theorem exists_blames_of_breaks {rule : Rule} {r : Entry} {pin : Pin}
    (inside : environment ∈ settings.matrix.environments)
    (enabled : settings.severities.isEnabled rule = true) (checked : name ∉ settings.ignore)
    (active : r ∈ m.requirementsOf environment name)
    (sole : pin.IsSole (m.constraintsOf environment name)) (breaks : r.Breaks pin rule) :
    ∃ d ∈ (run settings m).diagnostics, d.Blames rule name r.origin environment := by
  obtain ⟨f, arises, rfl, stands⟩ := exists_arisesIn_of_breaks active sole breaks
  obtain ⟨d, member, same, named⟩ := exists_diagnostic inside
    (mem_ofEnvironment_iff.mpr ⟨enabled, name, checked, arises⟩)
  refine ⟨d, member, Finding.rule_eq_of_same same, ?_, ?_, named⟩
  · rw [Finding.package_eq_of_same same, package_of_arisesIn arises]
  · have places := Finding.requirement_same_of_same same
    rw [stands] at places
    obtain ⟨o, required, keys⟩ := Option.map_eq_some_iff.mp places
    exact ⟨o, required, (Origin.same_iff o r.origin).mpr keys⟩

/-- The rules about a single pin are exact. A requirement is blamed in an environment exactly if
    the constraints that apply there carry one pin and the requirement breaks the rule with it; the
    diagnostic then names the constraints that carry the pin, in their order. Origins are compared
    as places. -/
theorem floor_rules_exact {rule : Rule} (inside : environment ∈ settings.matrix.environments)
    (floorRule : rule = .belowFloor ∨ rule = .excludedPin)
    (enabled : settings.severities.isEnabled rule = true) (name : PackageName) (origin : Origin) :
    ((∃ d ∈ (run settings m).diagnostics, d.Blames rule name origin environment) ↔
      name ∉ settings.ignore ∧ ∃ r ∈ m.requirementsOf environment name,
        r.origin.same origin = true ∧ ∃ pin : Pin,
          pin.IsSole (m.constraintsOf environment name) ∧ r.Breaks pin rule) ∧
    ∀ d ∈ (run settings m).diagnostics, d.Blames rule name origin environment →
      ∃ pin : Pin, pin.IsSole (m.constraintsOf environment name) ∧
        sameList Origin.same d.finding.constraints (m.carriersOf environment name pin) = true := by
  refine ⟨⟨?_, ?_⟩, ?_⟩
  · rintro ⟨d, member, blames⟩
    obtain ⟨checked, r, active, here, pin, sole, breaks, -⟩ :=
      breaks_of_blames floorRule member blames
    exact ⟨checked, r, active, here, pin, sole, breaks⟩
  · rintro ⟨checked, r, active, here, pin, sole, breaks⟩
    obtain ⟨d, member, ruled, package, ⟨o, required, there⟩, named⟩ :=
      exists_blames_of_breaks inside enabled checked active sole breaks
    exact ⟨d, member, ruled, package, ⟨o, required, Origin.same_trans there here⟩, named⟩
  · intro d member blames
    obtain ⟨-, r, -, -, pin, sole, -, carriers⟩ := breaks_of_blames floorRule member blames
    exact ⟨pin, sole, carriers⟩

/-- An exact pin below the floor of the one requirement is reported. -/
theorem blamed_below_floor :
    let settings := CheckSettings.onLinux
    let environment : TargetEnvironment := ⟨⟨3, 12, none⟩, .linux⟩
    let m : Manifest := {
      requirements := [.plain "requirements.txt" "six" [⟨.atLeast, .ofRelease [1, 16]⟩]]
      constraints := [.plain "constraints.txt" "six" [⟨.equal, .ofRelease [1, 15]⟩]] }
    environment ∈ settings.matrix.environments ∧
      settings.severities.isEnabled .belowFloor = true ∧
      ∃ d ∈ (run settings m).diagnostics,
        d.Blames .belowFloor ⟨"six"⟩ ⟨⟨"requirements.txt"⟩, 1⟩ environment := by
  intro settings environment m
  have inside : environment ∈ settings.matrix.environments := List.mem_cons_self
  have enabled : settings.severities.isEnabled .belowFloor = true := rfl
  have sole : (Pin.exact (.ofRelease [1, 15])).IsSole (m.constraintsOf environment ⟨"six"⟩) := by
    refine ⟨rfl, ?_⟩
    rintro c (_ | ⟨_, ⟨⟩⟩) -
    decide
  refine ⟨inside, enabled, (floor_rules_exact inside (.inl rfl) enabled _ _).1.mpr ?_⟩
  refine ⟨List.not_mem_nil, _, List.mem_cons_self, Origin.same_refl _, _, sole, ?_⟩
  exact ⟨⟨.ofRelease [1, 16], true⟩, .ofRelease [1, 15], rfl, rfl, by decide⟩

/-- Pins in conflict are reported exactly where a requirement of the package applies too. -/
theorem conflict_reported_iff (inside : environment ∈ settings.matrix.environments)
    (enabled : settings.severities.isEnabled .conflictingPins = true)
    (checked : name ∉ settings.ignore) :
    (∃ d ∈ (run settings m).diagnostics, d.finding.rule = .conflictingPins ∧
      d.finding.package = name ∧ environment ∈ d.environments) ↔
      Pin.Conflict (m.constraintsOf environment name) ∧
        m.requirementsOf environment name ≠ [] := by
  constructor
  · rintro ⟨d, member, ruled, rfl, named⟩
    obtain ⟨-, f, arises, same⟩ := arisesIn_of_diagnostic member named
    rw [Finding.rule_eq_of_same same] at ruled
    cases arises with
    | unpinned | unused => cases ruled
    | conflicting used conflict => exact ⟨conflict, used⟩
    | fault member fault => cases fault <;> cases ruled
  · rintro ⟨conflict, used⟩
    have found := mem_ofEnvironment_iff.mpr
      ⟨enabled, name, checked, .conflicting used conflict⟩
    obtain ⟨d, member, same, named⟩ := exists_diagnostic inside found
    exact ⟨d, member, Finding.rule_eq_of_same same, Finding.package_eq_of_same same, named⟩

/-- Pins in conflict go unreported where no requirement applies. -/
theorem conflict_unreported :
    let settings := CheckSettings.onLinux
    let environment : TargetEnvironment := ⟨⟨3, 12, none⟩, .linux⟩
    let m : Manifest := {
      constraints := [
        .plain "constraints.txt" "ply" [⟨.equal, .ofRelease [3, 9]⟩],
        .plain "constraints.txt" "ply" [⟨.equal, .ofRelease [3, 11]⟩]] }
    environment ∈ settings.matrix.environments ∧
      settings.severities.isEnabled .conflictingPins = true ∧ ⟨"ply"⟩ ∉ settings.ignore ∧
      Pin.Conflict (m.constraintsOf environment ⟨"ply"⟩) ∧
      ¬ ∃ d ∈ (run settings m).diagnostics, d.finding.rule = .conflictingPins ∧
        d.finding.package = ⟨"ply"⟩ ∧ environment ∈ d.environments := by
  intro settings environment m
  have inside : environment ∈ settings.matrix.environments := List.mem_cons_self
  have enabled : settings.severities.isEnabled .conflictingPins = true := rfl
  have checked : (⟨"ply"⟩ : PackageName) ∉ settings.ignore := List.not_mem_nil
  refine ⟨inside, enabled, checked, ?_, ?_⟩
  · refine ⟨_, List.mem_cons_self, _, List.mem_cons_of_mem _ List.mem_cons_self, rfl, rfl, ?_⟩
    decide
  · rw [conflict_reported_iff inside enabled checked]
    exact fun reported => reported.2 rfl

end Check

end PinFloor
