import PinFloor.Proofs.Check.Merging
import PinFloor.Proofs.Matrix

/-! # How often a diagnostic names an environment

A diagnostic names each environment as often as its finding is made there. That is once unless two
entries that apply together are at fault alike, which takes two entries at one place: a file that
is read twice.
-/

namespace PinFloor.Check

section

variable {α : Type} {xs : List α} {times : α → Nat}

theorem nodup_flatMap_replicate_iff (distinct : xs.Nodup) :
    (xs.flatMap fun x => List.replicate (times x) x).Nodup ↔ ∀ x ∈ xs, times x ≤ 1 := by
  rw [List.nodup_flatMap]
  constructor
  · exact fun each x member => List.nodup_replicate.mp (each.1 x member)
  · refine fun once => ⟨fun x member => List.nodup_replicate.mpr (once x member), ?_⟩
    refine distinct.imp fun differ y left right => differ ?_
    exact (List.eq_of_mem_replicate left).symm.trans (List.eq_of_mem_replicate right)

theorem flatMap_replicate_sublist (once : ∀ x ∈ xs, times x ≤ 1) :
    (xs.flatMap fun x => List.replicate (times x) x).Sublist xs := by
  induction xs with
  | nil => exact .refl _
  | cons x rest ih =>
      have first : (List.replicate (times x) x).Sublist [x] :=
        List.replicate_sublist_replicate x |>.mpr (once x List.mem_cons_self)
      rw [List.flatMap_cons]
      exact first.append (ih fun y member => once y (List.mem_cons_of_mem _ member))

theorem length_eq_iff_of_sublist {ys : List α} (distinct : xs.Nodup) (part : ys.Sublist xs) :
    ys.length = xs.length ↔ ∀ x ∈ xs, x ∈ ys := by
  constructor
  · intro equal x member
    rwa [part.eq_of_length equal]
  · intro all
    exact Nat.le_antisymm part.length_le (distinct.length_le_of_subset all)

end

theorem countP_same (f : Finding) (findings : List Finding) :
    findings.countP (f.same ·) = (findings.map Finding.key).count f.key := by
  rw [List.count, List.countP_map]
  refine List.countP_congr fun g _ => ?_
  rw [Finding.same_iff, Function.comp_apply, beq_iff_eq]
  exact eq_comm

theorem pairwise_apart_iff (findings : List Finding) :
    (findings.Pairwise fun f g => f.same g = false) ↔
      ∀ f : Finding, findings.countP (f.same ·) ≤ 1 := by
  have keys : (findings.Pairwise fun f g => f.same g = false) ↔
      (findings.map Finding.key).Nodup := by
    rw [List.Nodup, List.pairwise_map]
    simp only [← Bool.not_eq_true, Finding.same_iff, ne_eq]
  rw [keys, List.nodup_iff_count_le_one]
  constructor
  · intro once f
    rw [countP_same]
    exact once f.key
  · intro once key
    by_cases member : key ∈ findings.map Finding.key
    · obtain ⟨f, -, rfl⟩ := List.mem_map.mp member
      rw [← countP_same]
      exact once f
    · rw [List.count_eq_zero.mpr member]
      exact Nat.zero_le 1

/-- In an environment no finding is made twice: among the constraints of a package that apply there
    no two are at fault alike, and among its requirements neither. -/
structure FindsOnce (settings : CheckSettings) (m : Manifest) (environment : TargetEnvironment) :
    Prop where
  constraints : ∀ name, name ∉ settings.ignore →
    (m.constraintsOf environment name).Pairwise fun a b =>
      ∀ f ∈ ofConstraint (m.isRequired name) a, ∀ g ∈ ofConstraint (m.isRequired name) b,
        settings.severities.isEnabled f.rule = true → f.same g = false
  requirements : ∀ name, name ∉ settings.ignore →
    (m.requirementsOf environment name).Pairwise fun a b =>
      ∀ f g, Fault (m.constraintsOf environment name) a f →
        Fault (m.constraintsOf environment name) b g →
        settings.severities.isEnabled f.rule = true → f.same g = false

/-- The stage of a package check that looks after a rule: first each constraint alone, then the pins
    together, then each requirement. -/
def stage : Rule → Nat
  | .unpinnedConstraint | .unusedPin => 0
  | .conflictingPins => 1
  | .missingPin | .belowFloor | .excludedPin => 2

theorem apart_of_rule_ne {f g : Finding} (differ : f.rule ≠ g.rule) : f.same g = false :=
  Bool.eq_false_iff.mpr fun same => differ (Finding.rule_eq_of_same same)

theorem apart_of_stage_lt {f g : Finding} (later : stage f.rule < stage g.rule) :
    f.same g = false :=
  apart_of_rule_ne fun same => Nat.ne_of_lt later (congrArg stage same)

section

variable {required : Bool} {name : PackageName} {requirements constraints : List Entry}
  {c r : Entry} {f g : Finding}

theorem stage_of_ofConstraint (found : f ∈ ofConstraint required c) : stage f.rule = 0 := by
  rcases mem_ofConstraint_iff.mp found with ⟨-, rfl⟩ | ⟨-, rfl⟩ <;> rfl

theorem stage_of_ofPins (found : f ∈ ofPins name requirements constraints) :
    stage f.rule = 1 := by
  obtain ⟨-, -, rfl⟩ := mem_ofPins_iff.mp found
  rfl

theorem stage_of_fault (fault : Fault constraints r f) : stage f.rule = 2 := by
  cases fault <;> rfl

theorem stage_of_ofRequirements
    (found : f ∈ requirements.filterMap (ofRequirement constraints)) : stage f.rule = 2 := by
  obtain ⟨r, -, found⟩ := List.mem_filterMap.mp found
  exact stage_of_fault (fault_of_ofRequirement found)

theorem pairwise_ofConstraint :
    (ofConstraint required c).Pairwise fun f g => f.same g = false := by
  have differ : (unpinned c).same (unused c) = false := apart_of_rule_ne nofun
  cases pinned : c.pin.isPinned <;> cases required <;> simp [ofConstraint, pinned, differ]

theorem pairwise_ofPins :
    (ofPins name requirements constraints).Pairwise fun f g => f.same g = false := by
  match requirements, pins : Pin.ofConstraints constraints with
  | [], _ => simp [ofPins]
  | _ :: _, [] => simp [ofPins, pins]
  | _ :: _, [_] => simp [ofPins, pins]
  | _ :: _, _ :: _ :: _ => simp [ofPins, pins]

/-- Findings of different stages break different rules. -/
theorem apart_of_constraint (left : f ∈ ofConstraint required c)
    (right : g ∈ ofPins name requirements constraints ++
      requirements.filterMap (ofRequirement constraints)) : f.same g = false := by
  apply apart_of_stage_lt
  rw [stage_of_ofConstraint left]
  rcases List.mem_append.mp right with right | right
  · rw [stage_of_ofPins right]
    exact Nat.zero_lt_one
  · rw [stage_of_ofRequirements right]
    exact Nat.zero_lt_two

theorem apart_of_pins (left : f ∈ ofPins name requirements constraints)
    (right : g ∈ requirements.filterMap (ofRequirement constraints)) : f.same g = false := by
  apply apart_of_stage_lt
  rw [stage_of_ofPins left, stage_of_ofRequirements right]
  exact Nat.one_lt_two

/-- The findings about a package are apart if those of each two constraints are and those of each
    two requirements: findings of different stages break different rules. -/
theorem pairwise_ofPackage_iff {enabled : Rule → Bool} :
    (((ofPackage required name requirements constraints).filter fun f => enabled f.rule).Pairwise
      fun f g => f.same g = false) ↔
    (constraints.Pairwise fun a b => ∀ f ∈ ofConstraint required a, ∀ g ∈ ofConstraint required b,
      enabled f.rule = true → f.same g = false) ∧
    requirements.Pairwise fun a b => ∀ f g, Fault constraints a f → Fault constraints b g →
      enabled f.rule = true → f.same g = false := by
  -- Findings that are the same are of one rule, so one of two being enabled is enough.
  have either (f g : Finding) :
      (enabled f.rule = true → enabled g.rule = true → f.same g = false) ↔
        (enabled f.rule = true → f.same g = false) := by
    refine ⟨fun apart on => ?_, fun apart on _ => apart on⟩
    refine Bool.eq_false_iff.mpr fun same => ?_
    rw [apart on (Finding.rule_eq_of_same same ▸ on)] at same
    cases same
  simp only [List.pairwise_filter, either, ofPackage_eq, List.pairwise_append,
    List.pairwise_flatMap, List.pairwise_filterMap, ofRequirement_eq_some_iff]
  constructor
  · rintro ⟨⟨-, ofConstraints⟩, ⟨-, ofRequirements, -⟩, -⟩
    exact ⟨ofConstraints, ofRequirements.imp fun apart f g left right => apart f left g right⟩
  · rintro ⟨ofConstraints, ofRequirements⟩
    refine ⟨⟨fun c _ => ?_, ofConstraints⟩, ⟨?_, ?_, ?_⟩, ?_⟩
    · refine pairwise_ofConstraint.imp ?_
      exact fun apart _ => apart
    · refine pairwise_ofPins.imp ?_
      exact fun apart _ => apart
    · exact ofRequirements.imp fun apart f left g right => apart f g left right
    · exact fun f left g right _ => apart_of_pins left right
    · intro f left g right _
      obtain ⟨c, -, found⟩ := List.mem_flatMap.mp left
      exact apart_of_constraint found right

end

theorem nodup_packages (m : Manifest) : m.packages.Nodup := nodup_eraseDups _

variable {settings : CheckSettings} {m : Manifest} {environment : TargetEnvironment}

/-- The findings about each package are apart. -/
theorem findsOnce_iff_packages : FindsOnce settings m environment ↔
    ∀ name, (foundAbout settings m environment name).Pairwise fun f g => f.same g = false := by
  constructor
  · intro once name
    by_cases ignored : name ∈ settings.ignore
    · rw [foundAbout_of_ignored ignored]
      exact .nil
    · rw [foundAbout_of_checked ignored, pairwise_ofPackage_iff]
      exact ⟨once.constraints name ignored, once.requirements name ignored⟩
  · intro each
    have both (name : PackageName) (checked : name ∉ settings.ignore) :=
      pairwise_ofPackage_iff.mp (foundAbout_of_checked checked ▸ each name)
    exact ⟨fun name checked => (both name checked).1, fun name checked => (both name checked).2⟩

theorem findsOnce_iff : FindsOnce settings m environment ↔
    (ofEnvironment settings m environment).Pairwise fun f g => f.same g = false := by
  rw [findsOnce_iff_packages, ofEnvironment_eq, List.pairwise_flatMap]
  constructor
  · intro once
    refine ⟨fun name _ => once name, (nodup_packages _).imp ?_⟩
    intro one other differ f left g right
    apply Bool.eq_false_iff.mpr
    intro same
    apply differ
    calc
      one = f.package := (package_of_mem_foundAbout left).symm
      _ = g.package := Finding.package_eq_of_same same
      _ = other := package_of_mem_foundAbout right
  · intro ⟨each, _⟩ name
    by_cases present : name ∈ (m.active environment).packages
    · exact each name present
    · rw [foundAbout_of_absent present]
      exact .nil

theorem constraints_of_ofConstraint {required : Bool} {c : Entry} {f : Finding}
    (found : f ∈ ofConstraint required c) : f.constraints = [c.origin] := by
  rcases mem_ofConstraint_iff.mp found with ⟨-, rfl⟩ | ⟨-, rfl⟩ <;> rfl

theorem requirement_of_fault {constraints : List Entry} {r : Entry} {f : Finding}
    (fault : Fault constraints r f) : f.requirement = some r.origin := by
  cases fault <;> rfl

/-- Where no two requirements and no two constraints stand at one place, no finding is made
    twice. -/
theorem findsOnce_of_distinct_origins
    (requirements : m.requirements.Pairwise fun a b => a.origin.same b.origin = false)
    (constraints : m.constraints.Pairwise fun a b => a.origin.same b.origin = false) :
    FindsOnce settings m environment := by
  constructor
  · intro name _
    refine (constraints.filter _).imp fun {a b} apart f left g right _ => ?_
    refine Bool.eq_false_iff.mpr fun same => ?_
    have places := Finding.constraints_same_of_same same
    rw [constraints_of_ofConstraint left, constraints_of_ofConstraint right] at places
    simp [sameList, apart] at places
  · intro name _
    refine (requirements.filter _).imp fun {a b} apart f g left right _ => ?_
    refine Bool.eq_false_iff.mpr fun same => ?_
    have places := Finding.requirement_same_of_same same
    rw [requirement_of_fault left, requirement_of_fault right] at places
    rw [(Origin.same_iff _ _).mpr (Option.some.inj places)] at apart
    cases apart

/-- A diagnostic names the environments of the matrix in their order, each as often as the finding
    is made there. -/
theorem environments_eq {d : Diagnostic} (member : d ∈ (run settings m).diagnostics) :
    d.environments = settings.matrix.environments.flatMap fun environment =>
      List.replicate ((ofEnvironment settings m environment).countP (d.finding.same ·))
        environment := by
  rw [(merged_diagnostics settings m).environments d (mem_run_diagnostics.mp member), seenIn,
    sightings, List.filter_flatMap, List.map_flatMap]
  congr 1
  funext environment
  rw [List.filter_map, List.map_map, List.countP_eq_length_filter]
  exact List.map_const'

/-- Each diagnostic names an environment at most once, in the order of the matrix, and so names as
    many as there are exactly if its finding is made in each of them, unless somewhere two entries
    that apply together are at fault alike. -/
theorem named_once_iff {versions : List PythonVersion} {platforms : List Platform}
    (made : Matrix.make versions platforms = .ok settings.matrix) :
    (∀ d ∈ (run settings m).diagnostics, d.environments.Nodup ∧
      d.environments.Sublist settings.matrix.environments ∧
      (d.environments.length = settings.matrix.size ↔
        ∀ environment ∈ settings.matrix.environments,
          ∃ f ∈ ofEnvironment settings m environment, d.finding.same f = true)) ↔
      ∀ environment ∈ settings.matrix.environments, FindsOnce settings m environment := by
  have distinct := Matrix.nodup_environments_of_make made
  simp only [findsOnce_iff, pairwise_apart_iff]
  constructor
  · intro once environment inside f
    by_cases found : ∃ g ∈ ofEnvironment settings m environment, f.same g = true
    · obtain ⟨g, found, same⟩ := found
      obtain ⟨d, member, known, -⟩ := exists_diagnostic inside found
      have nodup := (once d member).1
      rw [environments_eq member, nodup_flatMap_replicate_iff distinct] at nodup
      have alike : ∀ h, f.same h = d.finding.same h := fun h =>
        (Finding.same_congr same h).trans (Finding.same_congr known h).symm
      simpa only [alike] using nodup environment inside
    · have none : (ofEnvironment settings m environment).countP (f.same ·) = 0 :=
        List.countP_eq_zero.mpr fun g member same => found ⟨g, member, same⟩
      omega
  · intro once d member
    have times : ∀ environment ∈ settings.matrix.environments,
        (ofEnvironment settings m environment).countP (d.finding.same ·) ≤ 1 :=
      fun environment inside => once environment inside d.finding
    have part : d.environments.Sublist settings.matrix.environments := by
      rw [environments_eq member]
      exact flatMap_replicate_sublist times
    refine ⟨part.nodup distinct, part, ?_⟩
    rw [← Matrix.length_environments, length_eq_iff_of_sublist distinct part]
    refine forall₂_congr fun environment inside => ?_
    constructor
    · exact fun named => (exists_finding member named).2
    · rintro ⟨f, found, same⟩
      have seen : (environment, f) ∈ sightings settings m := mem_sightings.mpr ⟨inside, found⟩
      rw [(merged_diagnostics settings m).environments d (mem_run_diagnostics.mp member)]
      exact mem_seenIn.mpr ⟨f, seen, same⟩

/-- A requirements file that is given twice makes its findings twice. -/
theorem named_twice_of_file_given_twice :
    let settings := CheckSettings.onLinux
    let requirement := Entry.plain "requirements.txt" "ply" [⟨.atLeast, .ofRelease [3, 10]⟩]
    let m : Manifest := { requirements := [requirement, requirement] }
    Matrix.make [⟨3, 12, none⟩] [.linux] = .ok settings.matrix ∧
      ¬ ∀ d ∈ (run settings m).diagnostics, d.environments.Nodup ∧
        d.environments.Sublist settings.matrix.environments ∧
        (d.environments.length = settings.matrix.size ↔
          ∀ environment ∈ settings.matrix.environments,
            ∃ f ∈ ofEnvironment settings m environment, d.finding.same f = true) := by
  intro settings requirement m
  have made : Matrix.make [⟨3, 12, none⟩] [.linux] = .ok settings.matrix := rfl
  refine ⟨made, ?_⟩
  rw [named_once_iff made]
  intro once
  have here := once ⟨⟨3, 12, none⟩, .linux⟩ List.mem_cons_self
  have both := List.rel_of_pairwise_cons (here.requirements ⟨"ply"⟩ List.not_mem_nil)
    List.mem_cons_self
  have fault : Fault [] requirement (missing requirement _) := .missing rfl rfl
  have apart := both _ _ fault fault rfl
  rw [Finding.same_refl] at apart
  cases apart

end PinFloor.Check
