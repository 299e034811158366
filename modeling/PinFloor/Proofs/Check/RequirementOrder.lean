import Mathlib.Data.List.Perm.Basic
import PinFloor.Proofs.Check.Independence

/-! # The order of requirements does not matter

A check looks at requirements in their order, and the diagnostics that stand level in the report keep
the order in which they were found. But in one environment two findings that stand level are one
finding, and the environments are gone through in the order of the matrix. So other requirements
first means other findings first in an environment, but never on one level of the report.
-/

namespace PinFloor

theorem forall₂_of_perm {α : Type} {R : α → α → Prop} {xs ys : List α} (perm : xs.Perm ys)
    (alike : ∀ x ∈ xs, ∀ y ∈ xs, R x y) : List.Forall₂ R xs ys := by
  refine List.forall₂_iff_zip.mpr ⟨perm.length_eq, ?_⟩
  intro x y together
  obtain ⟨left, right⟩ := List.of_mem_zip together
  exact alike x left y (perm.mem_iff.mpr right)

/-- Two diagnostics say the same about the same environments; origins are compared as places. -/
structure Diagnostic.Same (a b : Diagnostic) : Prop where
  finding : a.finding.same b.finding = true
  severity : a.severity = b.severity
  environments : a.environments = b.environments

/-- Two reports have the same diagnostics in the same order. -/
structure Report.Same (r s : Report) : Prop where
  diagnostics : List.Forall₂ Diagnostic.Same r.diagnostics s.diagnostics
  environments : r.environments = s.environments
  requirements : r.requirements = s.requirements
  constraints : r.constraints = s.constraints
  strict : r.strict = s.strict

namespace Manifest

variable {m : Manifest} {shuffled : List Entry} {environment : TargetEnvironment}
  {name : PackageName}

theorem requirementsOf_perm (perm : m.requirements.Perm shuffled) :
    (m.requirementsOf environment name).Perm
      ({ m with requirements := shuffled }.requirementsOf environment name) :=
  perm.filter _

theorem isRequired_perm (perm : m.requirements.Perm shuffled) :
    { m with requirements := shuffled }.isRequired name = m.isRequired name := by
  rw [Bool.eq_iff_iff, isRequired_iff, isRequired_iff]
  simp only [perm.mem_iff]

theorem packages_perm (perm : m.requirements.Perm shuffled) :
    (m.active environment).packages.Perm
      ({ m with requirements := shuffled }.active environment).packages := by
  refine (List.perm_ext_iff_of_nodup (Check.nodup_packages _) (Check.nodup_packages _)).mpr ?_
  intro name
  simp only [mem_packages, active, List.mem_append, List.mem_filter, perm.mem_iff]

end Manifest

namespace Check

section

variable {settings : CheckSettings} {m : Manifest} {shuffled : List Entry}
  {environment : TargetEnvironment} {name : PackageName}

theorem ofPins_perm {requirements others constraints : List Entry}
    (perm : requirements.Perm others) :
    ofPins name requirements constraints = ofPins name others constraints := by
  cases requirements with
  | nil => rw [List.nil_perm.mp perm]
  | cons r rest =>
      cases others with
      | nil => cases List.perm_nil.mp perm
      | cons => match pins : Pin.ofConstraints constraints with
        | [] | [_] | _ :: _ :: _ => simp only [ofPins, pins]

theorem ofPackage_perm {required : Bool} {requirements others constraints : List Entry}
    (perm : requirements.Perm others) :
    (ofPackage required name requirements constraints).Perm
      (ofPackage required name others constraints) := by
  rw [ofPackage_eq, ofPackage_eq, ofPins_perm perm]
  exact ((perm.filterMap _).append_left _).append_left _

theorem foundAbout_perm (perm : m.requirements.Perm shuffled) :
    (foundAbout settings m environment name).Perm
      (foundAbout settings { m with requirements := shuffled } environment name) := by
  by_cases ignored : name ∈ settings.ignore
  · rw [foundAbout_of_ignored ignored, foundAbout_of_ignored ignored]
  · rw [foundAbout_of_checked ignored, foundAbout_of_checked ignored,
      Manifest.isRequired_perm perm]
    exact (ofPackage_perm (Manifest.requirementsOf_perm perm)).filter _

/-- In each environment a check makes the same findings, if in another order. -/
theorem ofEnvironment_perm (perm : m.requirements.Perm shuffled) :
    (ofEnvironment settings m environment).Perm
      (ofEnvironment settings { m with requirements := shuffled } environment) := by
  rw [ofEnvironment_eq, ofEnvironment_eq]
  exact (Manifest.packages_perm perm).flatMap fun name _ => foundAbout_perm perm

end

/-- Two sightings are of one finding in one environment. -/
def SameSighting (s t : Sighting) : Prop :=
  s.1 = t.1 ∧ s.2.same t.2 = true

theorem insert_same {s t : Sighting} {severity : Severity} (same : SameSighting s t)
    {ds es : List Diagnostic} (alike : List.Forall₂ Diagnostic.Same ds es) :
    List.Forall₂ Diagnostic.Same (Diagnostic.insert s.1 severity s.2 ds)
      (Diagnostic.insert t.1 severity t.2 es) := by
  obtain ⟨environment, finding⟩ := same
  induction alike with
  | nil => exact .cons ⟨finding, rfl, by rw [environment]⟩ .nil
  | @cons d e ds es heads tails ih =>
      have known : d.finding.same s.2 = e.finding.same t.2 := by
        rw [Finding.same_congr heads.finding, Finding.same_comm, Finding.same_congr finding,
          Finding.same_comm]
      rw [Diagnostic.insert, Diagnostic.insert, known]
      split
      · refine .cons ⟨heads.finding, heads.severity, ?_⟩ tails
        rw [Diagnostic.alsoIn_environments, Diagnostic.alsoIn_environments, heads.environments,
          environment]
      · exact .cons heads ih

theorem merge_same {severities : Severities} {s t : Sighting} (same : SameSighting s t)
    {ds es : List Diagnostic} (alike : List.Forall₂ Diagnostic.Same ds es) :
    List.Forall₂ Diagnostic.Same (merge severities ds s) (merge severities es t) := by
  rw [merge, merge, Finding.rule_eq_of_same same.2]
  exact insert_same same alike

theorem foldl_merge_same {severities : Severities} {xs ys : List Sighting}
    (same : List.Forall₂ SameSighting xs ys) {ds es : List Diagnostic}
    (alike : List.Forall₂ Diagnostic.Same ds es) :
    List.Forall₂ Diagnostic.Same (xs.foldl (merge severities) ds)
      (ys.foldl (merge severities) es) := by
  induction same generalizing ds es with
  | nil => exact alike
  | cons heads _ ih => exact ih (merge_same heads alike)

section

variable {severities : Severities}

/-- A diagnostic of this finding stands level with another. -/
def onLevel (severities : Severities) (d : Diagnostic) (f : Finding) : Bool :=
  let x : Diagnostic := ⟨f, severities.get f.rule, []⟩
  d.le x && x.le d

theorem shared_onLevel (d : Diagnostic) : Finding.Shared (onLevel severities d) := by
  intro f g same
  have face : Diagnostic.face ⟨f, severities.get f.rule, []⟩
      = Diagnostic.face ⟨g, severities.get g.rule, []⟩ := by
    rw [Diagnostic.face_eq_iff, Finding.rule_eq_of_same same]
    exact ⟨same, rfl⟩
  simp only [onLevel, Diagnostic.le, Diagnostic.compare_of_face face rfl,
    Diagnostic.compare_of_face rfl face]

theorem compare_eq_of_onLevel {d : Diagnostic} {f : Finding}
    (level : onLevel severities d f = true) :
    d.compare ⟨f, severities.get f.rule, []⟩ = .eq := by
  rw [onLevel, Bool.and_eq_true, Diagnostic.le_eq_isLE, Diagnostic.le_eq_isLE] at level
  exact Std.OrientedCmp.isLE_antisymm level.1 level.2

/-- What stands on one level of a report comes from the sightings on this level, in the order in
    which they are made. -/
theorem levelOf_reported (d : Diagnostic) (sightings : List Sighting) :
    levelOf Diagnostic.le d (reported severities sightings)
      = (sightings.filter (onLevel severities d ·.2)).foldl (merge severities) [] := by
  have merged : Merged severities sightings (reported severities sightings) := merged_reported
  have asked : ∀ x ∈ reported severities sightings,
      (d.le x && x.le d) = onLevel severities d x.finding := by
    intro x member
    have face : x.face = Diagnostic.face ⟨x.finding, severities.get x.finding.rule, []⟩ :=
      Diagnostic.face_eq_iff.mpr ⟨Finding.same_refl _, merged.severity x member⟩
    simp only [onLevel, Diagnostic.le, Diagnostic.compare_of_face face rfl,
      Diagnostic.compare_of_face rfl face]
  rw [levelOf, List.filter_congr asked, filter_reported (shared_onLevel d), reported]
  -- They all stand level with `d`, so sorting them leaves them in their order.
  refine List.mergeSort_of_pairwise (List.pairwise_of_forall_mem_list ?_)
  have level : ∀ x ∈ (sightings.filter (onLevel severities d ·.2)).foldl (merge severities) [],
      d.compare x = .eq := by
    intro x member
    have merged : Merged severities (sightings.filter (onLevel severities d ·.2)) _ :=
      Merged.nil.foldl _
    obtain ⟨s, seen, finding⟩ := merged.sound x member
    have face : x.face = Diagnostic.face ⟨s.2, severities.get s.2.rule, []⟩ := by
      rw [Diagnostic.face_eq_iff, finding]
      exact ⟨Finding.same_refl _, finding ▸ merged.severity x member⟩
    rw [Diagnostic.compare_of_face rfl face]
    exact compare_eq_of_onLevel (List.mem_filter.mp seen).2
  intro x left y right
  rw [Diagnostic.le, ← Std.TransCmp.congr_left (level x left), level y right]
  rfl

end

section

variable {settings : CheckSettings} {m : Manifest} {shuffled : List Entry}
  {environment : TargetEnvironment} {f g : Finding}

theorem same_of_onLevel (d : Diagnostic) (left : f ∈ ofEnvironment settings m environment)
    (right : g ∈ ofEnvironment settings m environment)
    (levelF : onLevel settings.severities d f = true)
    (levelG : onLevel settings.severities d g = true) : f.same g = true := by
  obtain ⟨-, one, -, arises⟩ := mem_ofEnvironment_iff.mp left
  obtain ⟨-, other, -, again⟩ := mem_ofEnvironment_iff.mp right
  obtain ⟨-, packageF, ruleF, originF, messageF⟩ :=
    Diagnostic.compare_eq_iff.mp (compare_eq_of_onLevel levelF)
  obtain ⟨-, packageG, ruleG, originG, messageG⟩ :=
    Diagnostic.compare_eq_iff.mp (compare_eq_of_onLevel levelG)
  exact same_of_arisesIn arises again (ruleF.symm.trans ruleG) (packageF.symm.trans packageG)
    (originF.symm.trans originG) (messageF.symm.trans messageG)

theorem sightings_same_on_level (perm : m.requirements.Perm shuffled) (d : Diagnostic) :
    List.Forall₂ SameSighting
      ((sightings settings m).filter (onLevel settings.severities d ·.2))
      ((sightings settings { m with requirements := shuffled }).filter
        (onLevel settings.severities d ·.2)) := by
  rw [filter_sightings, filter_sightings]
  refine List.rel_flatMap (R := Eq) (List.forall₂_refl _) ?_
  rintro environment _ rfl
  rw [List.forall₂_map_left_iff, List.forall₂_map_right_iff]
  refine forall₂_of_perm ((ofEnvironment_perm perm).filter _) fun f left g right => ?_
  obtain ⟨foundF, levelF⟩ := List.mem_filter.mp left
  obtain ⟨foundG, levelG⟩ := List.mem_filter.mp right
  exact ⟨rfl, same_of_onLevel d foundF foundG levelF levelG⟩

/-- The order of the requirements does not matter: whichever it is, a check reports the same
    diagnostics in the same order. -/
theorem requirement_order_irrelevant (settings : CheckSettings) (m : Manifest)
    (perm : m.requirements.Perm shuffled) :
    (run settings m).Same (run settings { m with requirements := shuffled }) where
  diagnostics := by
    rw [run_diagnostics, run_diagnostics]
    refine forall₂_of_levels Diagnostic.le_trans Diagnostic.le_total sorted_reported
      sorted_reported fun d => ?_
    rw [levelOf_reported, levelOf_reported]
    exact foldl_merge_same (sightings_same_on_level perm d) .nil
  environments := rfl
  requirements := perm.length_eq
  constraints := rfl
  strict := rfl

/-- Two floors without pins are reported alike with either requirement first. -/
theorem requirement_order_of_two_floors :
    let settings := CheckSettings.onLinux
    let six : Entry := .plain "requirements.txt" "six" [⟨.atLeast, .ofRelease [1, 16]⟩]
    let ply : Entry := .plain "more.txt" "ply" [⟨.atLeast, .ofRelease [3, 11]⟩]
    let m : Manifest := { requirements := [six, ply] }
    m.requirements.Perm [ply, six] ∧ m.requirements ≠ [ply, six] ∧
      (run settings m).diagnostics ≠ [] ∧
      (run settings m).Same (run settings { m with requirements := [ply, six] }) := by
  intro settings six ply m
  have perm : m.requirements.Perm [ply, six] := .swap ply six []
  refine ⟨perm, by decide, ?_, requirement_order_irrelevant settings m perm⟩
  obtain ⟨d, member, -, -⟩ : ∃ d ∈ (run settings m).diagnostics, _ ∧ _ :=
    @exists_missing _ _ ⟨⟨3, 12, none⟩, .linux⟩ ⟨"six"⟩ _ _ List.mem_cons_self rfl List.not_mem_nil
      List.mem_cons_self rfl rfl
  exact List.ne_nil_of_mem member

end

end Check

end PinFloor
