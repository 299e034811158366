import Mathlib.Data.List.Forall2
import PinFloor.Proofs.Check.EnvironmentCounts
import PinFloor.Proofs.Check.Selection

/-! # Environments are checked independently

The findings of all environments are merged into one list and sorted together. Still the diagnostics
that name an environment are those of a check in this environment alone, in the same order: within
an environment two different findings never stand level, so their order is settled by what they
say and not by where they were found first.
-/

namespace PinFloor

/-- The settings of a check in one environment. -/
def CheckSettings.onlyIn (settings : CheckSettings) (environment : TargetEnvironment) :
    CheckSettings :=
  { settings with matrix := ⟨[environment.python], [environment.platform]⟩ }

@[simp] theorem CheckSettings.environments_onlyIn (settings : CheckSettings)
    (environment : TargetEnvironment) :
    (settings.onlyIn environment).matrix.environments = [environment] := rfl

namespace Diagnostic

/-- What a diagnostic says apart from its environments. -/
def face (d : Diagnostic) : Finding.Key × Severity := (d.finding.key, d.severity)

variable {a b c d : Diagnostic}

theorem face_eq_iff :
    a.face = b.face ↔ a.finding.same b.finding = true ∧ a.severity = b.severity := by
  rw [face, face, Prod.mk.injEq, Finding.same_iff]

theorem compare_eq_of_face (equal : a.face = b.face) : a.compare b = .eq := by
  obtain ⟨same, severity⟩ := face_eq_iff.mp equal
  exact compare_eq_iff.mpr ⟨severity, Finding.package_eq_of_same same, Finding.rule_eq_of_same same,
    Finding.origin_same_of_same same, Finding.message_eq_of_same same⟩

theorem compare_of_face (left : a.face = c.face) (right : b.face = d.face) :
    a.compare b = c.compare d := by
  rw [Std.TransCmp.congr_left (compare_eq_of_face left),
    Std.TransCmp.congr_right (compare_eq_of_face right)]

/-- Diagnostics with these faces may stand in this order. -/
def FaceLe (left right : Finding.Key × Severity) : Prop :=
  ∃ a b : Diagnostic, a.face = left ∧ b.face = right ∧ a.le b = true

theorem faceLe_iff : FaceLe a.face b.face ↔ a.le b = true := by
  constructor
  · rintro ⟨x, y, left, right, le⟩
    rwa [Diagnostic.le, compare_of_face left right] at le
  · exact fun le => ⟨a, b, rfl, rfl, le⟩

end Diagnostic

namespace Check

section

variable {m : Manifest} {environment : TargetEnvironment} {one other : PackageName}
  {constraints : List Entry} {r x : Entry} {f g : Finding}

theorem constraints_eq_of_faults (left : Fault constraints r f) (right : Fault constraints x g)
    (rule : f.rule = g.rule) : f.constraints = g.constraints := by
  cases left with
  | missing =>
      cases right with
      | missing => rfl
      | below | excluded => cases rule
  | below sole =>
      cases right with
      | below again => rw [sole.unique again]; rfl
      | missing | excluded => cases rule
  | excluded sole =>
      cases right with
      | excluded again => rw [sole.unique again]; rfl
      | missing | below => cases rule

/-- In an environment two findings about a package that break one rule at one place and say the same
    are one finding. -/
theorem same_of_arisesIn (left : ArisesIn m environment one f)
    (right : ArisesIn m environment other g) (rule : f.rule = g.rule)
    (package : f.package = g.package)
    (origin : f.origin?.map Origin.key = g.origin?.map Origin.key)
    (message : f.message = g.message) : f.same g = true := by
  -- Two findings that break one rule arise in the same way, so the mixed cases close by `rule`.
  obtain rfl : one = other :=
    (package_of_arisesIn left).symm.trans (package.trans (package_of_arisesIn right))
  cases left with
  | unpinned =>
      cases right with
      | unpinned =>
          have places := congrArg Option.toList origin
          exact Finding.same_of_parts rule package message rfl places
      | unused | conflicting => cases rule
      | fault _ fault => cases fault <;> cases rule
  | unused =>
      cases right with
      | unused =>
          have places := congrArg Option.toList origin
          exact Finding.same_of_parts rule package message rfl places
      | unpinned | conflicting => cases rule
      | fault _ fault => cases fault <;> cases rule
  | conflicting =>
      cases right with
      | conflicting => exact Finding.same_refl _
      | unpinned | unused => cases rule
      | fault _ fault => cases fault <;> cases rule
  | fault _ here =>
      cases right with
      | fault _ there =>
          refine Finding.same_of_parts rule package message ?_ ?_
          · rw [Finding.origin?, Finding.origin?, requirement_of_fault here,
              requirement_of_fault there] at origin
            rw [requirement_of_fault here, requirement_of_fault there]
            exact origin
          · rw [constraints_eq_of_faults here there rule]
      | unpinned | unused | conflicting => cases here <;> cases rule

end

section

variable {settings : CheckSettings} {m : Manifest} {environment : TargetEnvironment}

/-- The diagnostics of a report that name an environment, in its order. -/
def naming (settings : CheckSettings) (m : Manifest) (environment : TargetEnvironment) :
    List Diagnostic :=
  (run settings m).diagnostics.filter (·.environments.contains environment)

theorem mem_naming_iff {d : Diagnostic} : d ∈ naming settings m environment ↔
    d ∈ (run settings m).diagnostics ∧ environment ∈ d.environments := by
  rw [naming, List.mem_filter, List.contains_iff_mem]

theorem exists_arisesIn_of_mem_naming {d : Diagnostic} (named : d ∈ naming settings m environment) :
    ∃ f, (∃ name, ArisesIn m environment name f) ∧ d.finding.same f = true := by
  obtain ⟨member, named⟩ := mem_naming_iff.mp named
  obtain ⟨-, f, found, same⟩ := exists_finding member named
  obtain ⟨-, name, -, arises⟩ := mem_ofEnvironment_iff.mp found
  exact ⟨f, ⟨name, arises⟩, same⟩

theorem face_of_same {d : Diagnostic} {f : Finding} (member : d ∈ (run settings m).diagnostics)
    (same : d.finding.same f = true) : d.face = (f.key, settings.severities.get f.rule) := by
  rw [Diagnostic.face, (merged_run settings m).severity d member, (Finding.same_iff _ _).mp same,
    Finding.rule_eq_of_same same]

theorem mem_faces_iff (inside : environment ∈ settings.matrix.environments)
    {face : Finding.Key × Severity} :
    face ∈ (naming settings m environment).map Diagnostic.face ↔
      ∃ f ∈ ofEnvironment settings m environment, face = (f.key, settings.severities.get f.rule) := by
  rw [List.mem_map]
  constructor
  · rintro ⟨d, named, rfl⟩
    obtain ⟨member, named⟩ := mem_naming_iff.mp named
    obtain ⟨-, f, found, same⟩ := exists_finding member named
    exact ⟨f, found, face_of_same member same⟩
  · rintro ⟨f, found, rfl⟩
    obtain ⟨d, member, same, named⟩ := exists_diagnostic inside found
    exact ⟨d, mem_naming_iff.mpr ⟨member, named⟩, face_of_same member same⟩

theorem nodup_faces : ((naming settings m environment).map Diagnostic.face).Nodup := by
  rw [List.Nodup, List.pairwise_map]
  refine ((merged_run settings m).apart.filter _).imp fun differ equal => ?_
  rw [(Diagnostic.face_eq_iff.mp equal).1] at differ
  cases differ

theorem sorted_faces :
    ((naming settings m environment).map Diagnostic.face).Pairwise Diagnostic.FaceLe := by
  rw [List.pairwise_map, naming, run_diagnostics]
  exact (sorted_reported.filter _).imp Diagnostic.faceLe_iff.mpr

/-- Of two diagnostics that name an environment, in one report or in two, none stands level with the
    other unless they say the same. -/
theorem face_eq_of_level {settings' : CheckSettings} {a b : Diagnostic}
    (left : a ∈ naming settings m environment) (right : b ∈ naming settings' m environment)
    (level : a.compare b = .eq) : a.face = b.face := by
  obtain ⟨f, ⟨_, arises⟩, sameF⟩ := exists_arisesIn_of_mem_naming left
  obtain ⟨g, ⟨_, again⟩, sameG⟩ := exists_arisesIn_of_mem_naming right
  -- The findings made in the environment may spell their paths in another way than the diagnostics.
  have faceA : a.face = Diagnostic.face ⟨f, a.severity, []⟩ :=
    Diagnostic.face_eq_iff.mpr ⟨sameF, rfl⟩
  have faceB : b.face = Diagnostic.face ⟨g, b.severity, []⟩ :=
    Diagnostic.face_eq_iff.mpr ⟨sameG, rfl⟩
  rw [Diagnostic.compare_of_face faceA faceB] at level
  obtain ⟨severity, package, rule, origin, message⟩ := Diagnostic.compare_eq_iff.mp level
  rw [faceA, faceB]
  exact Diagnostic.face_eq_iff.mpr
    ⟨same_of_arisesIn arises again rule package origin message, severity⟩

/-- What the diagnostics that name an environment say depends on the findings made there. -/
theorem map_face_naming_eq {settings' : CheckSettings}
    (inside : environment ∈ settings.matrix.environments)
    (inside' : environment ∈ settings'.matrix.environments)
    (found : ofEnvironment settings m environment = ofEnvironment settings' m environment)
    (severities : settings.severities = settings'.severities) :
    (naming settings m environment).map Diagnostic.face
      = (naming settings' m environment).map Diagnostic.face := by
  -- Both lists are sorted and have the same members, none of them twice. Then they are equal if no
  -- two different members stand level.
  refine List.Perm.eq_of_pairwise ?_ sorted_faces sorted_faces
    ((List.perm_ext_iff_of_nodup nodup_faces nodup_faces).mpr fun face => ?_)
  · intro x y ofA ofB first second
    obtain ⟨a, left, rfl⟩ := List.mem_map.mp ofA
    obtain ⟨b, right, rfl⟩ := List.mem_map.mp ofB
    rw [Diagnostic.faceLe_iff, Diagnostic.le_eq_isLE] at first second
    exact face_eq_of_level left right (Std.OrientedCmp.isLE_antisymm first second)
  · rw [mem_faces_iff inside, mem_faces_iff inside', found, severities]

theorem naming_onlyIn : naming (settings.onlyIn environment) m environment
    = (run (settings.onlyIn environment) m).diagnostics := by
  refine List.filter_eq_self.mpr fun d member => List.contains_iff_mem.mpr ?_
  obtain ⟨other, named⟩ := List.exists_mem_of_ne_nil _ (environments_ne_nil member)
  have inside := (exists_finding member named).1
  rw [CheckSettings.environments_onlyIn, List.mem_singleton] at inside
  rwa [inside] at named

/-- The diagnostics that name an environment are those of a check in it alone, in the same order and
    but for the environments that they name. Origins are compared as places. -/
theorem environments_independent (inside : environment ∈ settings.matrix.environments) :
    List.Forall₂ (fun d alone => d.finding.same alone.finding = true ∧ d.severity = alone.severity)
      ((run settings m).diagnostics.filter (·.environments.contains environment))
      (run (settings.onlyIn environment) m).diagnostics := by
  have faces : (naming settings m environment).map Diagnostic.face
      = (naming (settings.onlyIn environment) m environment).map Diagnostic.face :=
    map_face_naming_eq inside List.mem_cons_self rfl rfl
  rw [← List.forall₂_eq_eq_eq, List.forall₂_map_left_iff, List.forall₂_map_right_iff,
    naming_onlyIn] at faces
  exact faces.imp fun _ _ equal => Diagnostic.face_eq_iff.mp equal

/-- A floor without a pin is reported for two platforms together and for one of them alone. -/
theorem independent_of_other_platform :
    let settings := { CheckSettings.onLinux with matrix := ⟨[⟨3, 12, none⟩], [.linux, .windows]⟩ }
    let environment : TargetEnvironment := ⟨⟨3, 12, none⟩, .windows⟩
    let m : Manifest := {
      requirements := [.plain "requirements.txt" "six" [⟨.atLeast, .ofRelease [1, 16]⟩]] }
    environment ∈ settings.matrix.environments ∧
      (run settings m).diagnostics.filter (·.environments.contains environment) ≠ [] ∧
      List.Forall₂
        (fun d alone => d.finding.same alone.finding = true ∧ d.severity = alone.severity)
        ((run settings m).diagnostics.filter (·.environments.contains environment))
        (run (settings.onlyIn environment) m).diagnostics := by
  intro settings environment m
  have inside : environment ∈ settings.matrix.environments :=
    List.mem_cons_of_mem _ List.mem_cons_self
  refine ⟨inside, ?_, environments_independent inside⟩
  obtain ⟨d, member, -, named⟩ : ∃ d ∈ (run settings m).diagnostics, _ ∧ _ :=
    @exists_missing _ _ _ ⟨"six"⟩ _ _ inside rfl List.not_mem_nil List.mem_cons_self rfl rfl
  exact List.ne_nil_of_mem (List.mem_filter.mpr ⟨member, List.contains_iff_mem.mpr named⟩)

end

end Check

end PinFloor
