import Mathlib.Data.List.Induction
import Mathlib.Data.List.Nodup
import PinFloor.Environment

/-! # Matrices

A matrix that is made from lists of versions and platforms has each environment once, in the order in
which its version and its platform are first listed.
-/

namespace PinFloor

theorem nodup_eraseDups {α : Type} [BEq α] [LawfulBEq α] (xs : List α) : xs.eraseDups.Nodup := by
  cases xs with
  | nil => exact .nil
  | cons x rest =>
      rw [List.eraseDups_cons, List.nodup_cons, List.mem_eraseDups]
      exact ⟨by simp, nodup_eraseDups _⟩
termination_by xs.length
decreasing_by exact Nat.lt_succ_of_le (List.length_filter_le _ _)

theorem eraseDups_of_nodup {α : Type} [BEq α] [LawfulBEq α] {xs : List α} (distinct : xs.Nodup) :
    xs.eraseDups = xs := by
  induction xs with
  | nil => rfl
  | cons x rest ih =>
      obtain ⟨new, distinct⟩ := List.nodup_cons.mp distinct
      have kept : rest.filter (fun y => !y == x) = rest := by
        refine List.filter_eq_self.mpr fun y member => ?_
        have differ : y ≠ x := fun same => new (same ▸ member)
        simpa using differ
      rw [List.eraseDups_cons, kept, ih distinct]

/-- What is kept stands in the order of its first appearances. -/
theorem pairwise_eraseDups {α : Type} [BEq α] [LawfulBEq α] (xs : List α) :
    xs.eraseDups.Pairwise fun x y => xs.idxOf x < xs.idxOf y := by
  induction xs using List.reverseRec with
  | nil => exact .nil
  | append_singleton xs x ih =>
      have earlier : xs.eraseDups.Pairwise fun y z => (xs ++ [x]).idxOf y < (xs ++ [x]).idxOf z := by
        refine ih.imp_of_mem fun left right before => ?_
        rwa [List.idxOf_append_of_mem (List.mem_eraseDups.mp left),
          List.idxOf_append_of_mem (List.mem_eraseDups.mp right)]
      rw [List.eraseDups_append]
      by_cases known : x ∈ xs
      · simpa [List.removeAll, known] using earlier
      · have added : ([x].removeAll xs).eraseDups = [x] := by
          simp [List.removeAll, known, eraseDups_of_nodup]
        rw [added, List.pairwise_append]
        refine ⟨earlier, List.pairwise_singleton _ x, fun y left z right => ?_⟩
        obtain rfl := List.mem_singleton.mp right
        have inside := List.mem_eraseDups.mp left
        calc
          (xs ++ [z]).idxOf y = xs.idxOf y := List.idxOf_append_of_mem inside
          _ < xs.length := List.idxOf_lt_length_of_mem inside
          _ ≤ (xs ++ [z]).idxOf z := by
            rw [List.idxOf_append_of_notMem known]
            exact Nat.le_add_right _ _

theorem eraseDups_ne_nil {α : Type} [BEq α] [LawfulBEq α] {xs : List α} (given : xs ≠ []) :
    xs.eraseDups ≠ [] := by
  obtain ⟨x, rest, rfl⟩ := List.exists_cons_of_ne_nil given
  rw [List.eraseDups_cons]
  exact List.cons_ne_nil _ _

namespace Matrix

theorem length_environments (matrix : Matrix) : matrix.environments.length = matrix.size := by
  simp [environments, size]

theorem mem_environments {matrix : Matrix} {e : TargetEnvironment} :
    e ∈ matrix.environments ↔ e.python ∈ matrix.pythonVersions ∧ e.platform ∈ matrix.platforms := by
  obtain ⟨python, platform⟩ := e
  simp [environments]

theorem nodup_environments {matrix : Matrix} (versions : matrix.pythonVersions.Nodup)
    (platforms : matrix.platforms.Nodup) : matrix.environments.Nodup := by
  rw [environments, List.nodup_flatMap]
  constructor
  · intro python _
    exact platforms.map fun a b same => congrArg TargetEnvironment.platform same
  · refine versions.imp fun differ environment left right => differ ?_
    obtain ⟨_, _, rfl⟩ := List.mem_map.mp left
    obtain ⟨_, _, same⟩ := List.mem_map.mp right
    exact congrArg TargetEnvironment.python same.symm

theorem eq_of_make {versions : List PythonVersion} {platforms : List Platform} {matrix : Matrix}
    (made : make versions platforms = .ok matrix) :
    matrix = ⟨versions.eraseDups, platforms.eraseDups⟩ := by
  rw [make] at made
  split at made
  · cases made
  · split at made
    · cases made
    · exact (Except.ok.inj made).symm

theorem nodup_environments_of_make {versions : List PythonVersion} {platforms : List Platform}
    {matrix : Matrix} (made : make versions platforms = .ok matrix) :
    matrix.environments.Nodup := by
  rw [eq_of_make made]
  exact nodup_environments (nodup_eraseDups versions) (nodup_eraseDups platforms)

/-- The order of environments by the first appearance of their Python versions in a list, then by
    that of their platforms in another. -/
def ListedBefore (versions : List PythonVersion) (platforms : List Platform)
    (a b : TargetEnvironment) : Prop :=
  versions.idxOf a.python < versions.idxOf b.python ∨
    a.python = b.python ∧ platforms.idxOf a.platform < platforms.idxOf b.platform

theorem pairwise_environments {versions : List PythonVersion} {platforms : List Platform}
    {matrix : Matrix}
    (first : matrix.pythonVersions.Pairwise fun a b => versions.idxOf a < versions.idxOf b)
    (second : matrix.platforms.Pairwise fun a b => platforms.idxOf a < platforms.idxOf b) :
    matrix.environments.Pairwise (ListedBefore versions platforms) := by
  rw [environments, List.pairwise_flatMap]
  constructor
  · intro python _
    exact List.pairwise_map.mpr (second.imp fun before => .inr ⟨rfl, before⟩)
  · refine first.imp fun before a left b right => ?_
    obtain ⟨_, _, rfl⟩ := List.mem_map.mp left
    obtain ⟨_, _, rfl⟩ := List.mem_map.mp right
    exact .inl before

theorem make_eq_ok {versions : List PythonVersion} {platforms : List Platform}
    (versionsGiven : versions ≠ []) (platformsGiven : platforms ≠ []) :
    make versions platforms = .ok ⟨versions.eraseDups, platforms.eraseDups⟩ := by
  rw [make, if_neg (by simpa using versionsGiven), if_neg (by simpa using platformsGiven)]

theorem isEmpty_eq_false {matrix : Matrix} (versions : matrix.pythonVersions ≠ [])
    (platforms : matrix.platforms ≠ []) : matrix.isEmpty = false := by
  have some : matrix.size ≠ 0 :=
    Nat.mul_ne_zero (by simpa using versions) (by simpa using platforms)
  simpa [isEmpty] using some

/-- From Python versions and platforms, at least one of each and in any number and repetition, a matrix
    is made. It has each pair of them exactly once, in the order in which the versions and then the
    platforms first appear, and so it has as many environments as it says. Made again from what it
    holds, it is the same. -/
theorem each_environment_once (versions : List PythonVersion) (platforms : List Platform)
    (versionsGiven : versions ≠ []) (platformsGiven : platforms ≠ []) :
    ∃ matrix, make versions platforms = .ok matrix ∧
      (∀ e, e ∈ matrix.environments ↔ e.python ∈ versions ∧ e.platform ∈ platforms) ∧
      matrix.environments.Nodup ∧
      matrix.environments.Pairwise (ListedBefore versions platforms) ∧
      matrix.environments.length = matrix.size ∧ matrix.isEmpty = false ∧
      make matrix.pythonVersions matrix.platforms = .ok matrix := by
  have keptVersions := eraseDups_ne_nil versionsGiven
  have keptPlatforms := eraseDups_ne_nil platformsGiven
  refine ⟨_, make_eq_ok versionsGiven platformsGiven, fun e => ?_, ?_, ?_, length_environments _,
    isEmpty_eq_false keptVersions keptPlatforms, ?_⟩
  · rw [mem_environments, List.mem_eraseDups, List.mem_eraseDups]
  · exact nodup_environments (nodup_eraseDups versions) (nodup_eraseDups platforms)
  · exact pairwise_environments (pairwise_eraseDups versions) (pairwise_eraseDups platforms)
  · rw [make_eq_ok keptVersions keptPlatforms, eraseDups_of_nodup (nodup_eraseDups versions),
      eraseDups_of_nodup (nodup_eraseDups platforms)]

/-- From lists with repetitions, the four environments in their order. -/
theorem environments_of_repeated_lists :
    let older : PythonVersion := ⟨3, 9, none⟩
    let newer : PythonVersion := ⟨3, 12, none⟩
    let versions : List PythonVersion := [older, newer, older]
    let platforms : List Platform := [.linux, .macos, .linux]
    let matrix : Matrix := ⟨[older, newer], [.linux, .macos]⟩
    versions ≠ [] ∧ platforms ≠ [] ∧ make versions platforms = .ok matrix ∧
      matrix.environments = [⟨older, .linux⟩, ⟨older, .macos⟩, ⟨newer, .linux⟩, ⟨newer, .macos⟩] ∧
      (∀ e, e ∈ matrix.environments ↔ e.python ∈ versions ∧ e.platform ∈ platforms) ∧
      matrix.environments.Nodup ∧
      matrix.environments.Pairwise (ListedBefore versions platforms) ∧
      matrix.environments.length = matrix.size ∧ matrix.isEmpty = false ∧
      make matrix.pythonVersions matrix.platforms = .ok matrix := by
  intro older newer versions platforms matrix
  have made : make versions platforms = .ok matrix := rfl
  obtain ⟨found, same, parts⟩ := each_environment_once versions platforms (by decide) (by decide)
  obtain rfl : found = matrix := Except.ok.inj (same.symm.trans made)
  exact ⟨by decide, by decide, made, rfl, parts⟩

end Matrix

end PinFloor
