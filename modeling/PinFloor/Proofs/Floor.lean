import PinFloor.Bound
import PinFloor.Proofs.Version.Order

/-! # Floors as lower bounds

A floor admits fewer versions the stronger it is. The stronger one of two floors therefore admits
what both admit, and the floor of a list of specifiers what the bound of each of them admits,
whatever the order of the list and however often a specifier stands in it.
-/

namespace PinFloor

open Std

/-- The operators that set a lower bound. -/
def Operator.lower : List Operator :=
  [.atLeast, .greater, .equal, .identical, .compatible, .matching]

/-- A version is above the bound of a specifier with `>`, or not below that of another one. -/
def Specifier.IsReached (s : Specifier) (v : Version) : Prop :=
  if s.operator = .greater then s.version.before v = true else s.version.atMost v = true

instance (s : Specifier) (v : Version) : Decidable (s.IsReached v) :=
  inferInstanceAs (Decidable
    (if s.operator = .greater then s.version.before v = true else s.version.atMost v = true))

namespace Floor

variable {a b f : Floor} {v : Version}

theorem admits_of_weakerOrEqual (weaker : a.weakerOrEqual b = true) (admitted : b.admits v = true) :
    a.admits v = true := by
  simp only [weakerOrEqual, Bool.or_eq_true, Bool.and_eq_true, Bool.not_eq_true'] at weaker
  have low : b.version.atMost v = true := by
    rw [admits] at admitted
    split at admitted
    · exact admitted
    · exact Version.atMost_of_before admitted
  rcases weaker with less | ⟨same, kind⟩
  · have below : a.version.before v = true := Version.before_of_before_of_atMost less low
    rw [admits]
    split
    · exact Version.atMost_of_before below
    · exact below
  · have level : a.version.compare v = b.version.compare v := Version.same_congr_left same v
    rw [admits, Version.atMost, Version.before, level]
    rcases kind with inclusive | exclusive
    · rwa [if_pos inclusive]
    · rw [admits, if_neg (by simp [exclusive])] at admitted
      split
      · exact low
      · exact admitted

theorem weakerOrEqual_of_not (stronger : a.weakerOrEqual b = false) :
    b.weakerOrEqual a = true := by
  simp only [weakerOrEqual, Version.before, Version.same, Bool.or_eq_false_iff,
    Bool.and_eq_false_iff, Bool.or_eq_true, Bool.and_eq_true, Bool.not_eq_true'] at stronger ⊢
  have swapped : a.version.compare b.version = (b.version.compare a.version).swap :=
    OrientedCmp.eq_swap
  rw [swapped] at stronger
  cases order : b.version.compare a.version with
  | lt => exact .inl rfl
  | eq => simp_all
  | gt => simp_all

/-- The stronger of two floors admits what both admit. -/
theorem stronger_admits (a b : Floor) (v : Version) :
    (stronger a b).admits v = true ↔ a.admits v = true ∧ b.admits v = true := by
  rw [stronger]
  split
  · next weaker =>
      exact ⟨fun admitted => ⟨admits_of_weakerOrEqual weaker admitted, admitted⟩, And.right⟩
  · next stronger =>
      have weaker : b.weakerOrEqual a = true := weakerOrEqual_of_not (by simpa using stronger)
      exact ⟨fun admitted => ⟨admitted, admits_of_weakerOrEqual weaker admitted⟩, And.left⟩

theorem stronger_eq (a b : Floor) : stronger a b = a ∨ stronger a b = b := by
  unfold stronger
  split
  · exact .inr rfl
  · exact .inl rfl

theorem foldl_stronger_mem (first : Floor) (rest : List Floor) :
    rest.foldl stronger first ∈ first :: rest := by
  induction rest generalizing first with
  | nil => simp
  | cons next rest ih =>
      have member := ih (stronger first next)
      rw [List.foldl_cons]
      rcases stronger_eq first next with same | same <;> rw [same] at member ⊢ <;> grind

theorem foldl_stronger_admits (first : Floor) (rest : List Floor) (v : Version) :
    (rest.foldl stronger first).admits v = true ↔ ∀ b ∈ first :: rest, b.admits v = true := by
  induction rest generalizing first with
  | nil => simp
  | cons next rest ih =>
      rw [List.foldl_cons, ih]
      simp [stronger_admits, and_assoc]

theorem strongest?_eq_none_iff {floors : List Floor} : strongest? floors = none ↔ floors = [] := by
  cases floors <;> simp [strongest?]

theorem mem_of_strongest? {floors : List Floor} (strongest : strongest? floors = some f) :
    f ∈ floors := by
  cases floors with
  | nil => cases strongest
  | cons first rest =>
      cases strongest
      exact foldl_stronger_mem first rest

theorem admits_of_strongest? {floors : List Floor} (strongest : strongest? floors = some f)
    (v : Version) : f.admits v = true ↔ ∀ b ∈ floors, b.admits v = true := by
  cases floors with
  | nil => cases strongest
  | cons first rest =>
      cases strongest
      exact foldl_stronger_admits first rest v

/-! ## Specifiers -/

section

variable {s : Specifier} {specifiers : List Specifier}

theorem ofSpecifier?_eq (s : Specifier) : ofSpecifier? s =
    if s.operator ∈ Operator.lower then some ⟨s.version, s.operator ≠ .greater⟩ else none := by
  unfold ofSpecifier?
  cases s.operator <;> rfl

theorem ofSpecifier?_eq_some_iff : ofSpecifier? s = some f ↔
    s.operator ∈ Operator.lower ∧ f.version = s.version ∧
      (f.inclusive = false ↔ s.operator = .greater) := by
  rw [ofSpecifier?_eq]
  by_cases lower : s.operator ∈ Operator.lower
  · cases f
    simp [lower]
    grind
  · simp [lower]

theorem admits_of_ofSpecifier? (bound : ofSpecifier? s = some f) (v : Version) :
    f.admits v = true ↔ s.IsReached v := by
  obtain ⟨-, version, kind⟩ := ofSpecifier?_eq_some_iff.mp bound
  unfold admits Specifier.IsReached
  rw [version]
  by_cases greater : s.operator = .greater
  · rw [if_pos greater, if_neg (by simp [kind.mpr greater])]
  · rw [if_neg greater, if_pos (by simpa using mt kind.mp greater)]

theorem ofSpecifiers?_eq_none_iff :
    ofSpecifiers? specifiers = none ↔ ∀ s ∈ specifiers, s.operator ∉ Operator.lower := by
  rw [ofSpecifiers?, strongest?_eq_none_iff, List.filterMap_eq_nil_iff]
  simp [ofSpecifier?_eq]

theorem exists_of_ofSpecifiers? (floored : ofSpecifiers? specifiers = some f) :
    ∃ s ∈ specifiers, ofSpecifier? s = some f :=
  List.mem_filterMap.mp (mem_of_strongest? floored)

theorem admits_iff_reached (floored : ofSpecifiers? specifiers = some f) (v : Version) :
    f.admits v = true ↔ ∀ s ∈ specifiers, s.operator ∈ Operator.lower → s.IsReached v := by
  rw [admits_of_strongest? floored]
  constructor
  · intro each s member lower
    have bound : ofSpecifier? s = some ⟨s.version, s.operator ≠ .greater⟩ := by
      rw [ofSpecifier?_eq, if_pos lower]
    rw [← admits_of_ofSpecifier? bound]
    exact each _ (List.mem_filterMap.mpr ⟨s, member, bound⟩)
  · intro each b member
    obtain ⟨s, member, bound⟩ := List.mem_filterMap.mp member
    rw [admits_of_ofSpecifier? bound]
    exact each s member (ofSpecifier?_eq_some_iff.mp bound).1

theorem admits_congr {others : List Specifier} (same : ∀ s, s ∈ others ↔ s ∈ specifiers) :
    (ofSpecifiers? others).map admits = (ofSpecifiers? specifiers).map admits := by
  cases floored : ofSpecifiers? specifiers with
  | none =>
      have bare : ofSpecifiers? others = none := by
        rw [ofSpecifiers?_eq_none_iff] at floored ⊢
        exact fun s member => floored s ((same s).mp member)
      rw [bare]
  | some f =>
      cases floored' : ofSpecifiers? others with
      | none =>
          rw [ofSpecifiers?_eq_none_iff] at floored'
          have bare : ofSpecifiers? specifiers = none :=
            ofSpecifiers?_eq_none_iff.mpr fun s member => floored' s ((same s).mpr member)
          rw [bare] at floored
          cases floored
      | some g =>
          refine congrArg some (funext fun v => ?_)
          rw [Bool.eq_iff_iff, admits_iff_reached floored, admits_iff_reached floored']
          simp only [same]

/-- The floor of a list of specifiers is the strongest of their lower bounds. There is none exactly
    if no specifier sets a bound. Otherwise it is the bound of one of them and admits what reaches
    all of them; one with `>` makes it exclusive if it stands at the same version. Neither the order
    of the list nor repetitions in it change what is admitted. -/
theorem floor_strongest (specifiers : List Specifier) :
    (ofSpecifiers? specifiers = none ↔ ∀ s ∈ specifiers, s.operator ∉ Operator.lower) ∧
    (∀ f, ofSpecifiers? specifiers = some f →
      (∃ s ∈ specifiers, s.operator ∈ Operator.lower ∧ f.version = s.version ∧
        (f.inclusive = false ↔ s.operator = .greater)) ∧
      (∀ v, f.admits v = true ↔
        ∀ s ∈ specifiers, s.operator ∈ Operator.lower → s.IsReached v) ∧
      ∀ s ∈ specifiers, s.operator = .greater → s.version.same f.version = true →
        f.inclusive = false) ∧
    ∀ others, (∀ s, s ∈ others ↔ s ∈ specifiers) →
      (ofSpecifiers? others).map admits = (ofSpecifiers? specifiers).map admits := by
  refine ⟨ofSpecifiers?_eq_none_iff, ?_, fun _ => admits_congr⟩
  intro f floored
  refine ⟨?_, admits_iff_reached floored, ?_⟩
  · obtain ⟨s, member, bound⟩ := exists_of_ofSpecifiers? floored
    exact ⟨s, member, ofSpecifier?_eq_some_iff.mp bound⟩
  · intro s member greater same
    -- An inclusive floor would admit its own version, which does not reach the bound of `s`.
    rw [← Bool.not_eq_true]
    intro inclusive
    have admitted : f.admits f.version = true := by
      rw [admits, if_pos inclusive, Version.atMost_refl]
    have lower : s.operator ∈ Operator.lower := by simp [greater, Operator.lower]
    have reached : s.IsReached f.version :=
      (admits_iff_reached floored f.version).mp admitted s member lower
    rw [Specifier.IsReached, if_pos greater, Version.not_before_of_same same] at reached
    cases reached

/-- Of `>=1.0` and `>1.0.0` the second one is the floor. -/
theorem floor_of_level_bounds :
    let specifiers : List Specifier :=
      [⟨.atLeast, .ofRelease [1, 0]⟩, ⟨.greater, .ofRelease [1, 0, 0]⟩, ⟨.less, .ofRelease [2]⟩]
    let floor : Floor := ⟨.ofRelease [1, 0, 0], false⟩
    ofSpecifiers? specifiers = some floor ∧ floor.admits (.ofRelease [1]) = false ∧
      (ofSpecifiers? specifiers.reverse).map admits = some floor.admits := by
  intro specifiers floor
  have floored : ofSpecifiers? specifiers = some floor := by decide
  obtain ⟨-, strongest, congruent⟩ := floor_strongest specifiers
  obtain ⟨-, reached, -⟩ := strongest floor floored
  refine ⟨floored, ?_, ?_⟩
  · rw [← Bool.not_eq_true, reached]
    intro each
    have above := each _ (List.mem_cons_of_mem _ List.mem_cons_self) (by decide)
    exact absurd above (by decide)
  · rw [congruent specifiers.reverse fun s => List.mem_reverse, floored]
    rfl

end

end Floor

end PinFloor
