import PinFloor.Proofs.Floor
import PinFloor.Proofs.Specifier.Reading

/-! # Allowed versions and lower bounds

A version that a specifier allows reaches the specifier's own bound, whatever the operator. Only
`==V.*` is different: it compares no more than the release numbers that both versions have, so it
also allows versions that come before `V`.
-/

namespace PinFloor

open Std

/-! ## Longer lists come later -/

section

variable {α : Type} [Ord α] [ReflOrd α]

theorem compare_append (xs ys : List α) :
    compare xs (xs ++ ys) = if ys.isEmpty then .eq else .lt := by
  induction xs with
  | nil => cases ys <;> rfl
  | cons x xs ih =>
      rw [List.cons_append, List.compare_eq_compareLex, List.compareLex_cons_cons,
        ReflOrd.compare_self, ← List.compare_eq_compareLex, ih]
      rfl

theorem compare_of_prefix {xs ys : List α} (shorter : xs <+: ys) (apart : xs ≠ ys) :
    compare xs ys = .lt := by
  obtain ⟨zs, rfl⟩ := shorter
  rw [compare_append, if_neg]
  rintro empty
  exact apart (by rw [List.isEmpty_iff.mp empty, List.append_nil])

end

/-! ## Releases -/

section

variable {a b : List Nat}

theorem trimZeros_cons (n : Nat) (ns : List Nat) :
    trimZeros (n :: ns) = if n = 0 ∧ trimZeros ns = [] then [] else n :: trimZeros ns := rfl

theorem trimZeros_append (a b : List Nat) : trimZeros (a ++ b) =
    if trimZeros b = [] then trimZeros a else a ++ trimZeros b := by
  -- Zeros at the end of `a` stay if something is left of `b`.
  induction a with
  | nil =>
      split
      · next none => exact none
      · rfl
  | cons n a ih =>
      rw [List.cons_append, trimZeros_cons, ih]
      split
      · rfl
      · next some => simp [some]

theorem isPrefix_trimZeros (a : List Nat) : trimZeros a <+: a := by
  induction a with
  | nil => exact List.nil_prefix
  | cons n a ih =>
      rw [trimZeros_cons]
      split
      · exact List.nil_prefix
      · exact List.cons_prefix_cons.mpr ⟨rfl, ih⟩

theorem trimZeros_mono (shorter : a <+: b) : trimZeros a <+: trimZeros b := by
  obtain ⟨c, rfl⟩ := shorter
  rw [trimZeros_append]
  split
  · exact List.prefix_rfl
  · exact (isPrefix_trimZeros a).trans (List.prefix_append a _)

theorem prefix_of_agree (same : agree a b = true) (shorter : a.length ≤ b.length) : a <+: b := by
  induction a generalizing b with
  | nil => exact List.nil_prefix
  | cons n a ih =>
      cases b with
      | nil => cases shorter
      | cons m b =>
          simp only [agree, List.zip_cons_cons, List.all_cons, Bool.and_eq_true,
            beq_iff_eq] at same
          obtain ⟨rfl, rest⟩ := same
          exact List.cons_prefix_cons.mpr ⟨rfl, ih rest (Nat.le_of_succ_le_succ shorter)⟩

theorem agree_comm (a b : List Nat) : agree a b = agree b a := by
  induction a generalizing b with
  | nil => cases b <;> rfl
  | cons n a ih =>
      cases b with
      | nil => rfl
      | cons m b =>
          have rest : agree a b = agree b a := ih b
          simp only [agree, List.zip_cons_cons, List.all_cons] at rest ⊢
          rw [rest, Bool.beq_comm]

end

namespace Version

variable {a b v : Version}

/-- Whether a version comes before the final release with its release numbers. -/
def isPreliminary (v : Version) : Bool :=
  v.pre.isSome || (v.dev.isSome && v.post.isNone)

theorem withoutLabel_atMost (v : Version) : v.withoutLabel.atMost v = true := by
  have rank : v.rank = v.withoutLabel.rank ++ v.label.map LabelPart.rank := rfl
  rw [atMost_eq_isLE, compare, rank, compare_append]
  split <;> rfl

theorem compare_of_epoch (less : a.epoch < b.epoch) : a.compare b = .lt := by
  have first : Ord.compare [a.epoch] [b.epoch] = .lt := by
    rw [List.compare_eq_compareLex, List.compareLex_cons_cons, Nat.compare_eq_lt.mpr less]
    rfl
  rw [compare, rank, rank, List.compare_eq_compareLex, List.compareLex_cons_cons, first]
  rfl

theorem compare_of_release (epoch : a.epoch = b.epoch) (shorter : a.release <+: b.release)
    (apart : a.sameRelease b = false) : a.compare b = .lt := by
  have release : Ord.compare (trimZeros a.release) (trimZeros b.release) = .lt :=
    compare_of_prefix (trimZeros_mono shorter) (by simpa [sameRelease] using apart)
  rw [compare, rank, rank, epoch, List.compare_eq_compareLex, List.compareLex_cons_cons,
    ReflOrd.compare_self, List.compareLex_cons_cons, release]
  rfl

theorem compare_of_sameRelease (epoch : a.epoch = b.epoch) (same : a.sameRelease b = true) :
    a.compare b = Ord.compare (a.rank.drop 2) (b.rank.drop 2) := by
  have release : trimZeros a.release = trimZeros b.release := by simpa [sameRelease] using same
  rw [compare, rank, rank, epoch, release, List.compare_eq_compareLex, List.compareLex_cons_cons,
    ReflOrd.compare_self, List.compareLex_cons_cons, ReflOrd.compare_self]
  rfl

/-- A plain version comes after what is preliminary to it, and before all else with its release
    numbers. -/
theorem plain_atMost_iff (plain : a.IsPlain) (epoch : a.epoch = v.epoch)
    (same : a.sameRelease v = true) : a.atMost v = true ↔ v.isPreliminary = false := by
  rw [atMost_eq_isLE, compare_of_sameRelease epoch same]
  have final : a.rank.drop 2 = [[5, 0], [], [Decimal.wordSize - 1]] := by
    rw [plain]
    rfl
  rw [final, rank]
  obtain ⟨_, _, pre, post, dev, label⟩ := v
  -- The phases differ in their first number, except for a final release.
  match pre, post, dev with
  | some (stage, n), _, _ =>
      refine iff_of_false ?_ (by simp [isPreliminary])
      cases stage <;> exact Bool.false_ne_true
  | none, some n, _ => exact iff_of_true rfl (by simp [isPreliminary])
  | none, none, some n => exact iff_of_false Bool.false_ne_true (by simp [isPreliminary])
  | none, none, none =>
      have later : (Ord.compare [[5, 0], [], [Decimal.wordSize - 1]]
          ([[5, 0], [], [Decimal.wordSize - 1]] ++ label.map LabelPart.rank)).isLE = true := by
        rw [compare_append]
        split <;> rfl
      exact iff_of_true later rfl

end Version

/-! ## Bounds -/

namespace Specifier

variable {s : Specifier} {v : Version}

/-- A specifier `==V.*` whose `V` comes after a version that it allows: the version is preliminary
    to `V`, or is given with fewer release numbers. -/
def Overshoots (s : Specifier) (v : Version) : Prop :=
  s.operator = .matching ∧
    if s.version.sameRelease v then v.isPreliminary = true
    else v.release.length < s.version.release.length

theorem epoch_and_agree_of_startsWith {bound : Version} (starts : startsWith bound v = true) :
    bound.epoch = v.epoch ∧ agree bound.release v.release = true := by
  simpa [startsWith] using starts

/-- How a version that starts with a plain one compares with it. -/
theorem plain_atMost_of_startsWith {bound : Version} (plain : bound.IsPlain)
    (starts : startsWith bound v = true) : bound.atMost v = true ↔
      ¬ if bound.sameRelease v then v.isPreliminary = true
        else v.release.length < bound.release.length := by
  obtain ⟨epoch, agrees⟩ := epoch_and_agree_of_startsWith starts
  split
  · next same =>
      rw [Version.plain_atMost_iff plain epoch same, Bool.not_eq_true]
  · next apart =>
      rw [Bool.not_eq_true] at apart
      by_cases longer : bound.release.length ≤ v.release.length
      · have less := Version.compare_of_release epoch (prefix_of_agree agrees longer) apart
        refine iff_of_true ?_ (by omega)
        rw [Version.atMost, less]
        rfl
      · have shorter : v.release <+: bound.release :=
          prefix_of_agree (by rw [agree_comm, agrees]) (by omega)
        have apart' : v.sameRelease bound = false := by
          rw [Version.sameRelease, Bool.beq_comm]
          exact apart
        have less : v.before bound = true :=
          Version.before_iff.mpr (Version.compare_of_release epoch.symm shorter apart')
        refine iff_of_false ?_ (by omega)
        rw [Version.before_iff_not_atMost] at less
        simp [less]

theorem before_of_isAbove {bound : Version} (above : isAbove bound v = true) :
    bound.before v = true := by
  unfold isAbove at above
  split at above
  · next less => exact Version.before_iff.mpr (Version.compare_of_epoch less)
  · split at above
    · cases above
    · exact above

/-- The version that a specifier looks at is not above the given one. -/
theorem looked_atMost (label : List LabelPart) (v : Version) :
    (if label.isEmpty then v.withoutLabel else v).atMost v = true := by
  split
  · exact Version.withoutLabel_atMost v
  · exact Version.atMost_refl v

theorem reached_of_allows (proper : s.IsProper) (versioned : v.IsProper)
    (lower : s.operator ∈ Operator.lower) (single : s.operator ≠ .matching)
    (allowed : s.allows v = true) : s.IsReached v := by
  have looked := looked_atMost s.version.label v
  have reached {w : Version} (high : s.version.atMost w = true) (low : w.atMost v = true)
      (inclusive : s.operator ≠ .greater) : s.IsReached v := by
    rw [IsReached, if_neg inclusive]
    exact Version.atMost_trans high low
  cases operator : s.operator with
  | matching => exact absurd operator single
  | notEqual | notMatching | less | atMost => simp [operator, Operator.lower] at lower
  | equal =>
      simp only [allows, operator] at allowed
      refine reached (Version.atMost_iff.mpr (.inr ?_)) looked (by simp [operator])
      rw [Version.same_iff] at allowed ⊢
      exact allowed.symm
  | identical =>
      -- The texts are the same, and the text of a version that was read tells all about it.
      simp only [allows, operator, beq_iff_eq] at allowed
      have same : s.version = v := Version.text_injective proper.version versioned allowed
      rw [IsReached, if_neg (by simp [operator]), same, Version.atMost_refl]
  | compatible =>
      simp only [allows, operator, Bool.and_eq_true] at allowed
      exact reached allowed.2 looked (by simp [operator])
  | greater =>
      simp only [allows, operator] at allowed
      rw [IsReached, if_pos operator]
      exact Version.before_of_before_of_atMost (before_of_isAbove allowed) looked
  | atLeast =>
      simp only [allows, operator, Bool.or_eq_true] at allowed
      refine reached ?_ looked (by simp [operator])
      rcases allowed with above | high
      · exact Version.atMost_of_before (before_of_isAbove above)
      · exact high

/-- An allowed version reaches the bound of the specifier, unless a `==V.*` overshoots it. -/
theorem reached_iff_of_allows (proper : s.IsProper) (versioned : v.IsProper)
    (lower : s.operator ∈ Operator.lower) (allowed : s.allows v = true) :
    s.IsReached v ↔ ¬ s.Overshoots v := by
  by_cases matching : s.operator = .matching
  · have starts : startsWith s.version v = true := by
      simp only [allows, matching] at allowed
      split at allowed
      · exact allowed
      · exact allowed
    rw [IsReached, if_neg (by simp [matching]), Overshoots,
      plain_atMost_of_startsWith (proper.plain matching) starts]
    simp [matching]
  · exact iff_of_true (reached_of_allows proper versioned lower matching allowed)
      fun overshoots => matching overshoots.1

end Specifier

/-- The floor of a list of specifiers admits the versions that the specifiers allow, unless a
    `==V.*` among them overshoots. -/
theorem Floor.admits_iff_of_allowed {specifiers : List Specifier} {f : Floor} {v : Version}
    (proper : ∀ s ∈ specifiers, s.IsProper) (versioned : v.IsProper)
    (allowed : Specifier.allAllow specifiers v = true)
    (floored : ofSpecifiers? specifiers = some f) :
    f.admits v = true ↔ ∀ s ∈ specifiers, ¬ s.Overshoots v := by
  rw [admits_iff_reached floored]
  refine forall₂_congr fun s member => ?_
  have each : s.allows v = true := List.all_eq_true.mp allowed s member
  constructor
  · intro reached overshoots
    have lower : s.operator ∈ Operator.lower := by simp [overshoots.1, Operator.lower]
    exact (Specifier.reached_iff_of_allows (proper s member) versioned lower each).mp
      (reached lower) overshoots
  · intro fits lower
    exact (Specifier.reached_iff_of_allows (proper s member) versioned lower each).mpr fits

end PinFloor
