import PinFloor.Check
import PinFloor.Proofs.Version.Order

/-! # The pins of a package

Some constraints of a package carry no pin, one pin, or pins in conflict. The list of distinct
pins that a check looks at is empty, has one element or has more accordingly.
-/

namespace PinFloor.Pin

/-- What two pins of one kind and version share. -/
def key : Pin → Option (Bool × List (List Nat))
  | exact version => some (true, version.rank)
  | minimum version => some (false, version.rank)
  | unpinned => none

theorem same_iff (a b : Pin) : a.same b = true ↔ a.key = b.key := by
  cases a <;> cases b <;> simp [same, key, Version.same_iff]

@[simp] theorem same_refl (pin : Pin) : pin.same pin = true := (same_iff pin pin).mpr rfl

theorem same_comm (a b : Pin) : a.same b = b.same a := by
  rw [Bool.eq_iff_iff, same_iff, same_iff]
  exact eq_comm

theorem same_congr {a b : Pin} (h : a.same b = true) (pin : Pin) : a.same pin = b.same pin := by
  rw [Bool.eq_iff_iff, same_iff, same_iff, (same_iff a b).mp h]

theorem distinct_subset (pins : List Pin) : ∀ pin ∈ distinct pins, pin ∈ pins := by
  induction pins with
  | nil => exact fun _ member => member
  | cons first rest ih =>
      intro pin member
      rcases List.mem_cons.mp member with rfl | member
      · exact List.mem_cons_self
      · exact List.mem_cons_of_mem _ (ih pin (List.mem_filter.mp member).1)

theorem exists_distinct_same (pins : List Pin) :
    ∀ pin ∈ pins, ∃ kept ∈ distinct pins, kept.same pin = true := by
  induction pins with
  | nil => simp
  | cons first rest ih =>
      intro pin member
      by_cases same : first.same pin = true
      · exact ⟨first, List.mem_cons_self, same⟩
      · rcases List.mem_cons.mp member with rfl | member
        · exact absurd (same_refl pin) same
        · obtain ⟨kept, inside, hk⟩ := ih pin member
          have apart : first.same kept = false := by
            rw [same_comm, same_congr hk, same_comm]
            exact Bool.not_eq_true _ ▸ same
          exact ⟨kept, List.mem_cons_of_mem _ (List.mem_filter.mpr ⟨inside, by simp [apart]⟩), hk⟩

theorem distinct_apart (pins : List Pin) :
    (distinct pins).Pairwise fun a b => a.same b = false := by
  induction pins with
  | nil => exact .nil
  | cons first rest ih =>
      refine .cons (fun pin member => ?_) (ih.filter _)
      simpa using (List.mem_filter.mp member).2

theorem head_distinct (pins : List Pin) : (distinct pins).head? = pins.head? := by
  cases pins <;> rfl

/-- Some constraints carry this pin and no other: it is the first that they carry, and whichever of
    them pins a version pins the same. Versions that differ in trailing zeros are one, so a pin may
    be written in several ways; the first one stands for all. -/
structure IsSole (pin : Pin) (constraints : List Entry) : Prop where
  first : (constraints.map Entry.pin).find? isPinned = some pin
  same : ∀ c ∈ constraints, c.pin.isPinned = true → c.pin.same pin = true

/-- Some constraints carry pins that differ in version or in kind. -/
def Conflict (constraints : List Entry) : Prop :=
  ∃ a ∈ constraints, ∃ b ∈ constraints,
    a.pin.isPinned = true ∧ b.pin.isPinned = true ∧ a.pin.same b.pin = false

section

variable {constraints : List Entry} {pin : Pin}

theorem IsSole.isPinned (sole : pin.IsSole constraints) : pin.isPinned = true :=
  List.find?_some sole.first

theorem IsSole.ne_nil (sole : pin.IsSole constraints) : constraints ≠ [] := by
  rintro rfl
  cases sole.first

theorem mem_ofConstraints (member : pin ∈ ofConstraints constraints) :
    ∃ c ∈ constraints, c.pin = pin ∧ pin.isPinned = true := by
  obtain ⟨member, pinned⟩ := List.mem_filter.mp (distinct_subset _ pin member)
  obtain ⟨c, hc, rfl⟩ := List.mem_map.mp member
  exact ⟨c, hc, rfl, pinned⟩

theorem exists_ofConstraints_same {c : Entry} (member : c ∈ constraints)
    (pinned : c.pin.isPinned = true) : ∃ kept ∈ ofConstraints constraints, kept.same c.pin = true :=
  exists_distinct_same _ _ (List.mem_filter.mpr ⟨List.mem_map_of_mem member, pinned⟩)

theorem head_ofConstraints (constraints : List Entry) :
    (ofConstraints constraints).head? = (constraints.map Entry.pin).find? isPinned := by
  rw [ofConstraints, head_distinct, List.head?_filter]

theorem ofConstraints_eq_singleton_iff :
    ofConstraints constraints = [pin] ↔ pin.IsSole constraints := by
  constructor
  · intro only
    refine ⟨by rw [← head_ofConstraints, only]; rfl, fun c member pinned => ?_⟩
    obtain ⟨kept, inside, hk⟩ := exists_ofConstraints_same member pinned
    rw [only, List.mem_singleton] at inside
    rw [same_comm, ← inside]
    exact hk
  · intro sole
    have head : (ofConstraints constraints).head? = some pin := by
      rw [head_ofConstraints, sole.first]
    have apart : (ofConstraints constraints).Pairwise fun a b => a.same b = false :=
      distinct_apart _
    cases found : ofConstraints constraints with
    | nil => simp [found] at head
    | cons first rest =>
        obtain rfl : first = pin := by simpa [found] using head
        cases rest with
        | nil => rfl
        | cons second rest =>
            -- A second pin would be the same as the first one, and no two kept pins are.
            obtain ⟨c, member, rfl, pinned⟩ :=
              mem_ofConstraints (found ▸ List.mem_cons_of_mem _ List.mem_cons_self)
            rw [found] at apart
            have differs := List.rel_of_pairwise_cons apart List.mem_cons_self
            rw [same_comm, sole.same c member pinned] at differs
            cases differs

theorem conflict_iff_two_le : Conflict constraints ↔ 2 ≤ (ofConstraints constraints).length := by
  have apart : (ofConstraints constraints).Pairwise fun a b => a.same b = false :=
    distinct_apart _
  constructor
  · rintro ⟨a, ha, b, hb, pinnedA, pinnedB, differ⟩
    obtain ⟨keptA, insideA, sameA⟩ := exists_ofConstraints_same ha pinnedA
    obtain ⟨keptB, insideB, sameB⟩ := exists_ofConstraints_same hb pinnedB
    match found : ofConstraints constraints with
    | [] => simp [found] at insideA
    | [only] =>
        rw [found, List.mem_singleton] at insideA insideB
        subst insideA insideB
        rw [← same_congr sameA, sameB] at differ
        cases differ
    | _ :: _ :: _ => simp
  · intro two
    match found : ofConstraints constraints, two with
    | first :: second :: rest, _ =>
        obtain ⟨a, ha, rfl, pinnedA⟩ := mem_ofConstraints (found ▸ List.mem_cons_self)
        obtain ⟨b, hb, rfl, pinnedB⟩ :=
          mem_ofConstraints (found ▸ List.mem_cons_of_mem _ List.mem_cons_self)
        rw [found] at apart
        exact ⟨a, ha, b, hb, pinnedA, pinnedB,
          List.rel_of_pairwise_cons apart List.mem_cons_self⟩

theorem IsSole.unique {other : Pin} (sole : pin.IsSole constraints)
    (again : other.IsSole constraints) : other = pin :=
  Option.some.inj (again.first.symm.trans sole.first)

theorem IsSole.not_conflict (sole : pin.IsSole constraints) : ¬ Conflict constraints := by
  rw [conflict_iff_two_le, ofConstraints_eq_singleton_iff.mpr sole]
  simp

theorem sole_or_conflict {c : Entry} (member : c ∈ constraints) (pinned : c.pin.isPinned = true) :
    (∃ pin : Pin, pin.IsSole constraints) ∨ Conflict constraints := by
  obtain ⟨kept, inside, -⟩ := exists_ofConstraints_same member pinned
  match found : ofConstraints constraints with
  | [] => simp [found] at inside
  | [pin] => exact .inl ⟨pin, ofConstraints_eq_singleton_iff.mp found⟩
  | _ :: _ :: _ => exact .inr (conflict_iff_two_le.mpr (by simp [found]))

end

end PinFloor.Pin
