import PinFloor.Report

/-! # Places and findings as keys

Paths, origins and findings are compared part by part. Each comparison decides equality of a key
made of those parts, so "being the same" is an equivalence, and facts about it are facts about
equal keys.
-/

namespace PinFloor

theorem Path.same_iff (a b : Path) : a.same b = true ↔ a.parts = b.parts := by
  simp only [Path.same, beq_iff_eq]

namespace Origin

/-- The parts that two origins of one place share. -/
def key (o : Origin) : List PathPart × Nat := (o.path.parts, o.line)

theorem same_iff (a b : Origin) : a.same b = true ↔ a.key = b.key := by
  simp only [same, key, Bool.and_eq_true, Path.same_iff, beq_iff_eq, Prod.mk.injEq]

@[simp] theorem same_refl (o : Origin) : o.same o = true := (same_iff o o).mpr rfl

theorem same_trans {a b c : Origin} (ab : a.same b = true) (bc : b.same c = true) :
    a.same c = true :=
  (same_iff a c).mpr (((same_iff a b).mp ab).trans ((same_iff b c).mp bc))

end Origin

theorem sameList_iff {α κ : Type} {same : α → α → Bool} {key : α → κ}
    (h : ∀ a b, same a b = true ↔ key a = key b) (as bs : List α) :
    sameList same as bs = true ↔ as.map key = bs.map key := by
  induction as generalizing bs with
  | nil => cases bs <;> simp [sameList]
  | cons a as ih =>
      cases bs with
      | nil => simp [sameList]
      | cons b bs => simp [sameList, h, ih]

namespace Finding

/-- A rule, a package, a message, the place of a requirement and the places of constraints. -/
abbrev Key :=
  Rule × PackageName × String × List (List PathPart × Nat) × List (List PathPart × Nat)

/-- What makes a finding the one it is. -/
def key (f : Finding) : Key :=
  (f.rule, f.package, f.message, f.requirement.toList.map Origin.key, f.constraints.map Origin.key)

theorem same_iff (a b : Finding) : a.same b = true ↔ a.key = b.key := by
  simp only [same, key, Bool.and_eq_true, beq_iff_eq, sameList_iff Origin.same_iff,
    Prod.mk.injEq, and_assoc]

@[simp] theorem same_refl (f : Finding) : f.same f = true := (same_iff f f).mpr rfl

theorem same_comm (a b : Finding) : a.same b = b.same a := by
  rw [Bool.eq_iff_iff, same_iff, same_iff]
  exact eq_comm

theorem same_congr {a b : Finding} (h : a.same b = true) (f : Finding) : a.same f = b.same f := by
  rw [Bool.eq_iff_iff, same_iff, same_iff, (same_iff a b).mp h]

theorem rule_eq_of_same {a b : Finding} (h : a.same b = true) : a.rule = b.rule :=
  congrArg Prod.fst ((same_iff a b).mp h)

theorem package_eq_of_same {a b : Finding} (h : a.same b = true) : a.package = b.package :=
  congrArg (·.2.1) ((same_iff a b).mp h)

theorem message_eq_of_same {a b : Finding} (h : a.same b = true) : a.message = b.message :=
  congrArg (·.2.2.1) ((same_iff a b).mp h)

theorem requirement_same_of_same {a b : Finding} (h : a.same b = true) :
    a.requirement.map Origin.key = b.requirement.map Origin.key := by
  have keys : a.requirement.toList.map Origin.key = b.requirement.toList.map Origin.key :=
    congrArg (·.2.2.2.1) ((same_iff a b).mp h)
  cases ha : a.requirement <;> cases hb : b.requirement <;> simp [ha, hb] at keys ⊢
  exact keys

theorem constraints_same_of_same {a b : Finding} (h : a.same b = true) :
    sameList Origin.same a.constraints b.constraints = true :=
  (sameList_iff Origin.same_iff _ _).mpr (congrArg (·.2.2.2.2) ((same_iff a b).mp h))

theorem origin_same_of_same {a b : Finding} (h : a.same b = true) :
    a.origin?.map Origin.key = b.origin?.map Origin.key := by
  have constraints : a.constraints.map Origin.key = b.constraints.map Origin.key :=
    congrArg (·.2.2.2.2) ((same_iff a b).mp h)
  rw [origin?, origin?, Option.map_or, Option.map_or, requirement_same_of_same h,
    ← List.head?_map, ← List.head?_map, constraints]

theorem same_of_parts {a b : Finding} (rule : a.rule = b.rule) (package : a.package = b.package)
    (message : a.message = b.message)
    (requirement : a.requirement.map Origin.key = b.requirement.map Origin.key)
    (constraints : a.constraints.map Origin.key = b.constraints.map Origin.key) :
    a.same b = true := by
  rw [same_iff, key, key, rule, package, message, constraints, ← Option.toList_map,
    ← Option.toList_map, requirement]

end Finding

end PinFloor
