import PinFloor.Proofs.Check.Pins

/-! # What a check finds

A check of a package returns early in several places. Here its findings are described one by one:
each comes from a constraint alone, from pins in conflict, or from one requirement. The list of
findings has no others, and leaves none out.
-/

namespace PinFloor

/-- An entry that applies everywhere, in the first line of a file. -/
def Entry.plain (file name : String) (specifiers : List Specifier) : Entry where
  requirement :=
    { name := ⟨name⟩, extras := [], source := .specifiers specifiers, marker := .leaf true }
  hashes := []
  origin := ⟨⟨file⟩, 1⟩

/-- The entry, where `sys_platform` is `win32`. -/
def Entry.onWindows (e : Entry) : Entry :=
  { e with requirement := { e.requirement with
    marker := .node (.text .sysPlatform (.before "win32")) (.leaf false)
      (.node (.text .sysPlatform (.after "win32")) (.leaf true) (.leaf false)) } }

/-- A check in one environment with all rules enabled. -/
def CheckSettings.onLinux : CheckSettings where
  matrix := ⟨[⟨3, 12, none⟩], [.linux]⟩
  severities := ⟨fun _ => .error⟩
  ignore := []
  strict := false

namespace Manifest

/-- The requirements of a package that apply in an environment. -/
def requirementsOf (m : Manifest) (environment : TargetEnvironment) (name : PackageName) :
    List Entry :=
  m.requirements.filter fun e => e.isActive environment && e.name == name

/-- The constraints of a package that apply in an environment. -/
def constraintsOf (m : Manifest) (environment : TargetEnvironment) (name : PackageName) :
    List Entry :=
  m.constraints.filter fun e => e.isActive environment && e.name == name

/-- The places of the constraints of a package that carry a pin in an environment, in their
    order. -/
def carriersOf (m : Manifest) (environment : TargetEnvironment) (name : PackageName)
    (pin : Pin) : List Origin :=
  ((m.constraintsOf environment name).filter (·.pin.same pin)).map Entry.origin

section

variable {m : Manifest} {environment : TargetEnvironment} {name : PackageName} {e : Entry}

theorem mem_requirementsOf : e ∈ m.requirementsOf environment name ↔
    e ∈ m.requirements ∧ e.isActive environment = true ∧ e.name = name := by
  simp only [requirementsOf, List.mem_filter, Bool.and_eq_true, beq_iff_eq]

theorem mem_constraintsOf : e ∈ m.constraintsOf environment name ↔
    e ∈ m.constraints ∧ e.isActive environment = true ∧ e.name = name := by
  simp only [constraintsOf, List.mem_filter, Bool.and_eq_true, beq_iff_eq]

/-- Entries may be taken by environment first and then by package. -/
theorem filter_active_requirements :
    (m.active environment).requirements.filter (·.name == name) = m.requirementsOf environment name := by
  simp only [active, requirementsOf, List.filter_filter, Bool.and_comm]

theorem filter_active_constraints :
    (m.active environment).constraints.filter (·.name == name) = m.constraintsOf environment name := by
  simp only [active, constraintsOf, List.filter_filter, Bool.and_comm]

theorem isRequired_iff : m.isRequired name = true ↔ ∃ r ∈ m.requirements, r.name = name := by
  simp [isRequired]

theorem mem_packages :
    name ∈ m.packages ↔ ∃ e ∈ m.requirements ++ m.constraints, e.name = name := by
  rw [packages, PackageName.sorted, List.mem_eraseDups, List.mem_mergeSort, List.mem_map]

theorem mem_active_packages : name ∈ (m.active environment).packages ↔
    m.requirementsOf environment name ≠ [] ∨ m.constraintsOf environment name ≠ [] := by
  have found (entries : List Entry) :
      entries.filter (·.name == name) ≠ [] ↔ ∃ e ∈ entries, e.name = name := by
    simp [List.filter_eq_nil_iff]
  rw [mem_packages, ← filter_active_requirements, ← filter_active_constraints, found, found]
  simp only [List.mem_append, or_and_right, exists_or]

end

end Manifest

namespace Check

/-- What is found about a requirement, given the constraints of its package. -/
def ofRequirement (constraints : List Entry) (requirement : Entry) : Option Finding :=
  if constraints.isEmpty then ofUnconstrained requirement
  else
    match Pin.ofConstraints constraints with
    | [pin] =>
        pin.version?.bind fun version =>
          ofPinned (constraints.filter (·.pin.same pin)) pin version requirement
    | _ => none

/-- What is found about the constraints of a package together, given its requirements. -/
def ofPins (name : PackageName) (requirements constraints : List Entry) : List Finding :=
  match requirements, Pin.ofConstraints constraints with
  | _ :: _, first :: second :: rest => [conflicting name constraints (first :: second :: rest)]
  | _, _ => []

section

variable {required : Bool} {name : PackageName} {requirements constraints : List Entry}

theorem ofRequirement_of_bare (r : Entry) : ofRequirement [] r = ofUnconstrained r := rfl

theorem ofRequirement_of_sole {pin : Pin} {version : Version} (sole : pin.IsSole constraints)
    (pinned : pin.version? = some version) (r : Entry) : ofRequirement constraints r =
      ofPinned (constraints.filter (·.pin.same pin)) pin version r := by
  have filled : constraints.isEmpty = false := List.isEmpty_eq_false_iff.mpr sole.ne_nil
  simp [ofRequirement, filled, Pin.ofConstraints_eq_singleton_iff.mpr sole, pinned]

theorem ofBoth_eq (bound : constraints ≠ []) (used : requirements ≠ []) :
    ofBoth name requirements constraints = ofPins name requirements constraints
      ++ requirements.filterMap (ofRequirement constraints) := by
  have filled : constraints.isEmpty = false := List.isEmpty_eq_false_iff.mpr bound
  cases requirements with
  | nil => exact absurd rfl used
  | cons r rest =>
      match pins : Pin.ofConstraints constraints with
      | [] => simp [ofBoth, ofPins, ofRequirement, filled, pins]
      | [pin] =>
          have sole : pin.IsSole constraints := Pin.ofConstraints_eq_singleton_iff.mp pins
          obtain ⟨version, pinned⟩ := Option.isSome_iff_exists.mp sole.isPinned
          have each : ofRequirement constraints =
              ofPinned (constraints.filter (·.pin.same pin)) pin version :=
            funext (ofRequirement_of_sole sole pinned)
          simp [ofBoth, ofPins, pins, pinned, each]
      | _ :: _ :: _ => simp [ofBoth, ofPins, ofRequirement, filled, pins]

/-- The early exits of a package check leave out only findings that are not there. -/
theorem ofPackage_eq : ofPackage required name requirements constraints =
    constraints.flatMap (ofConstraint required) ++ (ofPins name requirements constraints
      ++ requirements.filterMap (ofRequirement constraints)) := by
  rw [ofPackage]
  congr 1
  by_cases idle : requirements = []
  · simp [idle, ofPins]
  by_cases bare : constraints = []
  · have each : ofRequirement [] = ofUnconstrained := funext ofRequirement_of_bare
    cases requirements <;> simp_all [ofPins, Pin.ofConstraints, Pin.distinct]
  · rw [if_neg (by simpa using idle), if_neg (by simpa using bare), ofBoth_eq bare idle]

end

/-- What may be found about a requirement of a package with these constraints. -/
inductive Fault (constraints : List Entry) (r : Entry) : Finding → Prop where
  | missing {floor : Floor} (bare : constraints = []) (floored : r.floor? = some floor) :
      Fault constraints r (missing r floor)
  | below {pin : Pin} {version : Version} {floor : Floor} (sole : pin.IsSole constraints)
      (pinned : pin.version? = some version) (floored : r.floor? = some floor)
      (low : floor.admits version = false) :
      Fault constraints r (below (constraints.filter (·.pin.same pin)) pin r floor)
  | excluded {version : Version} {list : List Specifier}
      (sole : (Pin.exact version).IsSole constraints)
      (admitted : ∀ floor, r.floor? = some floor → floor.admits version = true)
      (specified : r.specifiers? = some list) (refused : Specifier.allAllow list version = false) :
      Fault constraints r
        (excluded (constraints.filter (·.pin.same (.exact version))) (.exact version) r)

/-- What may be found about a package with these requirements and constraints. -/
inductive Arises (required : Bool) (name : PackageName) (requirements constraints : List Entry) :
    Finding → Prop where
  | unpinned {c : Entry} (member : c ∈ constraints) (loose : c.pin.isPinned = false) :
      Arises required name requirements constraints (unpinned c)
  | unused {c : Entry} (member : c ∈ constraints) (stray : required = false) :
      Arises required name requirements constraints (unused c)
  | conflicting (used : requirements ≠ []) (conflict : Pin.Conflict constraints) :
      Arises required name requirements constraints
        (conflicting name constraints (Pin.ofConstraints constraints))
  | fault {r : Entry} {f : Finding} (member : r ∈ requirements) (fault : Fault constraints r f) :
      Arises required name requirements constraints f

section

variable {required : Bool} {name : PackageName} {requirements constraints : List Entry}
  {r c : Entry} {f : Finding}

theorem mem_ofConstraint_iff : f ∈ ofConstraint required c ↔
    (c.pin.isPinned = false ∧ f = unpinned c) ∨ (required = false ∧ f = unused c) := by
  cases pinned : c.pin.isPinned <;> cases required <;> simp [ofConstraint, pinned]

theorem mem_ofPins_iff : f ∈ ofPins name requirements constraints ↔
    requirements ≠ [] ∧ Pin.Conflict constraints ∧
      f = conflicting name constraints (Pin.ofConstraints constraints) := by
  rw [Pin.conflict_iff_two_le]
  cases requirements with
  | nil => simp [ofPins]
  | cons r rest =>
      match pins : Pin.ofConstraints constraints with
      | [] => simp [ofPins, pins]
      | [pin] => simp [ofPins, pins]
      | _ :: _ :: _ => simp [ofPins, pins]

theorem ofPinned_of_low {pinned : List Entry} {pin : Pin} {version : Version} {floor : Floor}
    (floored : r.floor? = some floor) (low : floor.admits version = false) :
    ofPinned pinned pin version r = some (below pinned pin r floor) := by
  have kept : r.floor?.filter (!·.admits version) = some floor := by
    rw [floored, Option.filter_some, low]
    rfl
  simp only [ofPinned, kept]

theorem ofPinned_of_admitted {pinned : List Entry} {pin : Pin} {version : Version}
    (admitted : ∀ floor, r.floor? = some floor → floor.admits version = true) :
    ofPinned pinned pin version r = some f ↔ ∃ exact list, pin = .exact exact ∧
      r.specifiers? = some list ∧ Specifier.allAllow list exact = false ∧
      f = excluded pinned pin r := by
  have above : r.floor?.filter (!·.admits version) = none := by
    cases floored : r.floor? with
    | none => rfl
    | some floor => simp [admitted floor floored]
  simp only [ofPinned, above]
  cases pin with
  | exact exact =>
      cases r.specifiers? with
      | none => simp
      | some list =>
          cases allowed : Specifier.allAllow list exact with
          | true => simp [allowed]
          | false => simpa [allowed] using eq_comm
  | minimum version => simp
  | unpinned => simp

theorem fault_of_ofPinned {pin : Pin} {version : Version} (sole : pin.IsSole constraints)
    (pinned : pin.version? = some version)
    (found : ofPinned (constraints.filter (·.pin.same pin)) pin version r = some f) :
    Fault constraints r f := by
  by_cases low : ∃ floor, r.floor? = some floor ∧ floor.admits version = false
  · obtain ⟨floor, floored, low⟩ := low
    rw [ofPinned_of_low floored low] at found
    cases found
    exact .below sole pinned floored low
  · have admitted : ∀ floor, r.floor? = some floor → floor.admits version = true :=
      fun floor floored => Bool.of_not_eq_false fun refused => low ⟨floor, floored, refused⟩
    obtain ⟨exact, list, rfl, specified, refused, rfl⟩ := (ofPinned_of_admitted admitted).mp found
    cases pinned
    exact .excluded sole admitted specified refused

theorem fault_of_ofRequirement (found : ofRequirement constraints r = some f) :
    Fault constraints r f := by
  by_cases bare : constraints = []
  · subst bare
    obtain ⟨floor, floored, rfl⟩ := Option.map_eq_some_iff.mp found
    exact .missing rfl floored
  · match pins : Pin.ofConstraints constraints with
    | [pin] =>
        have sole : pin.IsSole constraints := Pin.ofConstraints_eq_singleton_iff.mp pins
        obtain ⟨version, pinned⟩ := Option.isSome_iff_exists.mp sole.isPinned
        exact fault_of_ofPinned sole pinned (ofRequirement_of_sole sole pinned r ▸ found)
    | [] => simp [ofRequirement, bare, pins] at found
    | _ :: _ :: _ => simp [ofRequirement, bare, pins] at found

theorem ofRequirement_of_fault (fault : Fault constraints r f) :
    ofRequirement constraints r = some f := by
  cases fault with
  | missing bare floored =>
      subst bare
      rw [ofRequirement_of_bare, ofUnconstrained, floored]
      rfl
  | below sole pinned floored low =>
      rw [ofRequirement_of_sole sole pinned, ofPinned_of_low floored low]
  | excluded sole admitted specified refused =>
      rw [ofRequirement_of_sole sole rfl, ofPinned_of_admitted admitted]
      exact ⟨_, _, rfl, specified, refused, rfl⟩

theorem ofRequirement_eq_some_iff : ofRequirement constraints r = some f ↔ Fault constraints r f :=
  ⟨fault_of_ofRequirement, ofRequirement_of_fault⟩

theorem mem_ofPackage_iff : f ∈ ofPackage required name requirements constraints ↔
    Arises required name requirements constraints f := by
  rw [ofPackage_eq, List.mem_append, List.mem_append, List.mem_flatMap, List.mem_filterMap]
  constructor
  · rintro (⟨c, member, found⟩ | found | ⟨r, member, found⟩)
    · rcases mem_ofConstraint_iff.mp found with ⟨loose, rfl⟩ | ⟨stray, rfl⟩
      · exact .unpinned member loose
      · exact .unused member stray
    · obtain ⟨used, conflict, rfl⟩ := mem_ofPins_iff.mp found
      exact .conflicting used conflict
    · exact .fault member (ofRequirement_eq_some_iff.mp found)
  · intro arises
    cases arises with
    | unpinned member loose =>
        exact .inl ⟨_, member, mem_ofConstraint_iff.mpr (.inl ⟨loose, rfl⟩)⟩
    | unused member stray =>
        exact .inl ⟨_, member, mem_ofConstraint_iff.mpr (.inr ⟨stray, rfl⟩)⟩
    | conflicting used conflict =>
        exact .inr (.inl (mem_ofPins_iff.mpr ⟨used, conflict, rfl⟩))
    | fault member fault =>
        exact .inr (.inr ⟨_, member, ofRequirement_eq_some_iff.mpr fault⟩)

end

/-- What may be found about a package in an environment. -/
def ArisesIn (m : Manifest) (environment : TargetEnvironment) (name : PackageName) :
    Finding → Prop :=
  Arises (m.isRequired name) name (m.requirementsOf environment name)
    (m.constraintsOf environment name)

/-- What a check finds about a package in an environment. -/
def foundAbout (settings : CheckSettings) (m : Manifest) (environment : TargetEnvironment)
    (name : PackageName) : List Finding :=
  if settings.ignore.contains name then []
  else
    (ofPackage (m.isRequired name) name (m.requirementsOf environment name)
      (m.constraintsOf environment name)).filter fun f => settings.severities.isEnabled f.rule

section

variable {settings : CheckSettings} {m : Manifest} {environment : TargetEnvironment}
  {name : PackageName} {f : Finding}

theorem fault_package {constraints : List Entry} {r : Entry} (fault : Fault constraints r f) :
    f.package = r.name := by
  cases fault <;> rfl

theorem package_of_arisesIn (arises : ArisesIn m environment name f) : f.package = name := by
  cases arises with
  | unpinned member | unused member => exact (Manifest.mem_constraintsOf.mp member).2.2
  | conflicting => rfl
  | fault member fault =>
      rw [fault_package fault]
      exact (Manifest.mem_requirementsOf.mp member).2.2

theorem mem_packages_of_arisesIn (arises : ArisesIn m environment name f) :
    name ∈ (m.active environment).packages := by
  rw [Manifest.mem_active_packages]
  cases arises with
  | unpinned member | unused member => exact .inr (List.ne_nil_of_mem member)
  | conflicting used => exact .inl used
  | fault member => exact .inl (List.ne_nil_of_mem member)

theorem foundAbout_of_ignored (ignored : name ∈ settings.ignore) :
    foundAbout settings m environment name = [] :=
  if_pos (List.contains_iff_mem.mpr ignored)

theorem foundAbout_of_checked (checked : name ∉ settings.ignore) :
    foundAbout settings m environment name
      = (ofPackage (m.isRequired name) name (m.requirementsOf environment name)
          (m.constraintsOf environment name)).filter fun f => settings.severities.isEnabled f.rule :=
  if_neg fun ignored => checked (List.contains_iff_mem.mp ignored)

theorem mem_foundAbout_iff : f ∈ foundAbout settings m environment name ↔
    name ∉ settings.ignore ∧ ArisesIn m environment name f ∧
      settings.severities.isEnabled f.rule = true := by
  by_cases ignored : name ∈ settings.ignore
  · simp [foundAbout_of_ignored ignored, ignored]
  · simp [foundAbout_of_checked ignored, ignored, mem_ofPackage_iff, ArisesIn]

theorem package_of_mem_foundAbout (found : f ∈ foundAbout settings m environment name) :
    f.package = name :=
  package_of_arisesIn (mem_foundAbout_iff.mp found).2.1

theorem foundAbout_of_absent (absent : name ∉ (m.active environment).packages) :
    foundAbout settings m environment name = [] := by
  apply List.eq_nil_iff_forall_not_mem.mpr
  intro f found
  exact absent (mem_packages_of_arisesIn (mem_foundAbout_iff.mp found).2.1)

theorem ofEnvironment_eq (settings : CheckSettings) (m : Manifest)
    (environment : TargetEnvironment) : ofEnvironment settings m environment =
      (m.active environment).packages.flatMap (foundAbout settings m environment) := by
  simp only [ofEnvironment, ofActive, Manifest.filter_active_requirements,
    Manifest.filter_active_constraints]
  rfl

/-- A check makes exactly the findings of enabled rules about packages that are not ignored. -/
theorem mem_ofEnvironment_iff : f ∈ ofEnvironment settings m environment ↔
    settings.severities.isEnabled f.rule = true ∧
      ∃ name, name ∉ settings.ignore ∧ ArisesIn m environment name f := by
  simp only [ofEnvironment_eq, List.mem_flatMap, mem_foundAbout_iff]
  constructor
  · intro ⟨name, _, checked, arises, enabled⟩
    exact ⟨enabled, name, checked, arises⟩
  · intro ⟨enabled, name, checked, arises⟩
    exact ⟨name, mem_packages_of_arisesIn arises, checked, arises, enabled⟩

end

end Check

end PinFloor
