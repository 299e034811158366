import Mathlib.Data.List.Lex
import PinFloor.Proofs.RequirementsFile.Roles
import PinFloor.Proofs.RequirementsFile.WholeLines

/-! # The order of included constraints

The statements of a file and of what it includes have an order: where the ways to two of them part,
one line stands before the other. A walk keeps to this order. The constraints of a loaded file do
not always: of a file that is included for its constraints the requirements are listed first, and
the constraints that it includes in its turn come after them, wherever they are included.
-/

namespace PinFloor

theorem related_of_pairwise {α : Type} {R : α → α → Prop} {xs : List α} (pairwise : xs.Pairwise R)
    {a b : α} (left : a ∈ xs) (right : b ∈ xs) (differ : a ≠ b) : R a b ∨ R b a := by
  induction pairwise with
  | nil => cases left
  | cons first _ ih =>
      rcases List.mem_cons.mp left with rfl | inside
      · rcases List.mem_cons.mp right with rfl | after
        · exact absurd rfl differ
        · exact .inl (first b after)
      · rcases List.mem_cons.mp right with rfl | after
        · exact .inr (first a inside)
        · exact ih inside after

/-- What a file is read as that is included like this. -/
def IncludeKind.role : IncludeKind → Role
  | requirements => .requirements
  | constraints => .constraints

namespace Visit

/-- The lines of the include statements on the way, and of the statement itself. -/
def address (v : Visit) : List Nat :=
  v.chain.map Hop.line ++ [v.line]

/-- Where the ways to two statements part, the line of the first stands before that of the other. -/
def Before (v w : Visit) : Prop :=
  v.address < w.address

theorem address_here (file : Path) (s : PlacedStatement) : (here file s).address = [s.line] := rfl

theorem address_under (hop : Hop) (v : Visit) : (v.under hop).address = hop.line :: v.address := rfl

theorem exists_address (v : Visit) : ∃ line lines, v.address = line :: lines := by
  obtain ⟨chain, file, line, statement⟩ := v
  cases chain with
  | nil => exact ⟨line, [], rfl⟩
  | cons hop chain => exact ⟨hop.line, _, rfl⟩

variable {u v w : Visit}

theorem Before.address_ne (before : v.Before w) : v.address ≠ w.address := by
  intro same
  rw [Before, same] at before
  exact List.lt_irrefl _ before

theorem Before.asymm (first : v.Before w) : ¬ w.Before v := List.lt_asymm first

theorem before_or_eq_or_before (v w : Visit) :
    v.Before w ∨ v.address = w.address ∨ w.Before v :=
  lt_trichotomy v.address w.address

theorem before_under {hop : Hop} : (v.under hop).Before (w.under hop) ↔ v.Before w := by
  simp [Before, address_under]

/-- An include statement stands before what it includes. -/
theorem here_before_under (file : Path) (kind : IncludeKind) (name : Path) (line : Nat) (v : Visit) :
    (here file ⟨line, .include kind name⟩).Before (v.under ⟨file, line, kind⟩) := by
  obtain ⟨first, lines, address⟩ := v.exists_address
  rw [Before, address_here, address_under, address]
  exact .cons .nil

theorem before_of_lines {line other : Nat} {lines others : List Nat}
    (first : v.address = line :: lines) (second : w.address = other :: others)
    (less : line < other) : v.Before w := by
  rw [Before, first, second]
  exact List.Lex.rel less

end Visit

/-- The way leads to direct statements: no include statement on it is one for constraints. -/
def isDirectWay (chain : List Hop) : Bool :=
  chain.all (·.kind ≠ .constraints)

/-- Of two constraints that are reached from a file in a role, the first is put behind the other. If
    the file is read for its constraints, those that a further include for constraints leads to are
    put behind those that none leads to. -/
inductive PutBehind : Role → List Hop → List Hop → Prop where
  | here {chain other : List Hop} : isDirectWay chain = false → isDirectWay other = true →
      PutBehind .constraints chain other
  | under {role : Role} {hop : Hop} {chain other : List Hop} : PutBehind hop.kind.role chain other →
      PutBehind role (hop :: chain) (hop :: other)

namespace PutBehind

variable {role : Role} {hop : Hop} {chain other : List Hop}

theorem indirect (behind : PutBehind role chain other) : isDirectWay chain = false := by
  induction behind with
  | here indirect => exact indirect
  | under _ ih =>
      rw [isDirectWay] at ih ⊢
      rw [List.all_cons, ih, Bool.and_false]

theorem asymm (behind : PutBehind role chain other) : ¬ PutBehind role other chain := by
  induction behind with
  | here _ direct =>
      intro back
      rw [back.indirect] at direct
      cases direct
  | @under role hop chain other behind ih =>
      intro back
      cases back with
      | here _ direct =>
          have whole : PutBehind role (hop :: chain) (hop :: other) := .under behind
          rw [whole.indirect] at direct
          cases direct
      | under back => exact ih back

theorem under_iff :
    PutBehind .requirements (hop :: chain) (hop :: other) ↔ PutBehind hop.kind.role chain other :=
  ⟨fun behind => by cases behind with | under behind => exact behind, .under⟩

theorem of_requirements (behind : PutBehind .requirements chain other) :
    PutBehind .constraints chain other := by
  cases behind with
  | under behind => exact .under behind

theorem of_indirect (behind : PutBehind .constraints chain other)
    (indirect : isDirectWay other = false) : PutBehind .requirements chain other := by
  cases behind with
  | here _ direct =>
      rw [direct] at indirect
      cases indirect
  | under behind => exact .under behind

end PutBehind

/-- Of two constraints the first is listed before the other. -/
def Visit.Precedes (role : Role) (v w : Visit) : Prop :=
  PutBehind role w.chain v.chain ∨ v.Before w ∧ ¬ PutBehind role v.chain w.chain

/-- What are constraints of a file that is read in a role. -/
def constrainedOf : Role → List Visit → List Visit
  | .requirements, visits => indirectOf visits
  | .constraints, visits => visits

/-- What is reached through an include statement is a constraint if it is one for a file that is read
    as the statement says. -/
theorem constrainedOf_under (hop : Hop) (visits : List Visit) :
    constrainedOf .requirements (visits.map (·.under hop))
      = (constrainedOf hop.kind.role visits).map (·.under hop) := by
  obtain ⟨file, line, kind⟩ := hop
  cases kind <;>
    simp [constrainedOf, IncludeKind.role, indirectOf, List.filter_map, Function.comp_def]

/-- The constraints among the visits of a walk, in the order in which they are listed. -/
structure Listed (role : Role) (visits order : List Visit) : Prop where
  perm : order.Perm (constrainedOf role visits)
  sorted : order.Pairwise (Visit.Precedes role)

namespace Listed

variable {visits others order next : List Visit}

theorem mem_iff {role : Role} {v : Visit} (listed : Listed role visits order) :
    v ∈ order ↔ v ∈ visits ∧ (role = .requirements → v.isDirect = false) := by
  rw [listed.perm.mem_iff]
  cases role <;> simp [constrainedOf, indirectOf]

theorem nil : Listed .requirements [] [] := ⟨.refl _, .nil⟩

theorem here {file : Path} {s : PlacedStatement} (listed : Listed .requirements visits order) :
    Listed .requirements (.here file s :: visits) order :=
  ⟨listed.perm, listed.sorted⟩

/-- If a file is read for its constraints, its requirements are listed before them. -/
theorem promote (listed : Listed .requirements visits order)
    (ordered : visits.Pairwise Visit.Before) :
    Listed .constraints visits (directOf visits ++ order) where
  perm := (listed.perm.append_left _).trans (List.filter_append_perm Visit.isDirect visits)
  sorted := by
    rw [List.pairwise_append]
    refine ⟨?_, ?_, ?_⟩
    · refine (ordered.filter _).imp_of_mem fun {v w} left _ before => .inr ⟨before, fun behind => ?_⟩
      have direct : v.isDirect = true := (List.mem_filter.mp left).2
      have indirect : v.isDirect = false := behind.indirect
      rw [direct] at indirect
      cases indirect
    · refine listed.sorted.imp_of_mem fun {v w} _ right precedes => ?_
      have indirect : w.isDirect = false := (listed.mem_iff.mp right).2 rfl
      rcases precedes with behind | ⟨before, ahead⟩
      · exact .inl behind.of_requirements
      · exact .inr ⟨before, fun behind => ahead (behind.of_indirect indirect)⟩
    · intro v left w right
      exact .inl (.here ((listed.mem_iff.mp right).2 rfl) (List.mem_filter.mp left).2)

theorem under (hop : Hop) (listed : Listed hop.kind.role visits order) :
    Listed .requirements (visits.map (·.under hop)) (order.map (·.under hop)) where
  perm := by
    rw [constrainedOf_under]
    exact listed.perm.map _
  sorted := by
    rw [List.pairwise_map]
    refine listed.sorted.imp fun {v w} precedes => ?_
    rcases precedes with behind | ⟨before, ahead⟩
    · exact .inl (.under behind)
    · exact .inr ⟨Visit.before_under.mpr before, fun behind => ahead (PutBehind.under_iff.mp behind)⟩

theorem append (listed : Listed .requirements visits order)
    (after : Listed .requirements others next)
    (apart : ∀ v ∈ visits, ∀ w ∈ others, v.Before w ∧ ¬ PutBehind .requirements v.chain w.chain) :
    Listed .requirements (visits ++ others) (order ++ next) where
  perm := by
    have both := listed.perm.append after.perm
    simpa [constrainedOf, indirectOf] using both
  sorted := by
    refine List.pairwise_append.mpr ⟨listed.sorted, after.sorted, fun v left w right => .inr ?_⟩
    exact apart v (listed.mem_iff.mp left).1 w (after.mem_iff.mp right).1

end Listed

/-! ## The order of a walk -/

section

variable {fs : FileSystem} {file root : Path} {statements : List PlacedStatement}
  {visits : List Visit} {content : RequirementsFile}

/-- The way to what a walk comes to starts in a line of a statement. -/
theorem Traversal.exists_address (walk : Traversal fs file statements visits) {v : Visit}
    (inside : v ∈ visits) : ∃ s ∈ statements, ∃ lines, v.address = s.line :: lines := by
  rcases walk.mem_cases inside with ⟨s, member, rfl⟩ | ⟨line, kind, name, _, u, member, _, _, rfl⟩
  · exact ⟨s, member, [], rfl⟩
  · exact ⟨_, member, u.address, rfl⟩

/-- What stands in different statements of a file is in their order, and neither is put behind the
    other. -/
theorem Visit.apart_of_lines {v w : Visit} {line other : Nat} {lines others : List Nat}
    (first : v.address = line :: lines) (second : w.address = other :: others)
    (less : line < other) : v.Before w ∧ ¬ PutBehind .requirements v.chain w.chain := by
  refine ⟨before_of_lines first second less, fun behind => ?_⟩
  obtain ⟨chain, _, _, _⟩ := v
  obtain ⟨chain', _, _, _⟩ := w
  cases behind with
  | under =>
      obtain rfl : _ = line := (List.cons.inj first).1
      obtain rfl : _ = other := (List.cons.inj second).1
      exact Nat.lt_irrefl _ less

theorem Traversal.apart_of_later {s : PlacedStatement} {rest : List PlacedStatement}
    {later : List Visit} (walk : Traversal fs file rest later) (ascending : ∀ t ∈ rest, s.line < t.line)
    {v w : Visit} {lines : List Nat} (here : v.address = s.line :: lines) (inside : w ∈ later) :
    v.Before w ∧ ¬ PutBehind .requirements v.chain w.chain := by
  obtain ⟨t, member, others, address⟩ := walk.exists_address inside
  exact Visit.apart_of_lines here address (ascending t member)

theorem ascending_read (text : List Char) :
    (Script.read text).statements.Pairwise (·.line < ·.line) :=
  Script.pairwise_lines List.suffix_rfl

/-- A walk keeps to the order of the document. -/
theorem Traversal.ordered (walk : Traversal fs file statements visits)
    (ascending : statements.Pairwise (·.line < ·.line)) : visits.Pairwise Visit.Before := by
  induction walk with
  | nil => exact .nil
  | plain other walk ih =>
      obtain ⟨first, rest⟩ := List.pairwise_cons.mp ascending
      refine .cons (fun w inside => ?_) (ih rest)
      exact (walk.apart_of_later first (Visit.address_here _ _) inside).1
  | @«include» file name line kind _ _ inner later readable within walk ihInner ih =>
      obtain ⟨first, rest⟩ := List.pairwise_cons.mp ascending
      refine List.pairwise_append.mpr ⟨.cons ?_ ?_, ih rest, ?_⟩
      · intro w inside
        obtain ⟨u, _, rfl⟩ := List.mem_map.mp inside
        exact Visit.here_before_under file kind name line u
      · rw [List.pairwise_map]
        exact (ihInner (ascending_read _)).imp Visit.before_under.mpr
      · intro v inside w after
        obtain ⟨lines, address⟩ : ∃ lines, v.address = line :: lines := by
          rcases List.mem_cons.mp inside with rfl | inside
          · exact ⟨[], rfl⟩
          · obtain ⟨u, _, rfl⟩ := List.mem_map.mp inside
            exact ⟨u.address, rfl⟩
        exact (walk.apart_of_later first address after).1

/-- What an included file adds to the constraints is listed as for a file that is read in the role
    of the include statement. -/
theorem Holds.exists_listed_included (holds : Holds content visits)
    (ordered : visits.Pairwise Visit.Before) (role : Role)
    (listed : ∃ order, Listed .requirements visits order ∧ content.constraints = entriesOf order) :
    ∃ order, Listed role visits order ∧
      (Manifest.empty.add role content).constraints = entriesOf order := by
  obtain ⟨order, listed, constraints⟩ := listed
  cases role with
  | requirements => exact ⟨order, listed, constraints⟩
  | constraints =>
      refine ⟨_, listed.promote ordered, ?_⟩
      rw [Manifest.add, holds.requirements, constraints, entriesOf, entriesOf, entriesOf,
        List.filterMap_append]
      rfl

theorem constraints_included (kind : IncludeKind) (content : RequirementsFile) :
    (RequirementsFile.included kind content).constraints
      = (Manifest.empty.add kind.role content).constraints := by
  cases kind <;> rfl

/-- The constraints that are loaded are those that the walk comes to, listed in this order. -/
theorem Loading.exists_listed {opened : List Identity} {fault? : Option Fault}
    (walk : Traversal fs file statements visits)
    (ascending : statements.Pairwise (·.line < ·.line))
    (loaded : (ofStatements fs opened file fault? statements).value = .ok content) :
    ∃ order, Listed .requirements visits order ∧ content.constraints = entriesOf order := by
  induction walk generalizing opened fault? content with
  | nil =>
      rw [ofStatements_nil] at loaded
      cases fault? with
      | none => cases loaded; exact ⟨[], .nil, rfl⟩
      | some => cases loaded
  | @plain file s _ _ other walk ih =>
      obtain ⟨_, rest⟩ := List.pairwise_cons.mp ascending
      obtain ⟨first, others, added, next, rfl⟩ := ofStatements_cons_ok.mp loaded
      obtain ⟨order, listed, constraints⟩ := ih rest next
      refine ⟨order, listed.here, ?_⟩
      obtain ⟨line, statement⟩ := s
      cases statement with
      | «include» kind name => exact absurd rfl (other kind name)
      | requirement | editable | unnamed | option => cases added; exact constraints
  | @«include» file name line kind _ text inner later readable within walk ihInner ih =>
      obtain ⟨below, rest⟩ := List.pairwise_cons.mp ascending
      obtain ⟨first, others, added, next, rfl⟩ := ofStatements_cons_ok.mp loaded
      obtain ⟨order, listed, constraints⟩ := ih rest next
      obtain ⟨_, content, target, rfl⟩ := ofStatement_include_ok.mp added
      obtain ⟨text', readable', target⟩ := ofTarget_ok.mp target
      cases readable.symm.trans readable'
      obtain ⟨visits, again, holds⟩ := Holds.exists_of_ofStatements target
      cases within.unique again
      obtain ⟨order', listed', constraints'⟩ := holds.exists_listed_included
        (within.ordered (ascending_read text)) kind.role (ihInner (ascending_read text) target)
      refine ⟨_, ((listed'.under ⟨file, line, kind⟩).append listed ?_).here, ?_⟩
      · intro v inside w after
        obtain ⟨u, _, rfl⟩ := List.mem_map.mp inside
        exact walk.apart_of_later below (Visit.address_under _ u) after
      · rw [RequirementsFile.merge, constraints_included, constraints', constraints,
          ← Holds.entriesOf_under ⟨file, line, kind⟩ order', entriesOf, entriesOf, entriesOf,
          List.filterMap_append]

/-- Among visits in the order of a walk, those that are listed keep to this order exactly if none is
    put behind a later one. -/
theorem Listed.pairwise_before_iff {role : Role} {order part : List Visit}
    (listed : Listed role visits order) (ordered : visits.Pairwise Visit.Before)
    (sublist : part.Sublist order) : part.Pairwise Visit.Before ↔
      ∀ v ∈ part, ∀ w ∈ part, v.Before w → ¬ PutBehind role v.chain w.chain := by
  have sorted : part.Pairwise (Visit.Precedes role) := listed.sorted.sublist sublist
  have walked : ∀ v ∈ part, v ∈ visits := fun v inside =>
    (listed.mem_iff.mp (sublist.subset inside)).1
  constructor
  · intro before v left w right less behind
    have differ : v ≠ w := fun same => less.address_ne (congrArg Visit.address same)
    rcases related_of_pairwise (sorted.and before) left right differ with
      ⟨precedes, -⟩ | ⟨-, back⟩
    · rcases precedes with back | ⟨-, ahead⟩
      · exact behind.asymm back
      · exact ahead behind
    · exact less.asymm back
  · intro kept
    refine sorted.imp_of_mem fun {v w} left right precedes => ?_
    rcases precedes with behind | ⟨before, -⟩
    · -- The second is put behind the first, so it does not stand before it.
      rcases Visit.before_or_eq_or_before v w with before | same | back
      · exact before
      · obtain rfl : v = w := by
          by_contra differ
          rcases related_of_pairwise ordered (walked v left) (walked w right) differ with
            less | less
          · exact less.address_ne same
          · exact less.address_ne same.symm
        exact absurd behind behind.asymm
      · exact absurd behind (kept w right v left back)
    · exact before

/-- The constraints of a file that is read in a role are listed in the order of the document exactly
    if no constraint is put behind one that stands after it: below an include statement for
    constraints, or below the root if it is read for its constraints, those that a further such
    statement leads to come after those that none leads to. -/
theorem constraints_in_order_iff (role : Role) (m : Manifest)
    (loaded : (RequirementsFile.load fs root).value = .ok content) :
    ∃ order : List Visit,
      (m.add role content).constraints = m.constraints ++ entriesOf order ∧
      (role = .requirements → content.constraints = entriesOf order) ∧
      (∀ v, v ∈ order ↔ v.Occurs fs root ∧ v.named?.isSome = true ∧
        (role = .requirements → v.isDirect = false)) ∧
      order.Pairwise (Visit.Precedes role) ∧
      (order.Pairwise Visit.Before ↔
        ∀ v ∈ order, ∀ w ∈ order, v.Before w → ¬ PutBehind role v.chain w.chain) := by
  obtain ⟨visits, walk, holds⟩ := RequirementsFile.exists_traverses loaded
  obtain ⟨text, readable, within⟩ := id walk
  have ordered := within.ordered (ascending_read text)
  rw [Loading.load_eq_ofTarget] at loaded
  obtain ⟨text', readable', loaded⟩ := Loading.ofTarget_ok.mp loaded
  cases readable.symm.trans readable'
  have listed := Loading.exists_listed within (ascending_read text) loaded
  obtain ⟨order, listed, constraints⟩ := holds.exists_listed_included ordered role listed
  have named : entriesOf (order.filter (·.named?.isSome)) = entriesOf order := by
    rw [entriesOf, List.filterMap_filter]
    refine List.filterMap_congr fun v _ => ?_
    cases v.named? <;> rfl
  refine ⟨order.filter (·.named?.isSome), ?_, ?_, ?_, ?_, ?_⟩
  · rw [named, ← constraints]
    cases role <;> simp [Manifest.add, Manifest.empty]
  · rintro rfl
    rw [named, ← constraints]
    rfl
  · intro v
    rw [List.mem_filter, listed.mem_iff, walk.mem_iff]
    tauto
  · exact listed.sorted.filter _
  · exact listed.pairwise_before_iff ordered List.filter_sublist

open Scanner in
/-- A constraint that is included by an included constraints file, before a constraint of that file,
    is listed after it. -/
theorem constraints_out_of_order :
    let root := ['-', 'c', ' ', 'a', '\n']
    let middle := ['-', 'c', ' ', 'b', '\n', 'x', '\n']
    let last := ['y', '\n']
    let fs : FileSystem :=
      ⟨[], [(["r"], .text root), (["a"], .text middle), (["b"], .text last)]⟩
    let bare (name : String) : Requirement := ⟨⟨name⟩, [], .any, .leaf true⟩
    let content : RequirementsFile :=
      { constraints := [⟨bare "x", [], ⟨⟨"a"⟩, 2⟩⟩, ⟨bare "y", [], ⟨⟨"b"⟩, 1⟩⟩] }
    (RequirementsFile.load fs ⟨"r"⟩).value = .ok content ∧
      ∃ order : List Visit, content.constraints = entriesOf order ∧
        (∀ v, v ∈ order ↔ v.Occurs fs ⟨"r"⟩ ∧ v.named?.isSome = true ∧ v.isDirect = false) ∧
        ¬ order.Pairwise Visit.Before := by
  intro root middle last fs bare content
  have x : requirement ['x', '\n'] = .ok (.requirement (bare "x") [], []) := by
    rw [requirement_eq, splitStatement_plain rfl rfl, splitStatement_lineEnd .lf]
    rfl
  have y : requirement last = .ok (.requirement (bare "y") [], []) := by
    rw [requirement_eq, splitStatement_plain rfl rfl, splitStatement_lineEnd .lf]
    rfl
  have rootScript : Script.read root = ⟨[⟨1, .include .constraints ⟨"a"⟩⟩], none⟩ := by
    rw [Script.read, Script.readFrom_of_statement root
      (skipTrivia_of_other rfl rfl (by decide)) rfl, Script.readFrom_nil]
    rfl
  have second : Script.readFrom middle ['x', '\n'] = ⟨[⟨2, .requirement (bare "x") []⟩], none⟩ := by
    rw [Script.readFrom_of_statement ['x', '\n'] (skipTrivia_of_other rfl rfl (by decide))
      (congrArg some x), Script.readFrom_nil]
    rfl
  have middleScript : Script.read middle
      = ⟨[⟨1, .include .constraints ⟨"b"⟩⟩, ⟨2, .requirement (bare "x") []⟩], none⟩ := by
    rw [Script.read, Script.readFrom_of_statement middle
      (skipTrivia_of_other rfl rfl (by decide)) rfl, second]
    rfl
  have lastScript : Script.read last = ⟨[⟨1, .requirement (bare "y") []⟩], none⟩ := by
    rw [Script.read, Script.readFrom_of_statement last
      (skipTrivia_of_other rfl rfl (by decide)) (congrArg some y), Script.readFrom_nil]
    rfl
  have loadedLast : ∀ opened, (Loading.ofTarget fs opened ⟨"b"⟩).value
      = .ok { requirements := [⟨bare "y", [], ⟨⟨"b"⟩, 1⟩⟩] } := by
    intro opened
    refine Loading.ofTarget_ok.mpr ⟨last, rfl, ?_⟩
    rw [lastScript, Loading.ofStatements_cons_ok]
    exact ⟨_, .empty, rfl, by rw [Loading.ofStatements_nil]; rfl, rfl⟩
  have loadedMiddle : (Loading.ofTarget fs [fs.identity ⟨"r"⟩] ⟨"a"⟩).value
      = .ok { requirements := [⟨bare "x", [], ⟨⟨"a"⟩, 2⟩⟩]
              constraints := [⟨bare "y", [], ⟨⟨"b"⟩, 1⟩⟩] } := by
    refine Loading.ofTarget_ok.mpr ⟨middle, rfl, ?_⟩
    rw [middleScript, Loading.ofStatements_cons_ok]
    refine ⟨_, { requirements := [⟨bare "x", [], ⟨⟨"a"⟩, 2⟩⟩] },
      Loading.ofStatement_include_ok.mpr ⟨by decide, _, loadedLast _, rfl⟩, ?_, rfl⟩
    rw [Loading.ofStatements_cons_ok]
    exact ⟨_, .empty, rfl, by rw [Loading.ofStatements_nil]; rfl, rfl⟩
  have loaded : (RequirementsFile.load fs ⟨"r"⟩).value = .ok content := by
    rw [Loading.load_eq_ofTarget]
    refine Loading.ofTarget_ok.mpr ⟨root, rfl, ?_⟩
    rw [rootScript, Loading.ofStatements_cons_ok]
    refine ⟨content, .empty, Loading.ofStatement_include_ok.mpr
      ⟨by decide, _, loadedMiddle, rfl⟩, ?_, rfl⟩
    rw [Loading.ofStatements_nil]
    rfl
  obtain ⟨order, -, constraints, members, -, kept⟩ :=
    constraints_in_order_iff .requirements .empty loaded
  have members : ∀ v, v ∈ order ↔ v.Occurs fs ⟨"r"⟩ ∧ v.named?.isSome = true ∧ v.isDirect = false :=
    fun v => (members v).trans (by simp)
  refine ⟨loaded, order, constraints rfl, members, fun before => ?_⟩
  let first : Visit :=
    ⟨[⟨⟨"r"⟩, 1, .constraints⟩, ⟨⟨"a"⟩, 1, .constraints⟩], ⟨"b"⟩, 1, .requirement (bare "y") []⟩
  let other : Visit := ⟨[⟨⟨"r"⟩, 1, .constraints⟩], ⟨"a"⟩, 2, .requirement (bare "x") []⟩
  have readMiddle : fs.read ⟨"a"⟩ = .ok middle := rfl
  have readLast : fs.read ⟨"b"⟩ = .ok last := rfl
  have toMiddle : ⟨1, .include .constraints ⟨"a"⟩⟩ ∈ (Script.read root).statements := by
    simp [rootScript]
  have toLast : ⟨1, .include .constraints ⟨"b"⟩⟩ ∈ (Script.read middle).statements := by
    simp [middleScript]
  have firstThere : first ∈ order := by
    refine (members first).mpr ⟨⟨?_, last, readLast, by simp [lastScript, first]⟩, rfl, rfl⟩
    exact .through rfl toMiddle (Path.names_sibling ..)
      (.through readMiddle toLast (Path.names_sibling ..) .here)
  have otherThere : other ∈ order := by
    refine (members other).mpr ⟨⟨?_, middle, readMiddle, by simp [middleScript, other]⟩, rfl, rfl⟩
    exact .through rfl toMiddle (Path.names_sibling ..) .here
  have less : first.Before other := by
    rw [Visit.Before]
    decide
  exact kept.mp before first firstThere other otherThere less (.under (.here rfl rfl))

end

end PinFloor
