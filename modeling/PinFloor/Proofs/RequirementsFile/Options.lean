import Mathlib.Data.List.Induction
import PinFloor.Proofs.RequirementsFile.Roles

/-! # Options of flattened files

The options of a file are those of one text: all option statements that a walk through the file and
its includes comes to, applied one after the other. Whole files may be merged first, since merging
the options of a text is the same as applying them one by one.
-/

namespace PinFloor

namespace GlobalOption

/-- The value that a statement gives to an option. -/
def valueOf? (option : ValueOption) : GlobalOption → Option String
  | .setting option' value => if option' = option then some value else none
  | .flag _ => none

end GlobalOption

namespace GlobalOptions

/-- The values of an option that takes one, in order. There is at most one index URL. -/
def values (o : GlobalOptions) : ValueOption → List String
  | .indexUrl => o.indexUrl.toList
  | .extraIndexUrl => o.extraIndexUrls
  | .findLinks => o.findLinks
  | .trustedHost => o.trustedHosts
  | .onlyBinary => o.onlyBinary
  | .noBinary => o.noBinary

/-- Whether a flag is set. -/
def isSet (o : GlobalOptions) : FlagOption → Bool
  | .noIndex => o.noIndex
  | .preReleases => o.preReleases
  | .preferBinary => o.preferBinary
  | .requireHashes => o.requireHashes

/-- The options of a list of statements, applied in order. -/
def ofList (xs : List GlobalOption) : GlobalOptions :=
  xs.foldl apply empty

variable (o p q : GlobalOptions) (x : GlobalOption) (xs ys : List GlobalOption)

@[simp] theorem merge_empty : o.merge empty = o := by
  simp [merge, empty]

@[simp] theorem empty_merge : empty.merge o = o := by
  simp [merge, empty]

theorem merge_assoc : (o.merge p).merge q = o.merge (p.merge q) := by
  simp [merge, Option.or_assoc, Bool.or_assoc]

/-- A statement may be applied before or after the options are merged into others. -/
theorem merge_apply : o.merge (p.apply x) = (o.merge p).apply x := by
  rcases x with ⟨option, value⟩ | ⟨flag⟩
  · cases option <;> simp [merge, apply]
  · cases flag <;> simp [merge, apply]

theorem merge_ofList : o.merge (ofList xs) = xs.foldl apply o := by
  induction xs using List.reverseRecOn with
  | nil => exact merge_empty o
  | append_singleton xs x ih =>
      rw [List.foldl_append, ← ih, ofList, List.foldl_append]
      exact merge_apply o (ofList xs) x

theorem ofList_append : ofList (xs ++ ys) = (ofList xs).merge (ofList ys) := by
  rw [merge_ofList, ofList, ofList, List.foldl_append]

/-! ## What a list of statements sets -/

theorem values_apply {option : ValueOption} (collected : option ≠ .indexUrl) :
    (o.apply x).values option = o.values option ++ (x.valueOf? option).toList := by
  rcases x with ⟨given, value⟩ | ⟨flag⟩
  · cases option <;> cases given <;> simp_all [apply, values, GlobalOption.valueOf?]
  · cases flag <;> cases option <;> simp [apply, values, GlobalOption.valueOf?]

theorem indexUrl_apply : (o.apply x).indexUrl = (x.valueOf? .indexUrl).or o.indexUrl := by
  rcases x with ⟨given, value⟩ | ⟨flag⟩
  · cases given <;> simp [apply, GlobalOption.valueOf?]
  · cases flag <;> simp [apply, GlobalOption.valueOf?]

theorem isSet_apply (flag : FlagOption) :
    (o.apply x).isSet flag = (o.isSet flag || x == .flag flag) := by
  rcases x with ⟨given, value⟩ | ⟨given⟩
  · cases given <;> cases flag <;> simp [apply, isSet]
  · cases given <;> cases flag <;> simp [apply, isSet]

/-- The values of an option are collected in order. -/
theorem values_ofList {option : ValueOption} (collected : option ≠ .indexUrl) :
    (ofList xs).values option = xs.filterMap (GlobalOption.valueOf? option) := by
  induction xs using List.reverseRecOn with
  | nil => cases option <;> simp_all [ofList, empty, values]
  | append_singleton xs x ih =>
      rw [ofList, List.foldl_append, List.filterMap_append, ← ih]
      rw [List.foldl_cons, List.foldl_nil, values_apply _ _ collected]
      cases given : x.valueOf? option <;> simp [ofList, given]

/-- The last index URL replaces all earlier ones. -/
theorem indexUrl_ofList :
    (ofList xs).indexUrl = (xs.filterMap (GlobalOption.valueOf? .indexUrl)).getLast? := by
  induction xs using List.reverseRecOn with
  | nil => rfl
  | append_singleton xs x ih =>
      rw [ofList, List.foldl_append, List.foldl_cons, List.foldl_nil, indexUrl_apply,
        List.filterMap_append, List.getLast?_append, ← ih]
      cases given : x.valueOf? .indexUrl <;> simp [ofList, given]

theorem isSet_ofList (flag : FlagOption) : (ofList xs).isSet flag = true ↔ .flag flag ∈ xs := by
  induction xs using List.reverseRecOn with
  | nil => cases flag <;> simp [ofList, empty, isSet]
  | append_singleton xs x ih =>
      rw [ofList, List.foldl_append, List.foldl_cons, List.foldl_nil, isSet_apply, Bool.or_eq_true,
        beq_iff_eq, List.mem_append, List.mem_singleton, ← ih]
      exact or_congr_right eq_comm

end GlobalOptions

/-! ## Along a walk -/

/-- The option that the statement sets. -/
def Visit.option? (v : Visit) : Option GlobalOption :=
  match v.statement with
  | .option option => some option
  | _ => none

/-- The options that statements set, in order. -/
def optionsOf (visits : List Visit) : List GlobalOption :=
  visits.filterMap Visit.option?

variable {fs : FileSystem} {file root : Path} {content : RequirementsFile} {visits : List Visit}

theorem optionsOf_under (hop : Hop) (visits : List Visit) :
    optionsOf (visits.map (·.under hop)) = optionsOf visits := by
  rw [optionsOf, List.filterMap_map]
  rfl

theorem options_single (file : Path) (s : PlacedStatement) :
    (Loading.single file s.line s.statement).options
      = .ofList (optionsOf [Visit.here file s]) := by
  obtain ⟨line, statement⟩ := s
  cases statement <;> rfl

theorem RequirementsFile.options_included (kind : IncludeKind) (content : RequirementsFile) :
    (included kind content).options = content.options := by
  cases kind <;> rfl

/-- The options of what is loaded are those that the walk through it comes to: what an included file
    sets is put between what stands before and after the include statement. -/
theorem Traversal.options_eq {statements : List PlacedStatement} {opened : List Identity}
    {fault? : Option Fault} (walk : Traversal fs file statements visits)
    (loaded : (Loading.ofStatements fs opened file fault? statements).value = .ok content) :
    content.options = .ofList (optionsOf visits) := by
  induction walk generalizing opened fault? content with
  | nil =>
      rw [Loading.ofStatements_nil] at loaded
      cases fault? with
      | none => cases loaded; rfl
      | some => cases loaded
  | @plain file s rest visits other _ ih =>
      obtain ⟨first, others, added, next, rfl⟩ := Loading.ofStatements_cons_ok.mp loaded
      have here : first = Loading.single file s.line s.statement := by
        obtain ⟨line, statement⟩ := s
        cases statement with
        | «include» kind name => exact absurd rfl (other kind name)
        | requirement | editable | unnamed | option => cases added; rfl
      have split : optionsOf ([.here file s] ++ visits)
          = optionsOf [.here file s] ++ optionsOf visits := List.filterMap_append
      rw [List.singleton_append] at split
      rw [split, GlobalOptions.ofList_append, ← options_single, ← here, ← ih next]
      rfl
  | @«include» file name line kind rest text inner visits readable _ _ within after =>
      obtain ⟨first, others, added, next, rfl⟩ := Loading.ofStatements_cons_ok.mp loaded
      obtain ⟨-, content, target, rfl⟩ := Loading.ofStatement_include_ok.mp added
      obtain ⟨text', readable', loaded⟩ := Loading.ofTarget_ok.mp target
      cases readable.symm.trans readable'
      have split : optionsOf (.here file ⟨line, .include kind name⟩
            :: inner.map (·.under ⟨file, line, kind⟩) ++ visits)
          = optionsOf inner ++ optionsOf visits := by
        rw [← optionsOf_under ⟨file, line, kind⟩ inner]
        exact List.filterMap_append
      rw [split, GlobalOptions.ofList_append, ← within loaded, ← after next,
        ← RequirementsFile.options_included kind content]
      rfl

theorem Traverses.options_eq (walk : Traverses fs root visits)
    (loaded : (RequirementsFile.load fs root).value = .ok content) :
    content.options = .ofList (optionsOf visits) := by
  rw [Loading.load_eq_ofTarget] at loaded
  obtain ⟨text, readable, loaded⟩ := Loading.ofTarget_ok.mp loaded
  obtain ⟨text', readable', walk⟩ := walk
  cases readable.symm.trans readable'
  exact walk.options_eq loaded

/-- The options of a loaded file are those of the flattened text: all option statements that the
    walk through the file and its includes of either kind comes to, applied in this order to no
    options. So the last index URL counts, other values are collected in order, and a flag is set if
    some statement sets it. For options are merged in any grouping, and merging a list of statements
    into options is applying them one after the other. -/
theorem options_of_flattened_text (fs : FileSystem) :
    (∀ root content, (RequirementsFile.load fs root).value = .ok content →
      ∃ visits, (∀ others, Traverses fs root others ↔ others = visits) ∧
        (∀ v, v ∈ visits ↔ v.Occurs fs root) ∧
        content.options = (optionsOf visits).foldl GlobalOptions.apply .empty ∧
        content.options.indexUrl
          = ((optionsOf visits).filterMap (GlobalOption.valueOf? .indexUrl)).getLast? ∧
        (∀ option, option ≠ .indexUrl → content.options.values option
          = (optionsOf visits).filterMap (GlobalOption.valueOf? option)) ∧
        ∀ flag, content.options.isSet flag = true ↔ .flag flag ∈ optionsOf visits) ∧
    (∀ o p q : GlobalOptions, (o.merge p).merge q = o.merge (p.merge q)) ∧
    (∀ o : GlobalOptions, GlobalOptions.empty.merge o = o ∧ o.merge .empty = o) ∧
    ∀ (o : GlobalOptions) (xs : List GlobalOption),
      o.merge (xs.foldl GlobalOptions.apply .empty) = xs.foldl GlobalOptions.apply o := by
  refine ⟨fun root content loaded => ?_, GlobalOptions.merge_assoc,
    fun o => ⟨GlobalOptions.empty_merge o, GlobalOptions.merge_empty o⟩,
    GlobalOptions.merge_ofList⟩
  obtain ⟨visits, walk, -⟩ := RequirementsFile.exists_traverses loaded
  have whole := walk.options_eq loaded
  have unique : ∀ others, Traverses fs root others ↔ others = visits := fun others =>
    ⟨walk.unique, fun same => same ▸ walk⟩
  refine ⟨visits, unique, fun _ => walk.mem_iff, whole, ?_⟩
  rw [whole]
  exact ⟨GlobalOptions.indexUrl_ofList _, fun _ => GlobalOptions.values_ofList _,
    GlobalOptions.isSet_ofList _⟩

open Scanner in
/-- A constraints file in the middle of a file replaces the index URL before it, and its options
    count, though its other entries without a name do not. -/
theorem options_of_included_constraints :
    let root := ['-', 'i', ' ', 'a', '\n', '-', 'c', ' ', 's']
    let inner := ['-', 'i', ' ', 'b', '\n', '-', '-', 'p', 'r', 'e']
    let fs : FileSystem := ⟨[], [(["r"], .text root), (["s"], .text inner)]⟩
    let options : GlobalOptions := { indexUrl := some "b", preReleases := true }
    (RequirementsFile.load fs ⟨"r"⟩).value = .ok { options := options } ∧
      ∃ visits, Traverses fs ⟨"r"⟩ visits ∧
        options = (optionsOf visits).foldl GlobalOptions.apply .empty ∧
        some "b" = ((optionsOf visits).filterMap (GlobalOption.valueOf? .indexUrl)).getLast? ∧
        .flag .preReleases ∈ optionsOf visits := by
  intro root inner fs options
  have innerRest : Script.readFrom inner ['-', '-', 'p', 'r', 'e']
      = ⟨[⟨2, .option (.flag .preReleases)⟩], none⟩ := by
    rw [Script.readFrom_of_statement _ (skipTrivia_of_other rfl rfl (by decide)) rfl,
      Script.readFrom_nil]
    rfl
  have innerScript : Script.read inner = ⟨[⟨1, .option (.setting .indexUrl "b")⟩,
      ⟨2, .option (.flag .preReleases)⟩], none⟩ := by
    rw [Script.read, Script.readFrom_of_statement inner
      (skipTrivia_of_other rfl rfl (by decide)) rfl, innerRest]
    rfl
  have rootRest : Script.readFrom root ['-', 'c', ' ', 's']
      = ⟨[⟨2, .include .constraints ⟨"s"⟩⟩], none⟩ := by
    rw [Script.readFrom_of_statement _ (skipTrivia_of_other rfl rfl (by decide)) rfl,
      Script.readFrom_nil]
    rfl
  have rootScript : Script.read root = ⟨[⟨1, .option (.setting .indexUrl "a")⟩,
      ⟨2, .include .constraints ⟨"s"⟩⟩], none⟩ := by
    rw [Script.read, Script.readFrom_of_statement root
      (skipTrivia_of_other rfl rfl (by decide)) rfl, rootRest]
    rfl
  have included : ∀ opened, (Loading.ofTarget fs opened ⟨"s"⟩).value = .ok { options := options } := by
    intro opened
    refine Loading.ofTarget_ok.mpr ⟨inner, rfl, ?_⟩
    rw [innerScript, Loading.ofStatements_cons_ok]
    refine ⟨_, { options := { preReleases := true } }, rfl, ?_, rfl⟩
    rw [Loading.ofStatements_cons_ok]
    exact ⟨_, .empty, rfl, by rw [Loading.ofStatements_nil]; rfl, rfl⟩
  have loaded : (RequirementsFile.load fs ⟨"r"⟩).value = .ok { options := options } := by
    rw [Loading.load_eq_ofTarget]
    refine Loading.ofTarget_ok.mpr ⟨root, rfl, ?_⟩
    rw [rootScript, Loading.ofStatements_cons_ok]
    refine ⟨_, { options := options }, rfl, ?_, rfl⟩
    rw [Loading.ofStatements_cons_ok]
    refine ⟨_, .empty, Loading.ofStatement_include_ok.mpr ⟨by decide, _, included _, rfl⟩, ?_, rfl⟩
    rw [Loading.ofStatements_nil]
    rfl
  obtain ⟨visits, unique, -, whole, url, -, flags⟩ :=
    (options_of_flattened_text fs).1 _ _ loaded
  exact ⟨loaded, visits, (unique visits).mpr rfl, whole, url, (flags .preReleases).mp rfl⟩

end PinFloor
