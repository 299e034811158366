import Mathlib.Logic.ExistsUnique
import PinFloor.Settings.Resolved

/-! # Layers on top of each other

Layers may be put on top of each other in any order of steps. For each key on its own, and for each
rule, the first layer that sets it decides. A check takes what the command line gives, else what the
file sets, else the standard value.
-/

namespace PinFloor

/-- What a layer may set: a key, or the severity of one rule. -/
inductive Setting : Type → Type where
  | requirements : Setting (List Path)
  | constraints : Setting (List Path)
  | pythonVersions : Setting (List PythonVersion)
  | platforms : Setting (List Platform)
  | ignore : Setting (List PackageName)
  | strict : Setting Bool
  | severity (rule : Rule) : Setting Severity

/-- The value that is taken where no layer sets one. -/
def Setting.standard {α : Type} : Setting α → α
  | requirements => []
  | constraints => []
  | pythonVersions => Matrix.defaultPythonVersions
  | platforms => Platform.all
  | ignore => []
  | strict => false
  | severity rule => rule.standardSeverity

section

variable {α : Type} {combine : α → α → α}

@[simp] theorem combineOptional_none_left (b : Option α) : combineOptional combine none b = b := rfl

@[simp] theorem combineOptional_none_right (a : Option α) :
    combineOptional combine a none = a := by
  cases a <;> rfl

theorem combineOptional_assoc (assoc : ∀ a b c, combine (combine a b) c = combine a (combine b c))
    (a b c : Option α) : combineOptional combine (combineOptional combine a b) c
      = combineOptional combine a (combineOptional combine b c) := by
  cases a <;> cases b <;> cases c <;> simp [combineOptional, assoc]

theorem combineOptional_eq_none_iff {a b : Option α} :
    combineOptional combine a b = none ↔ a = none ∧ b = none := by
  cases a <;> cases b <;> simp [combineOptional]

theorem combineOptional_map {f : α → α} (hom : ∀ a b, f (combine a b) = combine (f a) (f b))
    (a b : Option α) : (combineOptional combine a b).map f
      = combineOptional combine (a.map f) (b.map f) := by
  cases a <;> cases b <;> simp [combineOptional, hom]

end

theorem RuleLayer.combine_assoc (a b c : RuleLayer) :
    (a.combine b).combine c = a.combine (b.combine c) := by
  simp [combine, Option.or_assoc]

namespace Layer

/-- What a layer sets, if it does. -/
def get? {α : Type} (layer : Layer) : Setting α → Option α
  | .requirements => layer.requirements
  | .constraints => layer.constraints
  | .pythonVersions => layer.pythonVersions
  | .platforms => layer.platforms
  | .ignore => layer.ignore
  | .strict => layer.strict
  | .severity rule => layer.rules.bind (·.get rule)

/-- What the first of some layers that sets it sets. -/
def first? {α : Type} (layers : List (Option Layer)) (setting : Setting α) : Option α :=
  layers.findSome? fun layer => layer.bind (·.get? setting)

section

variable {α : Type}

theorem combine_assoc (a b c : Layer) : (a.combine b).combine c = a.combine (b.combine c) := by
  simp [combine, Option.or_assoc, combineOptional_assoc RuleLayer.combine_assoc]

theorem combine?_assoc (a b c : Option Layer) :
    combine? (combine? a b) c = combine? a (combine? b c) :=
  combineOptional_assoc combine_assoc a b c

theorem relativeTo_combine (a b : Layer) (directory : Path) :
    (a.combine b).relativeTo directory
      = (a.relativeTo directory).combine (b.relativeTo directory) := by
  simp [combine, relativeTo, Option.map_or]

theorem get?_combine (a b : Layer) (setting : Setting α) :
    (a.combine b).get? setting = (a.get? setting).or (b.get? setting) := by
  cases setting with
  | severity rule => cases ha : a.rules <;> cases hb : b.rules <;>
      simp [get?, combine, combineOptional, RuleLayer.combine, ha, hb]
  | _ => rfl

@[simp] theorem get?_empty (setting : Setting α) : empty.get? setting = none := by
  cases setting <;> rfl

theorem get?_combine? (a b : Option Layer) (setting : Setting α) :
    (combine? a b).bind (·.get? setting)
      = (a.bind (·.get? setting)).or (b.bind (·.get? setting)) := by
  cases a <;> cases b <;> simp [combine?, combineOptional, get?_combine]

theorem severities_get (layer : Layer) (rule : Rule) :
    (layer.rules.getD .empty).severities.get rule
      = (layer.get? (.severity rule)).getD (Setting.severity rule).standard := by
  cases rules : layer.rules with
  | none => simp [get?, rules, RuleLayer.severities, RuleLayer.empty, Severities.standard,
      Setting.standard]
  | some table => simp [get?, rules, RuleLayer.severities, Severities.standard, Setting.standard]

end

end Layer

/-- Layers, which may be missing, put on top of each other in some order of steps. -/
inductive Stack where
  /-- No layer at all. -/
  | empty
  | layer (layer : Option Layer)
  | upon (top bottom : Stack)

namespace Stack

/-- The layers, the first one on top. -/
def layers : Stack → List (Option Layer)
  | empty => []
  | layer l => [l]
  | upon top bottom => top.layers ++ bottom.layers

/-- What the layers come to. -/
def combined : Stack → Option Layer
  | empty => none
  | layer l => l
  | upon top bottom => Layer.combine? top.combined bottom.combined

/-- The stack with each layer changed. -/
def map (f : Layer → Layer) : Stack → Stack
  | empty => empty
  | layer l => layer (l.map f)
  | upon top bottom => upon (top.map f) (bottom.map f)

variable {α : Type} (stack : Stack)

theorem combined_eq_none_iff : stack.combined = none ↔ ∀ layer ∈ stack.layers, layer = none := by
  induction stack with
  | empty => simp [combined, layers]
  | layer l => simp [combined, layers]
  | upon top bottom topIh bottomIh =>
      simp [combined, layers, Layer.combine?, combineOptional_eq_none_iff, topIh, bottomIh,
        or_imp, forall_and]

/-- How the steps are ordered makes no difference. -/
theorem combined_eq_foldr : stack.combined = stack.layers.foldr Layer.combine? none := by
  have append (layers : List (Option Layer)) (last : Option Layer) :
      layers.foldr Layer.combine? last
        = Layer.combine? (layers.foldr Layer.combine? none) last := by
    induction layers with
    | nil => rfl
    | cons first rest ih => rw [List.foldr_cons, ih, List.foldr_cons, Layer.combine?_assoc]
  induction stack with
  | empty => rfl
  | layer l => simp [combined, layers, Layer.combine?]
  | upon top bottom topIh bottomIh =>
      rw [combined, layers, List.foldr_append, append top.layers, topIh, bottomIh]

theorem get?_combined (setting : Setting α) :
    stack.combined.bind (·.get? setting) = Layer.first? stack.layers setting := by
  induction stack with
  | empty => rfl
  | layer l => simp [combined, layers, Layer.first?]
  | upon top bottom topIh bottomIh =>
      rw [combined, Layer.get?_combine?, topIh, bottomIh, layers]
      simp only [Layer.first?, List.findSome?_append]

theorem severities_combined (rule : Rule) :
    ((stack.combined.bind Layer.rules).getD .empty).severities.get rule
      = (Layer.first? stack.layers (.severity rule)).getD rule.standardSeverity := by
  rw [← stack.get?_combined]
  cases stack.combined with
  | none => rfl
  | some layer => exact Layer.severities_get layer rule

theorem combined_map {f : Layer → Layer}
    (hom : ∀ a b, f (Layer.combine a b) = Layer.combine (f a) (f b)) :
    (stack.map f).combined = stack.combined.map f := by
  induction stack with
  | empty => rfl
  | layer l => rfl
  | upon top bottom topIh bottomIh =>
      rw [map, combined, topIh, bottomIh, combined, Layer.combine?, combineOptional_map hom]

end Stack

/-! ## The settings of a check -/

theorem Matrix.make_eq_error_iff {pythonVersions : List PythonVersion} {platforms : List Platform}
    {e : EnvironmentError} : make pythonVersions platforms = .error e ↔
      pythonVersions = [] ∧ e = .noPythonVersions ∨
        pythonVersions ≠ [] ∧ platforms = [] ∧ e = .noPlatforms := by
  cases pythonVersions <;> cases platforms <;> simp [make, eq_comm]

/-- What the arguments of a check give for a setting. A list is given if it has items. That warnings do
    not make the check fail goes before that they do, and no severity is given. -/
def CheckArguments.Gives (a : CheckArguments) : {α : Type} → Setting α → α → Prop
  | _, .requirements, value => a.requirements ≠ [] ∧ value = a.requirements
  | _, .constraints, value => a.constraints ≠ [] ∧ value = a.constraints
  | _, .pythonVersions, value => a.pythonVersions ≠ [] ∧ value = a.pythonVersions
  | _, .platforms, value => a.platforms ≠ [] ∧ value = a.platforms
  | _, .ignore, value => a.ignore ≠ [] ∧ value = a.ignore
  | _, .strict, false => a.noStrict = true
  | _, .strict, true => a.noStrict = false ∧ a.strict = true
  | _, .severity _, _ => False

/-- What decides a setting of a check: the command line, else the file, else the standard value. -/
inductive CheckArguments.Chooses (a : CheckArguments) (file : Option Layer) {α : Type}
    (setting : Setting α) : α → Prop where
  | given {value : α} : a.Gives setting value → Chooses a file setting value
  | inFile {layer : Layer} {value : α} : (∀ other, ¬ a.Gives setting other) → file = some layer →
      layer.get? setting = some value → Chooses a file setting value
  | standard : (∀ other, ¬ a.Gives setting other) →
      (∀ layer, file = some layer → layer.get? setting = none) →
      Chooses a file setting setting.standard

/-- The settings are those that are chosen. -/
structure ResolvedSettings.Takes (settings : ResolvedSettings)
    (chosen : {α : Type} → Setting α → α → Prop) : Prop where
  requirements : chosen .requirements settings.requirements
  constraints : chosen .constraints settings.constraints
  matrix : ∃ versions platforms, chosen .pythonVersions versions ∧ chosen .platforms platforms ∧
    Matrix.make versions platforms = .ok settings.check.matrix
  ignore : chosen .ignore settings.check.ignore
  strict : chosen .strict settings.check.strict
  severities : ∀ rule, chosen (.severity rule) (settings.check.severities.get rule)

theorem ResolvedSettings.Takes.unique {a b : ResolvedSettings}
    {value : {α : Type} → Setting α → α} (first : a.Takes fun setting v => value setting = v)
    (second : b.Takes fun setting v => value setting = v) : a = b := by
  obtain ⟨requirements, constraints, matrix, severities, ignore, strict⟩ := a
  obtain ⟨requirements', constraints', matrix', severities', ignore', strict'⟩ := b
  obtain ⟨_, _, rfl, rfl, made⟩ := first.matrix
  obtain ⟨_, _, rfl, rfl, made'⟩ := second.matrix
  obtain rfl : requirements = requirements' := first.requirements.symm.trans second.requirements
  obtain rfl : constraints = constraints' := first.constraints.symm.trans second.constraints
  obtain rfl : matrix = matrix' := Except.ok.inj (made.symm.trans made')
  obtain rfl : ignore = ignore' := first.ignore.symm.trans second.ignore
  obtain rfl : strict = strict' := first.strict.symm.trans second.strict
  obtain rfl : severities = severities' :=
    congrArg Severities.mk (funext fun rule =>
      (first.severities rule).symm.trans (second.severities rule))
  rfl

namespace Layer

/-- The settings of a layer, with the standard ones where it sets none, in a matrix. -/
def settings (layer : Layer) (matrix : Matrix) : ResolvedSettings where
  requirements := layer.requirements.getD []
  constraints := layer.constraints.getD []
  check :=
    { matrix
      severities := (layer.rules.getD .empty).severities
      ignore := layer.ignore.getD []
      strict := layer.strict.getD false }

theorem resolve_eq (layer : Layer) : layer.resolve =
    (Matrix.make (layer.pythonVersions.getD Matrix.defaultPythonVersions)
      (layer.platforms.getD Platform.all)).map layer.settings := rfl

theorem resolve_eq_ok_iff {layer : Layer} {settings : ResolvedSettings} :
    layer.resolve = .ok settings ↔
      settings.Takes fun setting value => (layer.get? setting).getD setting.standard = value := by
  rw [resolve_eq]
  cases made : Matrix.make (layer.pythonVersions.getD Matrix.defaultPythonVersions)
      (layer.platforms.getD Platform.all) with
  | error e =>
      constructor
      · intro resolved
        cases resolved
      · intro taken
        obtain ⟨_, _, rfl, rfl, made'⟩ := taken.matrix
        cases made.symm.trans made'
  | ok matrix =>
      have taken : (layer.settings matrix).Takes
          fun setting value => (layer.get? setting).getD setting.standard = value :=
        ⟨rfl, rfl, ⟨_, _, rfl, rfl, made⟩, rfl, rfl, fun rule => (severities_get layer rule).symm⟩
      constructor
      · intro resolved
        cases resolved
        exact taken
      · intro taken'
        exact congrArg Except.ok (taken.unique taken')

theorem resolve_eq_error_iff {layer : Layer} {e : EnvironmentError} : layer.resolve = .error e ↔
    Matrix.make (layer.pythonVersions.getD Matrix.defaultPythonVersions)
      (layer.platforms.getD Platform.all) = .error e := by
  rw [resolve_eq]
  cases Matrix.make (layer.pythonVersions.getD Matrix.defaultPythonVersions)
      (layer.platforms.getD Platform.all) <;> simp [Except.map]

end Layer

namespace CheckArguments

variable {α : Type} {arguments : CheckArguments} {file : Option Layer} {setting : Setting α}
  {value : α}

theorem nonEmpty?_eq_some_iff {items list : List α} :
    nonEmpty? items = some list ↔ items ≠ [] ∧ list = items := by
  cases items <;> simp [nonEmpty?, eq_comm]

/-- The layer of the arguments sets what they give, and nothing else. -/
theorem get?_layer_eq_some_iff :
    arguments.layer.get? setting = some value ↔ arguments.Gives setting value := by
  cases setting with
  | requirements | constraints | pythonVersions | platforms | ignore => exact nonEmpty?_eq_some_iff
  | strict =>
      cases value <;> cases no : arguments.noStrict <;> cases yes : arguments.strict <;>
        simp [Layer.get?, layer, strict?, Gives, no, yes]
  | severity rule => simp [Layer.get?, layer, Gives]

theorem get?_layer_eq_none_iff :
    arguments.layer.get? setting = none ↔ ∀ value, ¬ arguments.Gives setting value := by
  simp only [Option.eq_none_iff_forall_ne_some, ne_eq, get?_layer_eq_some_iff]

theorem chooses_iff_of_gives {first : α} (gives : arguments.Gives setting first) :
    arguments.Chooses file setting value ↔ first = value := by
  constructor
  · intro chooses
    cases chooses with
    | given other =>
        have set := get?_layer_eq_some_iff.mpr gives
        exact Option.some.inj (set.symm.trans (get?_layer_eq_some_iff.mpr other))
    | inFile none | standard none => exact absurd gives (none first)
  · intro same
    subst same
    exact .given gives

theorem chooses_iff_of_not_gives (none : ∀ other, ¬ arguments.Gives setting other) :
    arguments.Chooses file setting value ↔
      ((file.getD .empty).get? setting).getD setting.standard = value := by
  constructor
  · intro chooses
    cases chooses with
    | given gives => exact absurd gives (none value)
    | inFile _ file set => simp [file, set]
    | standard _ unset =>
        cases file with
        | none => simp
        | some layer => simp [unset layer rfl]
  · intro same
    subst same
    cases file with
    | none =>
        have chosen : arguments.Chooses Option.none setting setting.standard :=
          .standard none (fun _ missing => nomatch missing)
        simpa using chosen
    | some layer =>
        cases set : layer.get? setting with
        | some value => simpa [set] using Chooses.inFile none rfl set
        | none =>
            have unset : ∀ other, some layer = some other → other.get? setting = Option.none := by
              intro other same
              cases same
              exact set
            simpa [set] using Chooses.standard none unset

/-- The layers on top of each other set what is chosen. -/
theorem chooses_iff : arguments.Chooses file setting value ↔
    ((arguments.layer.combine (file.getD .empty)).get? setting).getD setting.standard = value := by
  rw [Layer.get?_combine]
  cases given : arguments.layer.get? setting with
  | some first => exact chooses_iff_of_gives (get?_layer_eq_some_iff.mp given)
  | none => exact chooses_iff_of_not_gives (get?_layer_eq_none_iff.mp given)

theorem existsUnique_chooses (arguments : CheckArguments) (file : Option Layer)
    (setting : Setting α) : ∃! value, arguments.Chooses file setting value := by
  simp only [chooses_iff]
  exact ⟨_, rfl, fun _ same => same.symm⟩

end CheckArguments

namespace ResolvedSettings

variable {arguments : CheckArguments} {file : Option Layer}

theorem ofArguments_eq_ok_iff {settings : ResolvedSettings} :
    ofArguments arguments file = .ok settings ↔ settings.Takes (arguments.Chooses file) := by
  simp only [ofArguments, Layer.resolve_eq_ok_iff, ← CheckArguments.chooses_iff]

theorem ofArguments_eq_error_iff {e : EnvironmentError} :
    ofArguments arguments file = .error e ↔
      arguments.Chooses file .pythonVersions [] ∧ e = .noPythonVersions ∨
        ¬ arguments.Chooses file .pythonVersions [] ∧ arguments.Chooses file .platforms [] ∧
          e = .noPlatforms := by
  rw [ofArguments, Layer.resolve_eq_error_iff, Matrix.make_eq_error_iff,
    CheckArguments.chooses_iff, CheckArguments.chooses_iff]
  rfl

end ResolvedSettings

/-- The first layer that sets a key or the severity of a rule decides it, and nothing else does:
    neither what is set besides nor in which steps the layers are combined. A check takes each of
    its settings from the command line if it is given there, else from the file, else the standard
    value, and there are no such settings only where no Python versions or no platforms are chosen. -/
theorem Stack.first_layer_wins :
    (∀ stack : Stack,
      (stack.combined = none ↔ ∀ layer ∈ stack.layers, layer = none) ∧
      stack.combined = stack.layers.foldr Layer.combine? none ∧
      (∀ (α : Type) (setting : Setting α),
        stack.combined.bind (·.get? setting) = Layer.first? stack.layers setting) ∧
      (∀ rule, ((stack.combined.bind Layer.rules).getD .empty).severities.get rule
        = (Layer.first? stack.layers (.severity rule)).getD rule.standardSeverity) ∧
      ∀ directory : Path, (stack.map (·.relativeTo directory)).combined
        = stack.combined.map (·.relativeTo directory)) ∧
    (∀ a b c, Layer.combine? (Layer.combine? a b) c = Layer.combine? a (Layer.combine? b c)) ∧
    (∀ a, Layer.combine? none a = a ∧ Layer.combine? a none = a) ∧
    ∀ (arguments : CheckArguments) (file : Option Layer),
      (∀ (α : Type) (setting : Setting α), ∃! value, arguments.Chooses file setting value) ∧
      (∀ settings, ResolvedSettings.ofArguments arguments file = .ok settings ↔
        settings.Takes (arguments.Chooses file)) ∧
      ∀ e, ResolvedSettings.ofArguments arguments file = .error e ↔
        arguments.Chooses file .pythonVersions [] ∧ e = .noPythonVersions ∨
          ¬ arguments.Chooses file .pythonVersions [] ∧ arguments.Chooses file .platforms [] ∧
            e = .noPlatforms := by
  refine ⟨?_, Layer.combine?_assoc, ?_, ?_⟩
  · intro stack
    refine ⟨stack.combined_eq_none_iff, stack.combined_eq_foldr, ?_, stack.severities_combined, ?_⟩
    · intro α setting
      exact stack.get?_combined setting
    · intro directory
      exact stack.combined_map fun a b => Layer.relativeTo_combine a b directory
  · intro a
    exact ⟨combineOptional_none_left a, combineOptional_none_right a⟩
  · intro arguments file
    refine ⟨?_, ?_, ?_⟩
    · intro α setting
      exact arguments.existsUnique_chooses file setting
    · intro settings
      exact ResolvedSettings.ofArguments_eq_ok_iff
    · intro e
      exact ResolvedSettings.ofArguments_eq_error_iff

/-- The command line gives Python versions, packages and both `strict` and `noStrict`; the file sets all
    but constraints and packages. With an empty list of platforms in the file there are no settings. -/
theorem Stack.command_line_over_file :
    let arguments : CheckArguments := {
      pythonVersions := [⟨3, 9, none⟩], ignore := [⟨"six"⟩], strict := true, noStrict := true }
    let file : Layer := {
      requirements := some [⟨"r.txt"⟩], pythonVersions := some [⟨3, 12, none⟩]
      platforms := some [.windows], strict := some true
      rules := some (RuleLayer.empty.set .unusedPin .error) }
    let severity (rule : Rule) : Severity :=
      if rule = .unusedPin then .error else rule.standardSeverity
    ResolvedSettings.ofArguments arguments (some file) = .ok {
        requirements := [⟨"r.txt"⟩]
        constraints := []
        check := {
          matrix := ⟨[⟨3, 9, none⟩], [.windows]⟩, severities := ⟨severity⟩, ignore := [⟨"six"⟩]
          strict := false } } ∧
      ResolvedSettings.ofArguments arguments (some { file with platforms := some [] }) =
        .error .noPlatforms := by
  intro arguments file severity
  obtain ⟨-, taken, -⟩ := Stack.first_layer_wins.2.2.2 arguments (some file)
  obtain ⟨-, -, failed⟩ :=
    Stack.first_layer_wins.2.2.2 arguments (some { file with platforms := some [] })
  have given : arguments.Gives .pythonVersions [⟨3, 9, none⟩] := ⟨by simp [arguments], rfl⟩
  have other (platforms : List Platform) : ¬ arguments.Gives .platforms platforms :=
    fun gives => gives.1 rfl
  have noFiles (files : List Path) :
      ¬ arguments.Gives .requirements files ∧ ¬ arguments.Gives .constraints files :=
    ⟨fun gives => gives.1 rfl, fun gives => gives.1 rfl⟩
  refine ⟨(taken _).mpr ?_, (failed _).mpr (.inr ⟨?_, ?_, rfl⟩)⟩
  · constructor
    · exact .inFile (fun files => (noFiles files).1) rfl rfl
    · refine .standard (fun files => (noFiles files).2) fun layer same => ?_
      cases same
      rfl
    · exact ⟨_, _, .given given, .inFile other rfl rfl, rfl⟩
    · exact .given ⟨by simp [arguments], rfl⟩
    · exact .given (show arguments.noStrict = true from rfl)
    · intro rule
      show arguments.Chooses (some file) (.severity rule) (severity rule)
      by_cases here : rule = .unusedPin
      · subst here
        exact .inFile (fun _ gives => gives) rfl rfl
      · have standard : severity rule = (Setting.severity rule).standard := if_neg here
        rw [standard]
        refine .standard (fun _ gives => gives) fun layer same => ?_
        cases same
        exact if_neg here
  · intro empty
    cases (arguments.existsUnique_chooses _ _).unique empty (.given given)
  · exact .inFile other rfl rfl

end PinFloor
