import PinFloor.Data.Decode

/-!
# Layers of settings

A layer sets some of the settings of a check. Layers are put on top of each other: the first one
that sets a key decides it, for each key and for each rule on its own.
-/

namespace PinFloor

/-- The severities that a layer sets. -/
structure RuleLayer where
  /-- The severity of a rule, if the layer sets it. -/
  get : Rule → Option Severity

/-- Some of the settings of a check. -/
structure Layer where
  /-- The requirements files. -/
  requirements : Option (List Path) := none
  /-- The constraints files. -/
  constraints : Option (List Path) := none
  pythonVersions : Option (List PythonVersion) := none
  platforms : Option (List Platform) := none
  /-- The packages that are not checked. -/
  ignore : Option (List PackageName) := none
  /-- Whether warnings make the check fail. -/
  strict : Option Bool := none
  /-- The severities of rules. -/
  rules : Option RuleLayer := none

/-- Combines what may be missing. -/
def combineOptional {α : Type} (combine : α → α → α) : Option α → Option α → Option α
  | some a, some b => some (combine a b)
  | some a, none => some a
  | none, b => b

namespace RuleLayer

/-- A layer that sets no severity. -/
def empty : RuleLayer := ⟨fun _ => none⟩

/-- The first layer on top of the second. -/
def combine (a b : RuleLayer) : RuleLayer :=
  ⟨fun rule => (a.get rule).or (b.get rule)⟩

/-- The layer with the severity of one rule set. -/
def set (layer : RuleLayer) (rule : Rule) (severity : Severity) : RuleLayer :=
  ⟨fun r => if r = rule then some severity else layer.get r⟩

/-- The severities with those of the layer in place of the standard ones. -/
def severities (layer : RuleLayer) : Severities :=
  ⟨fun rule => (layer.get rule).getD (Severities.standard.get rule)⟩

/-- Reads the severities of rules. -/
def decode (format : DataFormat) : Decoder RuleLayer :=
  Decode.record "RulesOptions" true
    (Rule.all.map fun rule =>
      (rule.code, fun layer value => (Decode.severity format value).map (layer.set rule)))
    empty

end RuleLayer

namespace Layer

/-- A layer that sets nothing. -/
def empty : Layer := {}

/-- The first layer on top of the second. -/
def combine (a b : Layer) : Layer where
  requirements := a.requirements.or b.requirements
  constraints := a.constraints.or b.constraints
  pythonVersions := a.pythonVersions.or b.pythonVersions
  platforms := a.platforms.or b.platforms
  ignore := a.ignore.or b.ignore
  strict := a.strict.or b.strict
  rules := combineOptional RuleLayer.combine a.rules b.rules

/-- Layers that may be missing, the first on top. -/
def combine? : Option Layer → Option Layer → Option Layer :=
  combineOptional combine

/-- The layer with its files seen from a directory. -/
def relativeTo (layer : Layer) (directory : Path) : Layer :=
  { layer with
    requirements := layer.requirements.map (·.map directory.join)
    constraints := layer.constraints.map (·.map directory.join) }

/-- How the keys of a layer are read. -/
def keys (format : DataFormat) : List (String × Decode.FieldDecoder Layer) :=
  [("requirements", fun layer value =>
      (Decode.list Decode.path value).map fun files => { layer with requirements := some files }),
   ("constraints", fun layer value =>
      (Decode.list Decode.path value).map fun files => { layer with constraints := some files }),
   ("python-versions", fun layer value =>
      (Decode.list Decode.pythonVersion value).map fun versions =>
        { layer with pythonVersions := some versions }),
   ("platforms", fun layer value =>
      (Decode.list (Decode.platform format) value).map fun platforms =>
        { layer with platforms := some platforms }),
   ("ignore", fun layer value =>
      (Decode.list Decode.packageName value).map fun names => { layer with ignore := some names }),
   ("strict", fun layer value =>
      (Decode.boolean value).map fun strict => { layer with strict := some strict }),
   ("rules", fun layer value =>
      (RuleLayer.decode format value).map fun rules => { layer with rules := some rules })]

/-- Reads a layer. -/
def decode (format : DataFormat) : Decoder Layer :=
  Decode.record "Options" true (keys format) empty

/-- Reads the layer in the table of this tool, if there is one. -/
def decodeTool (format : DataFormat) : Decoder (Option Layer) :=
  Decode.record "Tools" false
    [("mincheck", fun _ value => (decode format value).map some)] none

/-- Reads the table of tools of a project, if there is one, and the layer in it. -/
def decodeProject (format : DataFormat) : Decoder (Option (Option Layer)) :=
  Decode.record "Project" false
    [("tool", fun _ value => (decodeTool format value).map some)] none

end Layer

end PinFloor
