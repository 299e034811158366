import PinFloor.Check
import PinFloor.CommandLine.Arguments
import PinFloor.Settings.Layer

/-!
# Resolved settings

All settings of a check: those of the command line, where it gives any, over those of a file, over
the standard ones.
-/

namespace PinFloor

/-- The settings of a check, and its files. -/
structure ResolvedSettings where
  /-- The requirements files. -/
  requirements : List Path
  /-- The constraints files. -/
  constraints : List Path
  /-- What decides the outcome. -/
  check : CheckSettings

/-- A list that counts as given only if it has items. -/
def nonEmpty? {α : Type} (items : List α) : Option (List α) :=
  if items.isEmpty then none else some items

namespace CheckArguments

/-- Whether the arguments say that warnings make the check fail, or that they do not. -/
def strict? (a : CheckArguments) : Option Bool :=
  if a.noStrict then some false else if a.strict then some true else none

/-- The layer of settings that the arguments give. -/
def layer (a : CheckArguments) : Layer where
  requirements := nonEmpty? a.requirements
  constraints := nonEmpty? a.constraints
  pythonVersions := nonEmpty? a.pythonVersions
  platforms := nonEmpty? a.platforms
  ignore := nonEmpty? a.ignore
  strict := a.strict?

end CheckArguments

namespace Layer

/-- The settings with the standard ones where a layer sets none. There must be Python versions and
    platforms. -/
def resolve (layer : Layer) : Except EnvironmentError ResolvedSettings :=
  (Matrix.make (layer.pythonVersions.getD Matrix.defaultPythonVersions)
      (layer.platforms.getD Platform.all)).map fun matrix =>
    { requirements := layer.requirements.getD []
      constraints := layer.constraints.getD []
      check :=
        { matrix
          severities := (layer.rules.getD .empty).severities
          ignore := layer.ignore.getD []
          strict := layer.strict.getD false } }

end Layer

namespace ResolvedSettings

/-- The settings of a check with arguments, given the layer of a file, if there is one. -/
def ofArguments (arguments : CheckArguments) (file : Option Layer) :
    Except EnvironmentError ResolvedSettings :=
  (arguments.layer.combine (file.getD .empty)).resolve

end ResolvedSettings

end PinFloor
