import PinFloor.Log.Notice
import PinFloor.Report
import PinFloor.Text.Style

/-!
# Reports for people

Each diagnostic is a paragraph that begins with its severity and rule. The last line says what was
found and what was checked.
-/

namespace PinFloor

/-- A line with a label that is set back. -/
def labelledLine (label text : String) : String :=
  "  " ++ Style.dimmed.paint (label ++ ":") ++ " " ++ text ++ "\n"

namespace Severity

/-- A label in the colour of a severity. -/
def paint (label : String) : Severity → String
  | ignore => label
  | warning => Style.bold.paint (Style.yellow.paint label)
  | error => Style.bold.paint (Style.red.paint label)

end Severity

namespace Diagnostic

/-- The severity and rule of a diagnostic. -/
def label (d : Diagnostic) : String :=
  d.severity.text ++ "[" ++ d.finding.rule.code ++ "]"

/-- The environments of a diagnostic, given the number of all environments. -/
def environmentsText (d : Diagnostic) (all : Nat) : String :=
  if d.environments.length = all then "all " ++ Decimal.text all
  else String.intercalate ", " (d.environments.map TargetEnvironment.text)

/-- The lines of a diagnostic. -/
def text (d : Diagnostic) (all : Nat) : String :=
  d.severity.paint d.label ++ Style.bold.paint ":" ++ " " ++ d.finding.message ++ "\n"
    ++ String.join
      (d.finding.requirement.toList.map fun origin => labelledLine "requirement" origin.text)
    ++ String.join (d.finding.constraints.map fun origin => labelledLine "constraint" origin.text)
    ++ labelledLine "environments" (d.environmentsText all)

end Diagnostic

namespace Report

/-- What was checked. -/
def checkedText (r : Report) : String :=
  "Checked " ++ countText r.requirements "requirement" "requirements" ++ " and "
    ++ countText r.constraints "constraint" "constraints" ++ " in "
    ++ countText r.environments.length "environment" "environments"

/-- The numbers of errors and warnings, as far as there are any. -/
def foundText (r : Report) : String :=
  "Found " ++ String.intercalate " and "
    ((if 0 < r.errors then [countText r.errors "error" "errors"] else [])
      ++ if 0 < r.warnings then [countText r.warnings "warning" "warnings"] else []) ++ "."

/-- The outcome of a check in a few words. -/
def outcomeText (r : Report) : String :=
  if r.errors = 0 ∧ r.warnings = 0 then
    Style.bold.paint (Style.green.paint "All checks passed.")
  else if r.isSuccess then Style.bold.paint (Style.yellow.paint r.foundText)
  else Style.bold.paint (Style.red.paint r.foundText)

/-- A report for people. -/
def text (r : Report) : String :=
  String.join (r.diagnostics.map fun d => d.text r.environments.length ++ "\n")
    ++ r.outcomeText ++ " " ++ r.checkedText ++ "\n"

end Report

end PinFloor
