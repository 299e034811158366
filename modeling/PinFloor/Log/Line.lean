import PinFloor.Log.Filter
import PinFloor.Text.Style

/-!
# What the user is told during the work

Notices that the log filter shows become lines of the log. A project file that is passed over is a
warning to the user, which has nothing to do with the log.
-/

namespace PinFloor

/-- How notices are told. -/
structure Teller where
  /-- What is written to the log. -/
  filter : LogFilter
  /-- Whether lines of the log name the step they belong to. -/
  namesSteps : Bool
  /-- Whether lines of the log are styled. -/
  styled : Bool
  /-- Whether the user is warned. -/
  warns : Bool

namespace LogLevel

/-- The colour of a level. -/
def style : LogLevel → Style
  | trace => .purple
  | debug => .blue
  | info => .green
  | warn => .yellow
  | error => .red

end LogLevel

namespace Teller

/-- A text in a style, if lines are styled. -/
def paint (teller : Teller) (style : Style) (text : String) : String :=
  if teller.styled then style.paint text else text

/-- The step of a notice, as its line names it. -/
def stepText (teller : Teller) (notice : Notice) : String :=
  if teller.namesSteps && notice.environment?.isSome then
    teller.paint .bold LogDirective.environmentStep ++ ": "
  else ""

/-- The line of the log for a notice. -/
def line (teller : Teller) (notice : Notice) : String :=
  teller.paint notice.level.style notice.level.text ++ " " ++ teller.stepText notice
    ++ notice.text ++ "\n"

/-- A warning about a project file that is passed over. -/
def warning (file : Path) (detail : Option String) : String :=
  Style.bold.paint (Style.yellow.paint "warning") ++ Style.bold.paint ":" ++ " "
    ++ Style.bold.paint
      ("Failed to parse `" ++ Style.cyan.paint file.text ++ "` during settings discovery:\n"
        ++ "  " ++ detail.getD "not a TOML document")
    ++ "\n"

/-- What is told about a notice. Warnings are still to be cleared of styles. -/
def tell (teller : Teller) (clear : String → String) (notice : Notice) : String :=
  match notice with
  | .brokenProject file detail => if teller.warns then clear (warning file detail) else ""
  | notice => if teller.filter.shows notice then teller.line notice else ""

end Teller

end PinFloor
