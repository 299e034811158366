/-!
# Help texts

What the program says about itself and its commands.
-/

namespace PinFloor.Help

/-- The version of the program. -/
def version : String := "0.1.0"

/-- The name of the program with a command. -/
def name (command : Option String) : String :=
  match command with
  | none => "mincheck"
  | some command => "mincheck-" ++ command

def versionLine (command : Option String) : String :=
  name command ++ " " ++ version ++ "\n"

/-- The options that all commands share. -/
def globalOptions : String :=
  "\nGlobal options:\n"
    ++ "  -q, --quiet                      Do not print any output\n"
    ++ "  -v, --verbose...                 Use verbose output\n"
    ++ "      --color <COLOR>              Control colors in output: auto, always or never\n"
    ++ "      --config-file <CONFIG_FILE>  The path to a `mincheck.toml` file\n"
    ++ "      --no-config                  Avoid discovering configuration files\n"
    ++ "  -h, --help                       Print help\n"
    ++ "  -V, --version                    Print version\n"

/-- The help about a check. -/
def check : String :=
  "Check that the constraints files pin every requirement at or above its minimum version\n\n"
    ++ "Usage: mincheck check [OPTIONS] [REQUIREMENTS]...\n\n"
    ++ "Options:\n"
    ++ "  -c, --constraints <CONSTRAINTS>      A constraints file whose pins are checked\n"
    ++ "      --python-version <VERSION>       A Python version to evaluate markers for\n"
    ++ "      --platform <PLATFORM>            A platform to evaluate markers for\n"
    ++ "      --ignore <PACKAGE>               A package to skip in every rule\n"
    ++ "      --strict                         Fail when any warning is reported\n"
    ++ "      --output-format <OUTPUT_FORMAT>  The format of the report: text or json\n"

/-- The help about a listing. -/
def listing : String :=
  "List the requirements and constraints that apply in one environment\n\n"
    ++ "Usage: mincheck show [OPTIONS] <FILE>...\n\n"
    ++ "Options:\n"
    ++ "      --python-version <PYTHON_VERSION>  The Python version to evaluate markers for\n"
    ++ "      --platform <PLATFORM>              The platform to evaluate markers for\n"
    ++ "      --output-format <OUTPUT_FORMAT>    The format of the entries: text or json\n"

/-- The help about the program. -/
def program : String :=
  "Checks that minimum-constraints files agree with the requirements they pin.\n\n"
    ++ "Usage: mincheck [OPTIONS] <COMMAND>\n\n"
    ++ "Commands:\n"
    ++ "  check  Check that the constraints files pin every requirement high enough\n"
    ++ "  show   List the requirements and constraints that apply in one environment\n"
    ++ "  help   Print this message or the help of the given command\n"

/-- The help about a command, or about the program. -/
def text (command : Option String) : String :=
  (match command with
    | some "check" => check
    | some "show" => listing
    | _ => program) ++ globalOptions

end PinFloor.Help
