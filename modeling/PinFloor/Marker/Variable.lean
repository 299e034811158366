import PinFloor.Version.Basic

/-!
# Environment variables of markers

The variables that a marker may ask about, and the environment that gives them values. Some
variables have older names, which are variables of their own with the same value.
-/

namespace PinFloor

/-- A variable whose values are compared as versions. -/
inductive VersionVariable where
  | implementationVersion
  | pythonFullVersion
  | pythonVersion
  deriving Repr, DecidableEq

/-- A variable whose values are compared as texts, with its older names. -/
inductive TextVariable where
  | implementationName
  | osName
  | osNameDotted
  | platformMachine
  | platformMachineDotted
  | platformPythonImplementation
  | platformPythonImplementationDotted
  | pythonImplementation
  | platformRelease
  | platformSystem
  | platformVersion
  | platformVersionDotted
  | sysPlatform
  | sysPlatformDotted
  deriving Repr, DecidableEq

/-- The values of the variables in one environment. Versions are given by their release numbers. -/
structure MarkerEnvironment where
  implementationName : String
  implementationVersion : List Nat
  osName : String
  platformMachine : String
  platformPythonImplementation : String
  platformRelease : String
  platformSystem : String
  platformVersion : String
  pythonFullVersion : List Nat
  pythonVersion : List Nat
  sysPlatform : String
  deriving Repr, DecidableEq

namespace VersionVariable

/-- All version variables, in their order. -/
def all : List VersionVariable :=
  [implementationVersion, pythonFullVersion, pythonVersion]

/-- The place of a variable in the order. -/
def index (v : VersionVariable) : Nat :=
  all.idxOf v

/-- The name of a variable. -/
def name : VersionVariable → String
  | implementationVersion => "implementation_version"
  | pythonFullVersion => "python_full_version"
  | pythonVersion => "python_version"

/-- The variable with a name. -/
def ofName? (name : String) : Option VersionVariable :=
  all.find? (·.name == name)

/-- The value of a variable. -/
def value (environment : MarkerEnvironment) : VersionVariable → List Nat
  | implementationVersion => environment.implementationVersion
  | pythonFullVersion => environment.pythonFullVersion
  | pythonVersion => environment.pythonVersion

end VersionVariable

namespace TextVariable

/-- All text variables, in their order. -/
def all : List TextVariable :=
  [implementationName, osName, osNameDotted, platformMachine, platformMachineDotted,
   platformPythonImplementation, platformPythonImplementationDotted, pythonImplementation,
   platformRelease, platformSystem, platformVersion, platformVersionDotted, sysPlatform,
   sysPlatformDotted]

/-- The place of a variable in the order. -/
def index (v : TextVariable) : Nat :=
  all.idxOf v

/-- The name that a variable is read by. -/
def spelling : TextVariable → String
  | implementationName => "implementation_name"
  | osName => "os_name"
  | osNameDotted => "os.name"
  | platformMachine => "platform_machine"
  | platformMachineDotted => "platform.machine"
  | platformPythonImplementation => "platform_python_implementation"
  | platformPythonImplementationDotted => "platform.python_implementation"
  | pythonImplementation => "python_implementation"
  | platformRelease => "platform_release"
  | platformSystem => "platform_system"
  | platformVersion => "platform_version"
  | platformVersionDotted => "platform.version"
  | sysPlatform => "sys_platform"
  | sysPlatformDotted => "sys.platform"

/-- The present name of a variable that may have an older one. -/
def present : TextVariable → TextVariable
  | osNameDotted => osName
  | platformMachineDotted => platformMachine
  | platformPythonImplementationDotted => platformPythonImplementation
  | pythonImplementation => platformPythonImplementation
  | platformVersionDotted => platformVersion
  | sysPlatformDotted => sysPlatform
  | v => v

/-- The name that a variable is written with. -/
def name (v : TextVariable) : String :=
  v.present.spelling

/-- The variable that is read by a name. -/
def ofName? (name : String) : Option TextVariable :=
  all.find? (·.spelling == name)

/-- The value of a variable. -/
def value (environment : MarkerEnvironment) : TextVariable → String
  | implementationName => environment.implementationName
  | osName | osNameDotted => environment.osName
  | platformMachine | platformMachineDotted => environment.platformMachine
  | platformPythonImplementation | platformPythonImplementationDotted | pythonImplementation =>
      environment.platformPythonImplementation
  | platformRelease => environment.platformRelease
  | platformSystem => environment.platformSystem
  | platformVersion | platformVersionDotted => environment.platformVersion
  | sysPlatform | sysPlatformDotted => environment.sysPlatform

end TextVariable

end PinFloor
