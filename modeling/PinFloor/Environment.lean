import PinFloor.Marker.Variable
import PinFloor.Text.Blank
import PinFloor.Version.Parser

/-!
# Target environments

A target environment is a Python version on a platform; it gives a value to each variable of a
marker. A matrix holds the environments that a check runs in: each of some Python versions on each
of some platforms, in the order given and without repetitions.
-/

namespace PinFloor

/-- A family of operating systems. -/
inductive Platform where
  | linux
  | windows
  | macos
  deriving Repr, DecidableEq

structure PythonVersion where
  /-- The first number. -/
  major : Nat
  /-- The second number. -/
  minor : Nat
  /-- The third number, if one is given. -/
  patch : Option Nat
  deriving Repr, DecidableEq

/-- A Python version on a platform. -/
structure TargetEnvironment where
  /-- The Python version. -/
  python : PythonVersion
  platform : Platform
  deriving Repr, DecidableEq

/-- The environments of a check. -/
structure Matrix where
  /-- The Python versions, each once. -/
  pythonVersions : List PythonVersion
  /-- The platforms, each once. -/
  platforms : List Platform
  deriving Repr, DecidableEq

/-- Why there is no such environment or matrix. -/
inductive EnvironmentError where
  /-- The text is no Python version. -/
  | invalidPythonVersion (given : String)
  /-- The text names no platform. -/
  | invalidPlatform (given : String)
  /-- A matrix has no Python versions. -/
  | noPythonVersions
  /-- A matrix has no platforms. -/
  | noPlatforms
  deriving Repr, DecidableEq

namespace EnvironmentError

/-- What is said about an error. -/
def message : EnvironmentError → String
  | invalidPythonVersion given =>
      "Invalid Python version `" ++ given
        ++ "`: expected `major.minor` or `major.minor.patch`"
  | invalidPlatform given =>
      "Invalid platform `" ++ given ++ "`: expected one of `linux`, `windows` or `macos`"
  | noPythonVersions => "At least one Python version is required"
  | noPlatforms => "At least one platform is required"

end EnvironmentError

namespace Platform

/-- All platforms. -/
def all : List Platform := [linux, windows, macos]

/-- How a platform is written. -/
def text : Platform → String
  | linux => "linux"
  | windows => "windows"
  | macos => "macos"

def sysPlatform : Platform → String
  | linux => "linux"
  | windows => "win32"
  | macos => "darwin"

/-- The value of `platform_system`. -/
def system : Platform → String
  | linux => "Linux"
  | windows => "Windows"
  | macos => "Darwin"

def osName : Platform → String
  | windows => "nt"
  | _ => "posix"

/-- The platform with a name, which may also be the value of `sys_platform`. -/
def ofName? (name : String) : Option Platform :=
  all.find? fun platform => platform.text == name || platform.sysPlatform == name

/-- Reads a platform; letters may be in any case. -/
def parse (text : String) : Except EnvironmentError Platform :=
  match ofName? (String.ofList (text.toList.map Char.toLower)) with
  | some platform => .ok platform
  | none => .error (.invalidPlatform text)

end Platform

namespace PythonVersion

/-- The numbers of a version, as many as were given. -/
def numbers (v : PythonVersion) : List Nat :=
  v.major :: v.minor :: v.patch.toList

/-- How a version is written. -/
def text (v : PythonVersion) : String :=
  Version.releaseText v.numbers

/-- The first two numbers. -/
def short (v : PythonVersion) : List Nat :=
  [v.major, v.minor]

/-- All three numbers; a missing third one is zero. -/
def full (v : PythonVersion) : List Nat :=
  [v.major, v.minor, v.patch.getD 0]

/-- Reads a version: two or three numbers joined by points, with blanks around. -/
def parse (text : String) : Except EnvironmentError PythonVersion :=
  match ((trim text.toList).splitOn '.').mapM Decimal.signedWord? with
  | some [major, minor] => .ok ⟨major, minor, none⟩
  | some [major, minor, patch] => .ok ⟨major, minor, some patch⟩
  | _ => .error (.invalidPythonVersion text)

/-- The order of versions; one without a third number comes before those with one. -/
def le (a b : PythonVersion) : Bool :=
  compare a.numbers b.numbers != .gt

/-- The versions in ascending order, each once. -/
def sorted (versions : List PythonVersion) : List PythonVersion :=
  (versions.mergeSort le).eraseDups

end PythonVersion

namespace TargetEnvironment

/-- How an environment is written. -/
def text (e : TargetEnvironment) : String :=
  "py" ++ e.python.text ++ "-" ++ e.platform.text

/-- The values of the variables of markers, for CPython on x86-64. -/
def markers (e : TargetEnvironment) : MarkerEnvironment where
  implementationName := "cpython"
  implementationVersion := e.python.full
  osName := e.platform.osName
  platformMachine := "x86_64"
  platformPythonImplementation := "CPython"
  platformRelease := ""
  platformSystem := e.platform.system
  platformVersion := ""
  pythonFullVersion := e.python.full
  pythonVersion := e.python.short
  sysPlatform := e.platform.sysPlatform

end TargetEnvironment

/-- Why the variables of markers have no values in an environment: one of its versions cannot be
    read. -/
structure MarkersError where
  environment : TargetEnvironment
  deriving Repr, DecidableEq

/-- What is said about an environment without values. -/
def MarkersError.message (error : MarkersError) : String :=
  "Failed to build the marker environment for `" ++ error.environment.text ++ "`"

namespace TargetEnvironment

/-- The release numbers of a version, read from its text. -/
def readRelease (e : TargetEnvironment) (numbers : List Nat) : Except MarkersError (List Nat) :=
  match Version.parse? (Version.releaseText numbers).toList with
  | some version => .ok version.release
  | none => .error ⟨e⟩

/-- The values of the variables of markers. The versions are given as texts and have to be read. -/
def readMarkers (e : TargetEnvironment) : Except MarkersError MarkerEnvironment := do
  let full ← e.readRelease e.python.full
  let short ← e.readRelease e.python.short
  return { e.markers with
    implementationVersion := full, pythonFullVersion := full, pythonVersion := short }

end TargetEnvironment

namespace Matrix

/-- The Python versions of a check for which none are given. -/
def defaultPythonVersions : List PythonVersion :=
  [8, 9, 10, 11, 12, 13].map fun minor => ⟨3, minor, none⟩

/-- The matrix of some Python versions and platforms; there must be one of each. -/
def make (pythonVersions : List PythonVersion) (platforms : List Platform) :
    Except EnvironmentError Matrix :=
  if pythonVersions.isEmpty then .error .noPythonVersions
  else if platforms.isEmpty then .error .noPlatforms
  else .ok ⟨pythonVersions.eraseDups, platforms.eraseDups⟩

/-- The environments of a matrix, by Python version, then by platform. -/
def environments (m : Matrix) : List TargetEnvironment :=
  m.pythonVersions.flatMap fun python => m.platforms.map fun platform => ⟨python, platform⟩

/-- The number of environments. -/
def size (m : Matrix) : Nat :=
  m.pythonVersions.length * m.platforms.length

/-- Whether there is no environment. -/
def isEmpty (m : Matrix) : Bool :=
  m.size == 0

end Matrix

end PinFloor
