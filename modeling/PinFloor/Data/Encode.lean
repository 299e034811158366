import PinFloor.Data.Value
import PinFloor.Listing
import PinFloor.Report

/-!
# Encoding as data values

How the library's own types stand in data: what is written by name is written as a text, and the
fields of a structure keep their order.
-/

namespace PinFloor.Encode

def count (n : Nat) : Value :=
  .integer n

def list {α : Type} (item : α → Value) (items : List α) : Value :=
  .sequence (items.map item)

/-- What may be missing. -/
def optional {α : Type} (item : α → Value) : Option α → Value
  | none => .null
  | some a => item a

def pythonVersion (v : PythonVersion) : Value :=
  .string v.text

def platform (p : Platform) : Value :=
  .string p.text

def environment (e : TargetEnvironment) : Value :=
  .string e.text

/-- A place in a file. -/
def origin (o : Origin) : Value :=
  .mapping [("path", .string o.path.text), ("line", count o.line)]

def diagnostic (d : Diagnostic) : Value :=
  .mapping
    [("rule", .string d.finding.rule.code), ("severity", .string d.severity.text),
     ("package", .string d.finding.package.text), ("message", .string d.finding.message),
     ("requirement", optional origin d.finding.requirement),
     ("constraints", list origin d.finding.constraints),
     ("environments", list environment d.environments)]

def report (r : Report) : Value :=
  .mapping
    [("diagnostics", list diagnostic r.diagnostics),
     ("environments", list environment r.environments), ("requirements", count r.requirements),
     ("constraints", count r.constraints), ("strict", .boolean r.strict)]

/-- A named entry. -/
def entry (e : Entry) : Value :=
  .mapping
    [("name", .string e.name.text), ("specification", .string e.specification),
     ("marker", optional .string e.markerText?), ("origin", origin e.origin)]

/-- An entry without a name. -/
def target (t : Target) : Value :=
  .mapping [("target", .string t.target), ("origin", origin t.origin)]

def globalOptions (o : GlobalOptions) : Value :=
  .mapping
    [("index-url", optional .string o.indexUrl),
     ("extra-index-urls", list .string o.extraIndexUrls),
     ("no-index", .boolean o.noIndex), ("find-links", list .string o.findLinks),
     ("trusted-hosts", list .string o.trustedHosts), ("pre", .boolean o.preReleases),
     ("prefer-binary", .boolean o.preferBinary), ("only-binary", list .string o.onlyBinary),
     ("no-binary", list .string o.noBinary), ("require-hashes", .boolean o.requireHashes)]

def listing (l : Listing) : Value :=
  .mapping
    [("environment", environment l.environment),
     ("requirements", list entry l.content.requirements),
     ("constraints", list entry l.content.constraints),
     ("editables", list target l.content.editables), ("unnamed", list target l.content.unnamed),
     ("options", globalOptions l.content.options)]

end PinFloor.Encode
