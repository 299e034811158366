/-!
# Global options

The options that a requirements file may set for all of its entries. Some take a value, and the
others are flags. They are only recorded.
-/

namespace PinFloor

/-- A global option that takes a value. -/
inductive ValueOption where
  | indexUrl
  | extraIndexUrl
  | findLinks
  | trustedHost
  | onlyBinary
  | noBinary
  deriving Repr, DecidableEq

/-- A global option without a value. -/
inductive FlagOption where
  | noIndex
  /-- `--pre` -/
  | preReleases
  | preferBinary
  | requireHashes
  deriving Repr, DecidableEq

/-- A global option as a file sets it. -/
inductive GlobalOption where
  /-- An option with its value. -/
  | setting (option : ValueOption) (value : String)
  | flag (option : FlagOption)
  deriving Repr, DecidableEq

/-- The global options of a file and the files it includes. -/
structure GlobalOptions where
  /-- The last index URL. -/
  indexUrl : Option String := none
  extraIndexUrls : List String := []
  /-- Whether `--no-index` is set. -/
  noIndex : Bool := false
  /-- The places to look for archives. -/
  findLinks : List String := []
  trustedHosts : List String := []
  /-- Whether `--pre` is set. -/
  preReleases : Bool := false
  /-- Whether `--prefer-binary` is set. -/
  preferBinary : Bool := false
  /-- The packages that are only installed from binaries. -/
  onlyBinary : List String := []
  /-- The packages that are never installed from binaries. -/
  noBinary : List String := []
  /-- Whether `--require-hashes` is set. -/
  requireHashes : Bool := false
  deriving Repr, DecidableEq

/-- The option with a name that takes a value. -/
def ValueOption.ofName? : String → Option ValueOption
  | "-i" | "--index-url" => some .indexUrl
  | "--extra-index-url" => some .extraIndexUrl
  | "-f" | "--find-links" => some .findLinks
  | "--trusted-host" => some .trustedHost
  | "--only-binary" => some .onlyBinary
  | "--no-binary" => some .noBinary
  | _ => none

/-- The flag with a name. -/
def FlagOption.ofName? : String → Option FlagOption
  | "--no-index" => some .noIndex
  | "--pre" => some .preReleases
  | "--prefer-binary" => some .preferBinary
  | "--require-hashes" => some .requireHashes
  | _ => none

namespace GlobalOptions

/-- No options. -/
def empty : GlobalOptions := {}

/-- Options with one more set. A later index URL replaces an earlier one; other values are
    collected. -/
def apply (o : GlobalOptions) : GlobalOption → GlobalOptions
  | .setting .indexUrl value => { o with indexUrl := some value }
  | .setting .extraIndexUrl value => { o with extraIndexUrls := o.extraIndexUrls ++ [value] }
  | .setting .findLinks value => { o with findLinks := o.findLinks ++ [value] }
  | .setting .trustedHost value => { o with trustedHosts := o.trustedHosts ++ [value] }
  | .setting .onlyBinary value => { o with onlyBinary := o.onlyBinary ++ [value] }
  | .setting .noBinary value => { o with noBinary := o.noBinary ++ [value] }
  | .flag .noIndex => { o with noIndex := true }
  | .flag .preReleases => { o with preReleases := true }
  | .flag .preferBinary => { o with preferBinary := true }
  | .flag .requireHashes => { o with requireHashes := true }

/-- The options of two texts, one after the other. -/
def merge (a b : GlobalOptions) : GlobalOptions where
  indexUrl := b.indexUrl.or a.indexUrl
  extraIndexUrls := a.extraIndexUrls ++ b.extraIndexUrls
  noIndex := a.noIndex || b.noIndex
  findLinks := a.findLinks ++ b.findLinks
  trustedHosts := a.trustedHosts ++ b.trustedHosts
  preReleases := a.preReleases || b.preReleases
  preferBinary := a.preferBinary || b.preferBinary
  onlyBinary := a.onlyBinary ++ b.onlyBinary
  noBinary := a.noBinary ++ b.noBinary
  requireHashes := a.requireHashes || b.requireHashes

/-- Whether no option is set. -/
def isEmpty (o : GlobalOptions) : Bool :=
  o == empty

end GlobalOptions

end PinFloor
