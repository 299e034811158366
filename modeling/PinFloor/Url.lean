import PinFloor.Text.Blank
import PinFloor.Text.Decimal

/-!
# URLs

Absolute URLs with one of the schemes that packages are fetched by, read and brought into normal
form by the URL standard. A `file` URL and a text without a known scheme are paths, which have to
be absolute. Hosts are ASCII.
-/

namespace PinFloor

/-- A URL in its normal form. -/
structure Url where
  /-- How the URL is written. -/
  text : String
  deriving Repr, DecidableEq

namespace Url

/-- The schemes of the web and of version control systems. -/
def schemes : List String :=
  ["http", "https",
   "git+git", "git+http", "git+file", "git+ssh", "git+https",
   "bzr+http", "bzr+https", "bzr+ssh", "bzr+sftp", "bzr+ftp", "bzr+lp", "bzr+file",
   "hg+file", "hg+http", "hg+https", "hg+ssh", "hg+static-http",
   "svn+ssh", "svn+http", "svn+https", "svn+svn", "svn+file"]

/-- The port that a scheme of the web has if none is given. -/
def defaultPort? (scheme : String) : Option Nat :=
  if scheme = "http" then some 80 else if scheme = "https" then some 443 else none

/-! ## Percent encoding -/

/-- Control characters, and all that is not ASCII. -/
def isControl (c : Char) : Bool :=
  c.val < 0x20 || 0x7E < c.val

/-- What is encoded in a fragment. -/
def inFragment (c : Char) : Bool :=
  isControl c || " \"<>`".contains c

/-- What is encoded in a query. -/
def inQuery (special : Bool) (c : Char) : Bool :=
  isControl c || " \"#<>".contains c || (special && c = '\'')

/-- What is encoded in a path. -/
def inPath (c : Char) : Bool :=
  inFragment c || c = '#' || c = '?' || c = '^' || c = '\x7b' || c = '\x7d'

/-- What is encoded in a user's name and password. -/
def inUserinfo (c : Char) : Bool :=
  inPath c || "/:;=@[\\]|".contains c

/-- A hexadecimal digit in upper case. -/
def hexDigit (n : Nat) : Char :=
  (Nat.digitChar n).toUpper

/-- Encodes the characters of a class by the bytes of their UTF-8 form. -/
def encode (encoded : Char → Bool) (cs : List Char) : List Char :=
  cs.flatMap fun c =>
    if encoded c then
      (String.utf8EncodeChar c).flatMap fun b =>
        ['%', hexDigit (b.toNat / 16), hexDigit (b.toNat % 16)]
    else [c]

/-- The value of a hexadecimal digit. -/
def hexValue? (c : Char) : Option Nat :=
  if c.isDigit then some (c.toNat - '0'.toNat)
  else if 'a' ≤ c ∧ c ≤ 'f' then some (c.toNat - 'a'.toNat + 10)
  else if 'A' ≤ c ∧ c ≤ 'F' then some (c.toNat - 'A'.toNat + 10)
  else none

/-- Replaces encoded ASCII characters by themselves. -/
def decode : List Char → List Char
  | '%' :: a :: b :: rest =>
      match hexValue? a, hexValue? b with
      | some x, some y =>
          if x < 8 then Char.ofNat (16 * x + y) :: decode rest
          else '%' :: a :: b :: decode rest
      | _, _ => '%' :: decode (a :: b :: rest)
  | c :: rest => c :: decode rest
  | [] => []

/-! ## Hosts -/

/-- A character that no host may hold. -/
def isForbidden (c : Char) : Bool :=
  c.val = 0 || "\t\n\r #/:<>?@[\\]^|".contains c

/-- One of the numbers of a numeric host: decimal, octal after `0`, hexadecimal after `0x`. -/
def hostNumber? (cs : List Char) : Option Nat :=
  match cs with
  | [] => none
  | '0' :: 'x' :: rest => inBase 16 rest
  | '0' :: rest => inBase 8 rest
  | _ => inBase 10 cs
where
  /-- A number in a base, zero if there is no digit. -/
  inBase (base : Nat) (cs : List Char) : Option Nat :=
    cs.foldlM (fun n c => do
      let d ← hexValue? c
      if d < base then some (n * base + d) else none) 0

/-- The numeric host of at most four numbers; the last one fills the bytes that are left. -/
def numericHost? (parts : List (List Char)) : Option (List Char) := do
  let numbers ← parts.mapM hostNumber?
  let last ← numbers.getLast?
  if numbers.length > 4 ∨ numbers.dropLast.any (· > 255) then none
  else if Nat.pow 256 (5 - numbers.length) ≤ last then none
  else
    let address := numbers.dropLast.zipIdx.foldl (fun n (b, i) => n + b * Nat.pow 256 (3 - i)) last
    some (String.intercalate "." ([3, 2, 1, 0].map fun i =>
      Decimal.text (address / Nat.pow 256 i % 256))).toList

/-- A host of the web: a name in lower case, or a numeric host. -/
def domain? (cs : List Char) : Option (List Char) :=
  let name := (decode cs).map Char.toLower
  if name.isEmpty ∨ name.any (fun c => isForbidden c || isControl c || c = '%') then none
  else
    let parts := name.splitOn '.'
    let parts := if 1 < parts.length ∧ parts.getLast? = some [] then parts.dropLast else parts
    match parts.getLast? with
    | some last =>
        if (!last.isEmpty && last.all Char.isDigit) || (hostNumber? last).isSome then
          numericHost? parts
        else some name
    | none => none

/-- A host in its normal form. -/
def host? (special : Bool) (cs : List Char) : Option (List Char) :=
  match cs with
  | '[' :: rest =>
      let inAddress := fun c : Char => (hexValue? c).isSome || ":.".contains c
      if rest.getLast? = some ']' ∧ rest.dropLast.all inAddress
      then some (cs.map Char.toLower)
      else none
  | _ =>
      if special then domain? cs
      else if cs.any isForbidden then none
      else some (encode isControl cs)

/-! ## Parts -/

/-- The place of the port: the text before the last `:` that stands outside brackets, and the text
    after it. -/
def splitPort (cs : List Char) : List Char × List Char :=
  match cs with
  | '[' :: _ =>
      let inside := cs.takeWhile (· ≠ ']')
      (inside ++ (cs.drop inside.length).take 1, (cs.drop (inside.length + 2)))
  | _ => (cs.takeWhile (· ≠ ':'), (cs.dropWhile (· ≠ ':')).drop 1)

/-- The text of a port, with its `:`; nothing for the default port. -/
def port? (scheme : String) (cs : List Char) : Option (List Char) :=
  if cs.isEmpty then some []
  else do
    let n ← Decimal.read? cs
    if 65535 < n then none
    else if defaultPort? scheme = some n then some []
    else some (':' :: Decimal.digits n)

/-- The text of the user's name and password, with the `@`. -/
def userinfo (cs : List Char) : List Char :=
  let name := encode inUserinfo (cs.takeWhile (· ≠ ':'))
  let word := encode inUserinfo ((cs.dropWhile (· ≠ ':')).drop 1)
  if name.isEmpty && word.isEmpty then []
  else name ++ (if word.isEmpty then [] else ':' :: word) ++ ['@']

/-- An authority in its normal form. -/
def authority? (scheme : String) (cs : List Char) : Option (List Char) := do
  let reversed := cs.reverse
  let place := (reversed.takeWhile (· ≠ '@')).reverse
  let user := ((reversed.dropWhile (· ≠ '@')).drop 1).reverse
  let (hostPart, portPart) := splitPort place
  let host ← host? (defaultPort? scheme).isSome hostPart
  let port ← port? scheme portPart
  if host.isEmpty ∧ (cs.length ≠ host.length) then none
  else some (userinfo user ++ host ++ port)

/-- Whether a segment of a path means the directory itself. -/
def isHere (cs : List Char) : Bool :=
  String.ofList (cs.map Char.toLower) ∈ [".", "%2e"]

/-- Whether a segment of a path means the directory above. -/
def isAbove (cs : List Char) : Bool :=
  String.ofList (cs.map Char.toLower) ∈ ["..", ".%2e", "%2e.", "%2e%2e"]

/-- Resolves the segments of a path that mean a directory. -/
def resolve (done : List (List Char)) : List (List Char) → List (List Char)
  | [] => done
  | segment :: rest =>
      let next :=
        if isAbove segment then done.dropLast ++ (if rest.isEmpty then [[]] else [])
        else if isHere segment then done ++ (if rest.isEmpty then [[]] else [])
        else done ++ [encode inPath segment]
      resolve next rest

/-- A path in its normal form. -/
def pathText (special : Bool) (cs : List Char) : List Char :=
  match cs with
  | [] => if special then ['/'] else []
  | _ :: rest =>
      (resolve [] (rest.splitOnP fun c => c = '/' || (special && c = '\\'))).flatMap ('/' :: ·)

/-- A query and a fragment in their normal form. -/
def tailText (special : Bool) (cs : List Char) : List Char :=
  let query := cs.takeWhile (· ≠ '#')
  let fragment := cs.dropWhile (· ≠ '#')
  (match query with | [] => [] | mark :: rest => mark :: encode (inQuery special) rest)
    ++ (match fragment with | [] => [] | mark :: rest => mark :: encode inFragment rest)

/-- Reads what follows the scheme and its `:`. -/
def afterScheme? (scheme : String) (cs : List Char) : Option (List Char) :=
  let special := (defaultPort? scheme).isSome
  let isSlash := fun c : Char => c = '/' || (special && c = '\\')
  let endsPath := fun c : Char => c = '?' || c = '#'
  let located := fun rest : List Char =>
    let place := rest.takeWhile fun c => !isSlash c && !endsPath c
    let rest := rest.drop place.length
    (authority? scheme place).map fun authority =>
      '/' :: '/' :: authority ++ pathText special (rest.takeWhile (!endsPath ·))
        ++ tailText special (rest.dropWhile (!endsPath ·))
  if special then located (cs.dropWhile isSlash)
  else
    match cs with
    | '/' :: '/' :: rest => located rest
    | '/' :: _ =>
        some (pathText special (cs.takeWhile (!endsPath ·))
          ++ tailText special (cs.dropWhile (!endsPath ·)))
    | _ =>
        some (encode isControl (cs.takeWhile (!endsPath ·))
          ++ tailText special (cs.dropWhile (!endsPath ·)))

/-- The scheme of a text, if it starts with one, and the text after its `:`. -/
def splitScheme? (cs : List Char) : Option (String × List Char) :=
  let inScheme := fun c : Char => c.isAlphanum || c = '+' || c = '-' || c = '.'
  match cs.head?, cs.dropWhile inScheme with
  | some c, ':' :: rest =>
      if c.isAlpha then some (String.ofList (cs.takeWhile inScheme), rest) else none
  | _, _ => none

/-- The `file` URL of an absolute path that may be followed by a fragment. -/
def ofPath? (cs : List Char) : Option Url :=
  match cs.takeWhile (· ≠ '#') with
  | '/' :: path =>
      let segments := (path.splitOn '/').filter fun s => !s.isEmpty && s ≠ ['.']
      let inSegment := fun c => inPath c || c = '%' || c = '\\'
      let follow := fun done s => if s = ['.', '.'] then done.dropLast else done ++ [s]
      let names := segments.foldl follow []
      let text := match names with
        | [] => ['/']
        | _ => names.flatMap fun s => '/' :: encode inSegment s
      some ⟨"file://" ++ String.ofList (text ++ tailText false (cs.dropWhile (· ≠ '#')))⟩
  | _ => none

/-- The path of a `file` URL, given the text after its scheme. -/
def filePath (cs : List Char) : List Char :=
  match cs with
  | '/' :: '/' :: rest =>
      if "localhost/".toList.isPrefixOf rest then rest.drop 9 else rest
  | _ => cs

/-- Reads a URL. -/
def parse? (cs : List Char) : Option Url :=
  let cs := dropTailWhile (·.val ≤ 0x20) (cs.dropWhile (·.val ≤ 0x20))
  match splitScheme? cs with
  | some ("file", rest) => ofPath? (decode (filePath rest))
  | some (scheme, rest) =>
      if scheme ∈ schemes then
        (afterScheme? scheme (rest.filter fun c => c ≠ '\t' ∧ c ≠ '\n' ∧ c ≠ '\r')).map fun text =>
          ⟨scheme ++ ":" ++ String.ofList text⟩
      else ofPath? cs
  | none => ofPath? cs

end Url

end PinFloor
