import Locus.Text.Quoted
import Locus.Uri.Address
import Locus.Uri.Canonical

/-!
The parts of a URI: scheme, authority, path, query and fragment. Leading control characters and
blanks are dropped first, and every tab and line end. Splitting fails only on the authority: on its
brackets, or on a character that stands for a delimiter in another form.
-/

namespace Locus.Uri

/-- The parts of a URI. An authority that is missing is empty. -/
structure Parts where
  scheme : Text
  authority : Text
  path : Text
  query : Option Text
  fragment : Option Text
deriving DecidableEq

/-- Why a URI cannot be split. -/
inductive SplitError where
  /-- Only one of the two brackets occurs. -/
  | unpairedBracket
  /-- Something stands between the user and the opening bracket. -/
  | textBeforeBracket
  /-- What follows the closing bracket is no port. -/
  | textAfterBracket
  /-- The host starts with `v` and is no address of the open form. -/
  | badFuture
  /-- A version 4 address is in brackets. -/
  | bracketedVersion4
  /-- The host is no address. -/
  | notAddress (host : Text)
  /-- The authority holds a compatibility form of a delimiter. -/
  | disguisedDelimiter (authority : Text)
deriving DecidableEq

/-- The text of a split error. -/
def SplitError.message : SplitError → Text
  | .unpairedBracket | .textBeforeBracket | .textAfterBracket => "Invalid IPv6 URL"
  | .badFuture => "IPvFuture address is invalid"
  | .bracketedVersion4 => "An IPv4 address cannot be in brackets"
  | .notAddress host => host.quoted ++ " does not appear to be an IPv4 or IPv6 address"
  | .disguisedDelimiter authority =>
    "netloc '" ++ authority ++ "' contains invalid characters under NFKC normalization"

/-! ### Checks on the authority -/

/-- The host in brackets must be an address of version 6 or of the open form. -/
def checkHost (host : Text) : Except SplitError Unit :=
  if host.head?.any (CodePoint.is 'v') then
    if Address.isFuture host then .ok () else .error .badFuture
  else if Address.isVersion4 host then .error .bracketedVersion4
  else if Address.isVersion6 host then .ok ()
  else .error (.notAddress host)

/-- The host and port of an authority with brackets: the host lies between them, and a port may follow. -/
def checkHostPort (t : Text) : Except SplitError Unit :=
  match t.cut (CodePoint.is '[') with
  | (_, none) => checkHost (t.cut (CodePoint.is ':')).1
  | (before, some inside) =>
    if before ≠ [] then .error .textBeforeBracket
    else match inside.cut (CodePoint.is ']') with
      | (host, some (c :: _)) => if c = ':' then checkHost host else .error .textAfterBracket
      | (host, _) => checkHost host

/-- Brackets come in pairs and hold an address. -/
def checkBrackets (authority : Text) : Except SplitError Unit :=
  match authority.any (CodePoint.is '['), authority.any (CodePoint.is ']') with
  | false, false => .ok ()
  | true, true => checkHostPort (authority.afterLast '@')
  | _, _ => .error .unpairedBracket

/-- The characters whose compatibility form holds one of the delimiters of a URI. -/
def disguises : List Nat :=
  [0x2047, 0x2048, 0x2049, 0x2100, 0x2101, 0x2105, 0x2106, 0x2A74, 0xFE13, 0xFE16, 0xFE55, 0xFE56,
   0xFE5F, 0xFE6B, 0xFF03, 0xFF0F, 0xFF1A, 0xFF1F, 0xFF20]

/-- No delimiter is hidden in a compatibility form. -/
def checkDisguises (authority : Text) : Except SplitError Unit :=
  if authority.any (fun c => c.toNat ∈ disguises) then .error (.disguisedDelimiter authority)
  else .ok ()

/-! ### Cutting -/

/-- Control characters and the space. -/
def isBlank (c : CodePoint) : Bool := c.toNat ≤ 0x20

/-- Tabs and line ends. -/
def isBreak (c : CodePoint) : Bool := c.is '\t' || c.is '\n' || c.is '\r'

/-- The text without leading blanks and without any tab or line end. -/
def cleaned (t : Text) : Text := (t.dropWhile isBlank).filter (!isBreak ·)

/-- Letters, digits and three marks. -/
def isSchemeCharacter (c : CodePoint) : Bool :=
  c.isLetter || c.isDigit || c ∈ Text.ofString "+.-"

/-- A letter followed by scheme characters. -/
def isScheme (t : Text) : Bool := t.head?.any CodePoint.isLetter && t.all isSchemeCharacter

/-- The scheme in small letters, and the rest; the scheme is empty if there is none. -/
def cutScheme (t : Text) : Text × Text :=
  match t.cut (CodePoint.is ':') with
  | (s, some rest) => if isScheme s then (s.map CodePoint.toLower, rest) else ([], t)
  | _ => ([], t)

/-- Ends an authority. -/
def endsAuthority (c : CodePoint) : Bool := c.is '/' || c.is '?' || c.is '#'

/-- The authority after two slashes, and the rest. -/
def cutAuthority : Text → Text × Text
  | a :: b :: t =>
    if a.is '/' && b.is '/' then (t.takeWhile (!endsAuthority ·), t.dropWhile (!endsAuthority ·))
    else ([], a :: b :: t)
  | t => ([], t)

/-- The parts of a URI. -/
def split (u : Uri) : Except SplitError Parts := do
  let (scheme, t) := cutScheme (cleaned u.text)
  let (authority, t) := cutAuthority t
  checkBrackets authority
  let (t, fragment) := t.cut (CodePoint.is '#')
  let (path, query) := t.cut (CodePoint.is '?')
  checkDisguises authority
  return { scheme, authority, path, query, fragment }

end Locus.Uri
