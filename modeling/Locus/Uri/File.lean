import Locus.Path.Normal
import Locus.Uri.Split

/-!
File URIs. A path goes into the path of a URI segment by segment, with no authority; a Windows path
goes in after one more slash, its drive as it is. Coming back, an authority becomes the two separators
and the server that a path can open with.
-/

namespace Locus.Uri

/-- The scheme of file URIs. -/
def fileScheme : Text := "file"

/-- What stands before the path in a file URI without authority. -/
def filePrefix : Text := fileScheme ++ "://"

/-! ### From a path -/

/-- The path of a POSIX path's URI: its leading slashes, then its segments, each escaped. -/
def posixPath (p : Text) : Text :=
  let slashes := p.takeWhile Path.Posix.isSlash
  let segments := Text.words Path.Posix.isSlash (p.dropWhile Path.Posix.isSlash)
  slashes ++ List.intercalate "/" (segments.map (Percent.encode "/"))

/-- The path of a Windows path's URI: a slash, its drive, a slash if it is rooted, then its segments. -/
def windowsPath (p : Text) : Text :=
  let (drive, rest) := Path.Windows.cutDrive p
  let root : Text := if Path.Windows.isRooted rest then "/" else []
  let segments := Text.words Path.Windows.isSep rest
  "/" ++ drive ++ root ++ List.intercalate "/" (segments.map (Percent.encode ":\\/"))

/-- The URI of a path that is taken to be in normal form. -/
def ofPath (c : PathStyle) (p : Text) : CanonicalUri :=
  let path := match c with
    | .posix => posixPath p
    | .windows => windowsPath p
  (Uri.mk (filePrefix ++ path)).canonical

/-! ### To a path -/

/-- Why a URI names no file. -/
inductive Rejection where
  | cannotSplit (error : SplitError)
  | notFile
deriving DecidableEq

/-- Slashes become backslashes. -/
def Parts.windowsFile (parts : Parts) : Text :=
  let path := Percent.decode parts.path
  let path := if path.head?.any (CodePoint.is '/') then path.tail else path
  let path := if parts.authority = [] then path
    else "//" ++ Percent.decode parts.authority ++ "/" ++ path
  Path.Windows.backslashed path

/-- The path after the authority, if there is one. -/
def Parts.posixFile (parts : Parts) : Text :=
  let path := Percent.decode parts.path
  if parts.authority = [] then path
  else "//" ++ Percent.decode parts.authority ++ path

/-- The path that a file URI names. -/
def toPath (c : PathStyle) (u : Uri) : Except Rejection Text :=
  match u.split with
  | .error e => .error (.cannotSplit e)
  | .ok parts =>
    if parts.scheme = fileScheme then
      match c with
      | .posix => .ok parts.posixFile
      | .windows => .ok parts.windowsFile
    else .error .notFile

end Locus.Uri
