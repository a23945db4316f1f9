import Locus.Path.Components

/-!
POSIX paths. A path is relative, or it starts at the root `/`, or at the separate root `//` that
exactly two slashes name.
-/

namespace Locus.Path.Posix

/-- Where a path starts. -/
inductive Root where
  | none
  | single
  | double
deriving DecidableEq

/-- The slashes that name a root. -/
def Root.text : Root → Text
  | .none => []
  | .single => "/"
  | .double => "//"

/-- The root that a number of leading slashes names. -/
def Root.ofSlashes : Nat → Root
  | 0 => .none
  | 2 => .double
  | _ => .single

/-- The separator. -/
def isSlash : CodePoint → Bool := CodePoint.is '/'

/-- Where the path starts. -/
def root (p : Text) : Root := .ofSlashes (p.takeWhile isSlash).length

/-- The normal form of a path that is not empty. -/
def normal (p : Text) : Text :=
  let r := root p
  let cs := resolve (r ≠ .none) (components isSlash p)
  match r.text ++ List.intercalate "/" cs with
  | [] => here
  | n => n

end Locus.Path.Posix
