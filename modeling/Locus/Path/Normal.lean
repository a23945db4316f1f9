import Locus.Path.Style
import Locus.Path.Posix
import Locus.Path.Windows

/-!
The normal form of a path in each style. No file system is asked; the empty path stays empty.
-/

namespace Locus.Path

/-- The normal form of a path. -/
def normal (style : PathStyle) (p : Text) : Text :=
  match p, style with
  | [], _ => []
  | p, .posix => Posix.normal p
  | p, .windows => Windows.normal p

end Locus.Path
