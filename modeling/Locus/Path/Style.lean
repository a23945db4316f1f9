import Locus.Fault.Basic

/-!
The two styles of paths, and how one is chosen: by name, or else the host's own.
-/

namespace Locus

/-- Which rules a path follows. -/
inductive PathStyle where
  | posix
  | windows
deriving DecidableEq

namespace PathStyle

/-- The name of a style. -/
def name : PathStyle → Text
  | .posix => "posix"
  | .windows => "windows"

/-- The style with a name. -/
def ofName? (t : Text) : Option PathStyle := [posix, windows].find? (·.name = t)

/-- The style of a host that calls its operating system `system`. -/
def ofSystem (system : Text) : PathStyle := if system = "nt" then windows else posix

/-- The style that was asked for, or the host's if none was. -/
def choose (host : PathStyle) : Option Text → Except Fault PathStyle
  | none => .ok host
  | some t =>
    match ofName? t with
    | some c => .ok c
    | none => .error (.unknownStyle t)

theorem ofName?_name (c : PathStyle) : ofName? c.name = some c := by cases c <;> rfl

end PathStyle

end Locus
