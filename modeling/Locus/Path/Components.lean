import Locus.Text.Basic

/-!
The components of a path and the walk they describe. Empty pieces and `.` go nowhere; a name goes
down; `..` takes back the name before it. At the start of a rooted path `..` goes nowhere either, and
at the start of a relative one it stays.
-/

namespace Locus.Path

/-- The component that stays where it is. -/
def here : Text := "."

/-- The component that goes one level up. -/
def up : Text := ".."

/-- The pieces between separators that go somewhere. -/
def components (isSep : CodePoint → Bool) (t : Text) : List Text :=
  (t.splitOnP isSep).filter fun p => p ≠ [] ∧ p ≠ here

/-- What is left of the components kept so far, the latest first, after one more. -/
def step (rooted : Bool) : List Text → Text → List Text
  | kept, c =>
    if c = up then
      match kept with
      | [] => if rooted then [] else [up]
      | last :: earlier => if last = up then up :: kept else earlier
    else c :: kept

/-- The components that remain when each `..` is taken as far as it goes. -/
def resolve (rooted : Bool) (cs : List Text) : List Text :=
  (cs.foldl (step rooted) []).reverse

end Locus.Path
