import Locus.Request

/-!
Diagnostics: where a line of compiler output points, in the terms of an editor.
-/

namespace Locus

/-- The file and the range that a line of compiler output points to. -/
structure Diagnostic where
  file : FileId
  range : Range

namespace Diagnostic

/-- Where a line points. A line without a span belongs to no file. -/
def locate (choice : Choice) (line : Text) : Noted Diagnostic := do
  let span ← Request.readSpan line
  let file ← Request.identify choice ((span.map (·.file)).getD FileId.unknownPath)
  return ⟨file, Span.toRange span⟩

/-- Both ends of the range as they are shown. -/
def display (d : Diagnostic) : Except Fault (Text × Text) := do
  let start ← d.range.start.display
  let stop ← d.range.stop.display
  return (start, stop)

end Diagnostic

end Locus
