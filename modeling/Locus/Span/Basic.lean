import Locus.Text.Decimal
import Locus.Uri.Canonical

/-!
Places in a source text. A compiler counts lines and columns from one (`Loc`, `Span`), the protocol of
an editor counts lines and characters from zero (`Position`, `Range`). Both are ordered by line first.
-/

namespace Locus

/-- A position in a document, line and character counted from zero. -/
structure Position where
  line : Int
  character : Int
deriving DecidableEq

/-- A stretch of one document, from `start` up to but not including `stop`. -/
structure Range where
  start : Position
  stop : Position
deriving DecidableEq

/-- A stretch of the document that a URI names. -/
structure Location where
  uri : Uri
  range : Range
deriving DecidableEq

/-- A point in compiler output, line and column counted from one. -/
structure Loc where
  line : Int
  column : Int
deriving DecidableEq

/-- A stretch of a file as a compiler prints it. The file is empty if none was named. -/
structure Span where
  file : Text
  start : Loc
  stop : Loc
deriving DecidableEq

instance : Ord Position := ⟨fun a b => (compare a.line b.line).then (compare a.character b.character)⟩

instance : Ord Loc := ⟨fun a b => (compare a.line b.line).then (compare a.column b.column)⟩

/-- The range of a diagnostic whose place is not known. -/
def Range.unknown : Range := ⟨⟨0, 0⟩, ⟨100000, 0⟩⟩

/-- The line and the character of a position, counted from one. -/
def Position.display (p : Position) : Except Fault Text := do
  let line ← Decimal.print (p.line + 1)
  let character ← Decimal.print (p.character + 1)
  return line ++ ":" ++ character

/-- The position of a point; what lies before the first line or column counts as the first. -/
def Loc.toPosition (l : Loc) : Position := ⟨max (l.line - 1) 0, max (l.column - 1) 0⟩

namespace Span

/-- The range of a span; without a span, the unknown range. -/
def toRange : Option Span → Range
  | none => .unknown
  | some s => ⟨s.start.toPosition, s.stop.toPosition⟩

/-- Starts and ends on one line. -/
def isOnOneLine (s : Span) : Bool := s.start.line = s.stop.line

/-- The line, the column, and the last column if it is another. -/
def printLine (s : Span) : Except Fault Text := do
  let line ← Decimal.print s.start.line
  let column ← Decimal.print s.start.column
  if s.stop.column = s.start.column then return line ++ ":" ++ column
  let last ← Decimal.print s.stop.column
  return line ++ ":" ++ column ++ "-" ++ last

/-- Both points, each in parentheses. -/
def printBlock (s : Span) : Except Fault Text := do
  let line ← Decimal.print s.start.line
  let column ← Decimal.print s.start.column
  let lastLine ← Decimal.print s.stop.line
  let lastColumn ← Decimal.print s.stop.column
  return "(" ++ line ++ "," ++ column ++ ")-(" ++ lastLine ++ "," ++ lastColumn ++ ")"

/-- The span as a compiler prints it, after its file and a colon if it names one. -/
def print (s : Span) : Except Fault Text := do
  let place ← if s.isOnOneLine then s.printLine else s.printBlock
  return if s.file = [] then place else s.file ++ ":" ++ place

end Span

end Locus
