import Locus.Fault.Message
import Locus.Reader.Basic
import Locus.Span.Basic

/-!
Reading spans. A span is `LINE:COL`, `LINE:COL-COL` or `(LINE,COL)-(LINE,COL)`, after a file and a
colon or without; every colon that can open a place may end the file. All readings are kept: those on
one line first, shorter files first, no file last.
-/

namespace Locus.Span

/-! ### Parts -/

/-- A numeral, as long as it goes. -/
def natural : Reader Int :=
  ((Reader.run1 CodePoint.isDigit).tryMap Decimal.read).map fun n => Int.ofNat n

/-- Can open a place: a digit or a parenthesis. -/
def opensPlace (c : CodePoint) : Bool := c.isDigit || c.is '('

/-- A file up to a colon that a place can follow, or no file. -/
def fileName : Reader Text := (Reader.upTo ':' (some opensPlace)).optional []

/-- A file up to any colon, or no file. -/
def anyFileName : Reader Text := (Reader.upTo ':' none).optional []

/-- A line and a column in parentheses. -/
def point : Reader Loc :=
  let inner := (natural.keepLeft (.char ',')).pair natural
  Reader.enclosed (.char '(') (.char ')') (inner.map fun (line, column) => ⟨line, column⟩)

/-! ### Spans -/

/-- A span on one line. Without a last column it ends where it starts. -/
def onLine (file : Reader Text) : Reader Span :=
  let last := ((Reader.char '-').keepRight (natural.map some)).optional none
  (((file.pair (natural.keepLeft (.char ':'))).pair natural).pair last).map
    fun (((file, line), column), last) => ⟨file, ⟨line, column⟩, ⟨line, last.getD column⟩⟩

/-- A span over several lines. -/
def onLines (file : Reader Text) : Reader Span :=
  (((file.pair point).pair (.char '-')).pair point).map
    fun (((file, start), _), stop) => ⟨file, start, stop⟩

/-- A span whose file is read in a given way. -/
def located (file : Reader Text) : Reader Span := (onLine file).either (onLines file)

/-- All the ways in which the text starts with a span, each with what it leaves over. -/
def read (t : Text) : Except Fault (List (Span × Text)) := (located fileName).run t

/-- The span that the whole text spells. -/
def find? (t : Text) : Except Fault (Option Span) := do
  return (Reader.whole (← read t)).head?

/-- The span that the whole text spells; it is a fault if there is none. -/
def parse (t : Text) : Except Fault Span := do
  match ← find? t with
  | some s => return s
  | none => throw (.notSpan (.ofText t))

end Locus.Span
