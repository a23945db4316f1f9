import Locus.Fault.Message
import Locus.File.Identity
import Locus.Span.Basic

/-!
Displaying and comparing values. Positions, locs and files are ordered, each among their own kind;
values of two kinds are never equal and never ordered.
-/

namespace Locus

/-- A value of one of the public classes. -/
inductive Item where
  | position (p : Position)
  | range (r : Range)
  | location (l : Location)
  | loc (l : Loc)
  | span (s : Span)
  | uri (u : Uri)
  | canonicalUri (u : CanonicalUri)
  | file (n : FileId)

/-! ### Written forms -/

/-- A record: the class, and each field with its written value. -/
def record (kind : Kind) (fields : List (String × Text)) : Text :=
  let written := fields.map fun (name, value) => Text.ofString name ++ "=" ++ value
  kind.name ++ "(" ++ List.intercalate (Text.ofString ", ") written ++ ")"

/-- A position in writing. -/
def Position.written (p : Position) : Except Fault Text := do
  let line ← Decimal.print p.line
  let character ← Decimal.print p.character
  return record .position [("line", line), ("character", character)]

/-- A range in writing. -/
def Range.written (r : Range) : Except Fault Text := do
  let start ← r.start.written
  let stop ← r.stop.written
  return record .range [("start", start), ("end", stop)]

/-- A loc in writing. -/
def Loc.written (l : Loc) : Except Fault Text := do
  let line ← Decimal.print l.line
  let column ← Decimal.print l.column
  return record .loc [("line", line), ("column", column)]

/-- A span in writing. -/
def Span.written (s : Span) : Except Fault Text := do
  let start ← s.start.written
  let stop ← s.stop.written
  return record .span [("file", s.file.quoted), ("start", start), ("end", stop)]

/-- A URI in writing. -/
def Uri.written (u : Uri) : Text := record .uri [("text", u.text.quoted)]

/-- A location in writing. -/
def Location.written (l : Location) : Except Fault Text := do
  let range ← l.range.written
  return record .location [("uri", l.uri.written), ("range", range)]

namespace Item

/-- The class of a value. -/
def kind : Item → Kind
  | .position _ => .position
  | .range _ => .range
  | .location _ => .location
  | .loc _ => .loc
  | .span _ => .span
  | .uri _ => .uri
  | .canonicalUri _ => .canonicalUri
  | .file _ => .file

/-- A value in writing. A file shows its path only, a canonical URI its text only. -/
def written : Item → Except Fault Text
  | .position p => p.written
  | .range r => r.written
  | .location l => l.written
  | .loc l => l.written
  | .span s => s.written
  | .uri u => .ok u.written
  | .canonicalUri u => .ok (record .canonicalUri [("text", u.text.quoted)])
  | .file n => .ok (Kind.file.name ++ "(" ++ n.path.quoted ++ ")")

/-- A value as text: a URI is its own text. -/
def text : Item → Except Fault Text
  | .uri u => .ok u.text
  | .canonicalUri u => .ok u.text
  | i => i.written

/-! ### Equality and order -/

/-- Equality within a class: of canonical URIs by their texts, of files by their paths. -/
def same : Item → Item → Bool
  | .position a, .position b => a = b
  | .range a, .range b => a = b
  | .location a, .location b => a = b
  | .loc a, .loc b => a = b
  | .span a, .span b => a = b
  | .uri a, .uri b => a = b
  | .canonicalUri a, .canonicalUri b => a == b
  | .file a, .file b => a == b
  | _, _ => false

/-- The hashes of two equal values are taken from the same data. -/
def sameHash : Item → Item → Bool
  | .canonicalUri a, .canonicalUri b => a.hashKey = b.hashKey
  | .file a, .file b => a.hashKey = b.hashKey
  | a, b => a.same b

/-- The order of two values, where they have one. -/
def order? : Item → Item → Option Ordering
  | .position a, .position b => some (compare a b)
  | .loc a, .loc b => some (compare a b)
  | .file a, .file b => some (compare a b)
  | _, _ => none

/-- Whether the values stand in the relation. -/
def related (r : Relation) (a b : Item) : Except Fault Bool :=
  match a.order? b with
  | none => .error (.unordered r a.kind b.kind)
  | some o => .ok <| match r with
    | .lt => o.isLT
    | .le => o.isLE
    | .gt => o.isGT
    | .ge => o.isGE

/-- Neighbours have an order; if two have none, the fault names the later one first. -/
def checkOrdered : List Item → Except Fault Unit
  | a :: b :: is => do
    let _ ← related .lt b a
    checkOrdered (b :: is)
  | _ => .ok ()

/-- The values in ascending order; equal values keep their places. -/
def sort (is : List Item) : Except Fault (List Item) := do
  checkOrdered is
  return is.mergeSort fun a b => (a.order? b).all Ordering.isLE

end Item

end Locus
