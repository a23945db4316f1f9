import Locus.Text.Decimal
import Locus.Text.Quoted

/-!
The wording of faults, in one place.
-/

namespace Locus

/-- What is wrong, the text it is about, and the hint on a line of its own if there is one. -/
def SpanFault.render (f : SpanFault) : Text :=
  let base := f.message ++ ": " ++ f.text.quoted
  match f.hint with
  | none | some [] => base
  | some hint => base ++ "\nhint: " ++ hint

/-- A text that spells no span. -/
def SpanFault.ofText (t : Text) : SpanFault where
  text := t
  message := "not a source span"
  hint := some (Text.ofString "expected FILE:LINE:COL[-COL] or FILE:(LINE,COL)-(LINE,COL)")

/-- The name by which a marker is called. -/
def Marker.name : Marker → Text
  | .char => "char()"
  | .upTo => "split_on()"

/-- The sign of a joint. -/
def Joint.sign : Joint → Text
  | .either => "|"
  | .keepRight => ">>"
  | .keepLeft => "<<"

/-- The name of an operand's class. -/
def OperandKind.name : OperandKind → Text
  | .reader => "ReadP"
  | .text => "str"
  | .int => "int"
  | .null => "NoneType"
  | .list => "list"

/-- The sign of an order relation. -/
def Relation.sign : Relation → Text
  | .lt => "<"
  | .le => "<="
  | .gt => ">"
  | .ge => ">="

/-- The name of a class of values, as it is displayed. -/
def Kind.name : Kind → Text
  | .position => "Position"
  | .range => "Range"
  | .location => "Location"
  | .loc => "SourceLoc"
  | .span => "SourceSpan"
  | .uri => "Uri"
  | .canonicalUri => "NormalizedUri"
  | .file => "NormalizedFilePath"

/-- Two names, each between apostrophes, joined by "and". -/
def bothNames (left right : Text) : Text := "'" ++ left ++ "' and '" ++ right ++ "'"

/-- The text of a fault. -/
def Fault.message : Fault → Text
  | .unknownStyle name => name.quoted ++ " is not a valid PathConvention"
  | .numeralTooLong n =>
    "Exceeds the limit (" ++ Decimal.digits Decimal.maxDigits ++
      " digits) for integer string conversion: value has " ++ Decimal.digits n ++
      " digits; use sys.set_int_max_str_digits() to increase the limit"
  | .integerTooLong =>
    "Exceeds the limit (" ++ Decimal.digits Decimal.maxDigits ++
      " digits) for integer string conversion; use sys.set_int_max_str_digits() to increase the limit"
  | .notSpan f => f.render
  | .notSingle marker t => marker.name ++ " expects a single character, got " ++ t.quoted
  | .operands joint left right =>
    "unsupported operand type(s) for " ++ joint.sign ++ ": " ++ bothNames left.name right.name
  | .unordered relation left right =>
    "'" ++ relation.sign ++ "' not supported between instances of " ++ bothNames left.name right.name

end Locus
