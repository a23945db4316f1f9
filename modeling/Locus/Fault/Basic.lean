import Locus.Text.Basic

/-!
What can go wrong, by cause. Reading a path or a URI never fails; a fault comes from an unknown
path style, from a numeral beyond the digit limit, from a text that spells no span, from a
reader that was put together wrongly, or from ordering values that have no order.
-/

namespace Locus

/-- A text that was to be a span and is none, with what is wrong and an optional hint. -/
structure SpanFault where
  text : Text
  message : Text
  hint : Option Text := none
deriving DecidableEq

/-- The readers that are told a single code point. -/
inductive Marker where
  | char
  | upTo
deriving DecidableEq

/-- The operators that join two readers. -/
inductive Joint where
  | either
  | keepRight
  | keepLeft
deriving DecidableEq

/-- What stands beside a joint: a reader, or a plain value. -/
inductive OperandKind where
  | reader
  | text
  | int
  | null
  | list
deriving DecidableEq

/-- The four order relations. -/
inductive Relation where
  | lt
  | le
  | gt
  | ge
deriving DecidableEq

/-- The classes of values that are displayed and compared. -/
inductive Kind where
  | position
  | range
  | location
  | loc
  | span
  | uri
  | canonicalUri
  | file
deriving DecidableEq

/-- Why a request has no answer. -/
inductive Fault where
  /-- No path style has this name. -/
  | unknownStyle (name : Text)
  /-- A numeral to be read has this many digits, more than the limit. -/
  | numeralTooLong (digits : Nat)
  /-- An integer to be printed has more digits than the limit. -/
  | integerTooLong
  /-- The whole text spells no span. -/
  | notSpan (fault : SpanFault)
  /-- A reader of one code point was told a text of another length. -/
  | notSingle (marker : Marker) (text : Text)
  /-- A joint stands between operands that are not both readers. -/
  | operands (joint : Joint) (left right : OperandKind)
  /-- The relation is not defined between values of these classes. -/
  | unordered (relation : Relation) (left right : Kind)
deriving DecidableEq

end Locus
