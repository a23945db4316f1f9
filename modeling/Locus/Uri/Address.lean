import Locus.Text.Decimal

/-!
Network addresses as they stand in brackets: version 4 in dotted decimals, version 6 in groups of
hexadecimal digits, and the open form that starts with `v`.
-/

namespace Locus.Address

/-! ### Version 4 -/

/-- A decimal number up to 255 without leading zeros. -/
def isOctet (t : Text) : Bool :=
  1 ≤ t.length && t.length ≤ 3 && t.all CodePoint.isDigit
    && (t = "0" || !t.head?.any (CodePoint.is '0')) && Decimal.value t ≤ 255

/-- Four octets with points between them. -/
def isVersion4 (t : Text) : Bool :=
  let os := t.splitOnP (CodePoint.is '.')
  os.length = 4 && os.all isOctet

/-! ### Version 6 -/

/-- One to four hexadecimal digits. -/
def isGroup (t : Text) : Bool :=
  1 ≤ t.length && t.length ≤ 4 && t.all CodePoint.isHexDigit

/-- How many groups the fields stand for, if they are groups; the last may be a version 4 address, for two. -/
def groupCount? (last4 : Bool) : List Text → Option Nat
  | [] => some 0
  | [f] =>
    if isGroup f then some 1
    else if last4 && isVersion4 f then some 2
    else none
  | f :: fs => if isGroup f then (groupCount? last4 fs).map (· + 1) else none

/-- The fields between colons: none in the empty text. -/
def fields (t : Text) : List Text := if t = [] then [] else t.splitOnP (CodePoint.is ':')

/-- The text before the first two colons in a row, and the text after them. -/
def cutGap? : Text → Option (Text × Text)
  | [] => none
  | c :: t =>
    if c.is ':' && t.head?.any (CodePoint.is ':') then some ([], t.tail)
    else (cutGap? t).map fun (a, b) => (c :: a, b)

/-- Eight groups, or fewer with one gap for the rest. -/
def isGrouped (t : Text) : Bool :=
  match cutGap? t with
  | none => groupCount? true (fields t) = some 8
  | some (a, b) =>
    match groupCount? false (fields a), groupCount? true (fields b) with
    | some m, some n => m + n ≤ 7
    | _, _ => false

/-- The groups, with a scope after a percent sign if one is given. -/
def isVersion6 (t : Text) : Bool :=
  match t.cut (CodePoint.is '%') with
  | (groups, none) => isGrouped groups
  | (groups, some scope) => scope ≠ [] && !scope.any (CodePoint.is '%') && isGrouped groups

/-! ### The open form -/

/-- The letter `v`, hexadecimal digits, a point, and at least one code point more. -/
def isFuture (t : Text) : Bool :=
  match t.cut (CodePoint.is '.') with
  | (v :: version, some rest) =>
    v = 'v' && version ≠ [] && version.all CodePoint.isHexDigit && rest ≠ []
  | _ => false

example : isVersion6 "1:2::3.4.5.6%eth" = true ∧ isVersion6 "1::2::3" = false ∧
    isVersion6 ":1:2:3:4:5:6:7" = false := by decide

end Locus.Address
