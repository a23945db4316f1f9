import Locus.Text.Printable

/-!
Quoted text. A text is written between apostrophes, or between quotation marks if it holds an
apostrophe and no quotation mark; the backslash, the delimiter and whatever does not print are escaped.
-/

namespace Locus.Text

/-- The last `width` hexadecimal digits of `n`, small letters. -/
def hexDigits : Nat → Nat → Text
  | 0, _ => []
  | width + 1, n => hexDigits width (n / 16) ++ [CodePoint.lowerHex (n % 16)]

/-- How a code point is written by its number, with two, four or eight digits. -/
def numbered (c : CodePoint) : Text :=
  if c.toNat < 0x100 then '\\' :: 'x' :: hexDigits 2 c.toNat
  else if c.toNat < 0x10000 then '\\' :: 'u' :: hexDigits 4 c.toNat
  else '\\' :: 'U' :: hexDigits 8 c.toNat

/-- How a code point is written between delimiters. -/
def escaped (delimiter c : CodePoint) : Text :=
  if c = delimiter ∨ c = '\\' then ['\\', c]
  else if c = '\t' then ['\\', 't']
  else if c = '\n' then ['\\', 'n']
  else if c = '\r' then ['\\', 'r']
  else if c.isPrintable then [c]
  else numbered c

/-- The quotation mark if only that spares an escape, else the apostrophe. -/
def delimiter (t : Text) : CodePoint :=
  if (CodePoint.ofChar '\'') ∈ t ∧ (CodePoint.ofChar '"') ∉ t then '"' else '\''

/-- The text between delimiters, with escapes where needed. -/
def quoted (t : Text) : Text :=
  delimiter t :: t.flatMap (escaped (delimiter t)) ++ [delimiter t]

example : quoted "it's\t\x7f" = ("\"it's\\t\\x7f\"" : Text) := by decide

end Locus.Text
