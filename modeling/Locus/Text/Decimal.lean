import Locus.Fault.Basic

/-!
Decimal numerals. A numeral is a run of ASCII digits, leading zeros allowed. Reading refuses a run
of more than `maxDigits` digits and printing an integer that would need more; the sign is not counted.
-/

namespace Locus.Decimal

/-- The longest run of digits that is read or printed. -/
def maxDigits : Nat := 4300

/-- The number that a run of digits denotes. -/
def value (ds : Text) : Nat := ds.foldl (fun n d => 10 * n + (d.toNat - '0'.toNat)) 0

/-- The shortest run of digits that denotes `n`. -/
def digits (n : Nat) : Text := (Nat.toDigits 10 n).map CodePoint.ofChar

/-- Reads a run of digits within the limit. -/
def read (ds : Text) : Except Fault Nat :=
  if ds.length ≤ maxDigits then .ok (value ds) else .error (.numeralTooLong ds.length)

/-- Prints an integer within the limit, with a sign if it is negative. -/
def print (i : Int) : Except Fault Text :=
  let ds := digits i.natAbs
  if ds.length ≤ maxDigits then .ok (if i < 0 then '-' :: ds else ds) else .error .integerTooLong

end Locus.Decimal
