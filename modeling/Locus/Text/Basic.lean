/-!
Text as a list of code points. A file name taken from a system call may hold bytes that decode to
no character, and those are carried as lone surrogates; so a code point here is any number below
U+110000, and `Char` embeds into it.
-/

namespace Locus

/-- A code point: any number below U+110000, surrogates included. -/
@[ext] structure CodePoint where
  toNat : Nat
  isLt : toNat < 0x110000
deriving DecidableEq

namespace CodePoint

theorem toNat_lt_of_char (c : Char) : c.toNat < 0x110000 := by
  have h := c.valid
  have e : c.val.toNat = c.toNat := rfl
  simp only [UInt32.isValidChar, Nat.isValidChar] at h
  omega

/-- The code point of a character. -/
def ofChar (c : Char) : CodePoint := ⟨c.toNat, toNat_lt_of_char c⟩

instance : Coe Char CodePoint := ⟨ofChar⟩

instance : Inhabited CodePoint := ⟨ofChar 'a'⟩

@[simp] theorem toNat_ofChar (c : Char) : (ofChar c).toNat = c.toNat := rfl

/-- The code point with the number of a byte. -/
def ofByte (b : UInt8) : CodePoint := ⟨b.toNat, Nat.lt_trans b.toNat_lt (by decide)⟩

@[simp] theorem toNat_ofByte (b : UInt8) : (ofByte b).toNat = b.toNat := rfl

/-- The code point numbered `n`, if there is one. -/
def ofNat? (n : Nat) : Option CodePoint :=
  if h : n < 0x110000 then some ⟨n, h⟩ else none

instance : Ord CodePoint := ⟨fun a b => compare a.toNat b.toNat⟩

instance : Hashable CodePoint := ⟨fun c => hash c.toNat⟩

/-! ### Classes -/

/-- The code point of the character `ch`. -/
def is (ch : Char) (c : CodePoint) : Bool := c = ch

/-- Between two characters, both included. -/
def isBetween (c : CodePoint) (lo hi : Char) : Bool := lo.toNat ≤ c.toNat && c.toNat ≤ hi.toNat

/-- Below U+0080. -/
def isAscii (c : CodePoint) : Bool := c.toNat < 0x80

/-- One of the ten ASCII digits. -/
def isDigit (c : CodePoint) : Bool := c.isBetween '0' '9'

/-- One of the ASCII letters. -/
def isLetter (c : CodePoint) : Bool := c.isBetween 'a' 'z' || c.isBetween 'A' 'Z'

/-- An ASCII hexadecimal digit, of either case. -/
def isHexDigit (c : CodePoint) : Bool := isDigit c || c.isBetween 'a' 'f' || c.isBetween 'A' 'F'

/-- In the range set aside for surrogates. -/
def isSurrogate (c : CodePoint) : Bool := 0xD800 ≤ c.toNat && c.toNat < 0xE000

/-- ASCII capitals become small; all else stays. -/
def toLower (c : CodePoint) : CodePoint :=
  if h : c.isBetween 'A' 'Z' then
    ⟨c.toNat + 32, by
      have hi : c.toNat ≤ 90 := by
        have := h
        simp only [isBetween, Bool.and_eq_true, decide_eq_true_eq] at this
        exact this.2
      omega⟩
  else c

/-! ### Hexadecimal digits -/

/-- The value of a hexadecimal digit, of either case. -/
def hexValue? (c : CodePoint) : Option Nat :=
  if isDigit c then some (c.toNat - '0'.toNat)
  else if c.isBetween 'a' 'f' then some (c.toNat - 'a'.toNat + 10)
  else if c.isBetween 'A' 'F' then some (c.toNat - 'A'.toNat + 10)
  else none

/-- The capital hexadecimal digit of a number below sixteen. -/
def upperHex (n : Nat) : CodePoint :=
  match n with
  | 0 => '0' | 1 => '1' | 2 => '2' | 3 => '3' | 4 => '4' | 5 => '5' | 6 => '6' | 7 => '7'
  | 8 => '8' | 9 => '9' | 10 => 'A' | 11 => 'B' | 12 => 'C' | 13 => 'D' | 14 => 'E' | _ => 'F'

/-- The small hexadecimal digit of a number below sixteen. -/
def lowerHex (n : Nat) : CodePoint := (upperHex n).toLower

end CodePoint

/-- A text: any sequence of code points. Its order is that of its code points, first difference first. -/
abbrev Text := List CodePoint

namespace Text

/-- The text of a string. -/
def ofString (s : String) : Text := s.toList.map CodePoint.ofChar

instance : Coe String Text := ⟨ofString⟩

/-- The pieces between separators that are not empty. -/
def words (isSep : CodePoint → Bool) (t : Text) : List Text :=
  (t.splitOnP isSep).filter (· ≠ [])

/-- The text before the first code point of the class, and the text after it if there is one. -/
def cut (isSep : CodePoint → Bool) (t : Text) : Text × Option Text :=
  (t.takeWhile (!isSep ·), (t.dropWhile (!isSep ·)).tail?)

/-- The text after the last `sep`, or all of it if there is none. -/
def afterLast (sep : CodePoint) (t : Text) : Text :=
  (t.reverse.takeWhile (· ≠ sep)).reverse

end Text

end Locus
