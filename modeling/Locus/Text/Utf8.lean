import Locus.Text.Basic

/-!
Bytes and text. `decode` reads strict UTF-8 and carries each byte that belongs to no character as
the surrogate U+DC00 plus its value; `encode?` takes such surrogates back to their bytes, so no
byte is lost. A text with any other surrogate has no bytes, and `encode` then spells every
surrogate of it in the three bytes of its number.
-/

namespace Locus.Utf8

/-! ### Decoding -/

/-- A byte that continues a character. -/
def isContinuation (b : UInt8) : Bool := 0x80 ≤ b.toNat && b.toNat < 0xC0

/-- The six bits that a continuation byte carries. -/
def low (b : UInt8) : Nat := b.toNat % 0x40

/-- The character of two bytes. -/
def two? (a b : UInt8) : Option CodePoint :=
  let n := a.toNat % 0x20 * 0x40 + low b
  if h : 0xC0 ≤ a.toNat ∧ a.toNat < 0xE0 ∧ isContinuation b ∧ 0x80 ≤ n ∧ n < 0x800 then
    some ⟨n, by omega⟩
  else none

/-- The character of three bytes: none for an overlong form or a surrogate. -/
def three? (a b c : UInt8) : Option CodePoint :=
  let n := a.toNat % 0x10 * 0x1000 + low b * 0x40 + low c
  if h : 0xE0 ≤ a.toNat ∧ a.toNat < 0xF0 ∧ isContinuation b ∧ isContinuation c ∧
      0x800 ≤ n ∧ n < 0x10000 ∧ ¬(0xD800 ≤ n ∧ n < 0xE000) then
    some ⟨n, by omega⟩
  else none

/-- The character of four bytes: none for an overlong form or a number beyond the last. -/
def four? (a b c d : UInt8) : Option CodePoint :=
  let n := a.toNat % 0x08 * 0x40000 + low b * 0x1000 + low c * 0x40 + low d
  if h : 0xF0 ≤ a.toNat ∧ a.toNat < 0xF8 ∧ isContinuation b ∧ isContinuation c ∧
      isContinuation d ∧ 0x10000 ≤ n ∧ n < 0x110000 then
    some ⟨n, by omega⟩
  else none

/-- The surrogate that stands for a byte which belongs to no character. -/
def stray (b : UInt8) : CodePoint :=
  ⟨0xDC00 + b.toNat, by have := b.toNat_lt; omega⟩

/-- The character that starts with byte `a` and goes on in `rest`, and how many bytes of `rest` it takes. -/
def front? (a : UInt8) (rest : List UInt8) : Option (CodePoint × Nat) :=
  if a.toNat < 0x80 then some (CodePoint.ofByte a, 0)
  else if a.toNat < 0xE0 then
    match rest with
    | b :: _ => (two? a b).map (·, 1)
    | _ => none
  else if a.toNat < 0xF0 then
    match rest with
    | b :: c :: _ => (three? a b c).map (·, 2)
    | _ => none
  else
    match rest with
    | b :: c :: d :: _ => (four? a b c d).map (·, 3)
    | _ => none

/-- The text of the bytes after the first `skip`. -/
def decodeAfter : Nat → List UInt8 → Text
  | _, [] => []
  | skip + 1, _ :: rest => decodeAfter skip rest
  | 0, a :: rest =>
    match front? a rest with
    | some (c, k) => c :: decodeAfter k rest
    | none => stray a :: decodeAfter 0 rest

/-- The text of a byte sequence. A byte at which no character starts stands alone. -/
def decode (bs : List UInt8) : Text := decodeAfter 0 bs

/-! ### Encoding -/

/-- The bytes that spell the number of a code point, a surrogate included. -/
def bytes (c : CodePoint) : List UInt8 :=
  let n := c.toNat
  if n < 0x80 then [.ofNat n]
  else if n < 0x800 then [.ofNat (0xC0 + n / 0x40), .ofNat (0x80 + n % 0x40)]
  else if n < 0x10000 then
    [.ofNat (0xE0 + n / 0x1000), .ofNat (0x80 + n / 0x40 % 0x40), .ofNat (0x80 + n % 0x40)]
  else
    [.ofNat (0xF0 + n / 0x40000), .ofNat (0x80 + n / 0x1000 % 0x40),
      .ofNat (0x80 + n / 0x40 % 0x40), .ofNat (0x80 + n % 0x40)]

/-- The bytes that decode to a code point: a stray byte for its surrogate, none for the other surrogates. -/
def bytes? (c : CodePoint) : Option (List UInt8) :=
  if 0xDC80 ≤ c.toNat ∧ c.toNat < 0xDD00 then some [.ofNat (c.toNat - 0xDC00)]
  else if c.isSurrogate then none
  else some (bytes c)

/-- The bytes of a text in which every surrogate stands for a byte. -/
def encode? : Text → Option (List UInt8)
  | [] => some []
  | c :: t => do
    let head ← bytes? c
    let tail ← encode? t
    return head ++ tail

/-- The bytes of a text. If it has no proper ones, every surrogate in it is spelled by its number. -/
def encode (t : Text) : List UInt8 := (encode? t).getD (t.flatMap bytes)

example : decode [0x61, 0xC3, 0xA9, 0xFF, 0xED, 0xA0, 0x80] =
    ("aé" : Text) ++ [0xFF, 0xED, 0xA0, 0x80].map stray := by decide

end Locus.Utf8
