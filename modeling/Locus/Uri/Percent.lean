import Locus.Text.Utf8

/-!
Percent escapes. `encode` spells the bytes of a text, the safe ones as they are and the others as a
percent sign with two capital hexadecimal digits. `decode` reads escapes of either case; a percent
sign without two hexadecimal digits stands for itself. Bytes join into characters only where nothing
but ASCII lies between them: a character beyond ASCII that is written out ends the run.
-/

namespace Locus.Percent

/-! ### Escaping -/

/-- The characters that never need an escape in a URI: letters, digits and four marks. -/
def isUnreserved (c : CodePoint) : Bool :=
  c.isLetter || c.isDigit || c ∈ Text.ofString "_.-~"

/-- A byte that is written as it is, given further ASCII characters that are safe. -/
def keeps (safe : Text) (b : UInt8) : Bool :=
  b.toNat < 0x80 && (isUnreserved (CodePoint.ofByte b) || CodePoint.ofByte b ∈ safe)

/-- The escape of a byte. -/
def triplet (b : UInt8) : Text :=
  ['%', CodePoint.upperHex (b.toNat / 16), CodePoint.upperHex (b.toNat % 16)]

/-- The spelling of a byte. -/
def spell (safe : Text) (b : UInt8) : Text :=
  if keeps safe b then [CodePoint.ofByte b] else triplet b

/-- The spelling of a byte sequence. -/
def spellAll (safe : Text) (bs : List UInt8) : Text := bs.flatMap (spell safe)

/-- The spelling of the bytes of a text. -/
def encode (safe : Text) (t : Text) : Text := spellAll safe (Utf8.encode t)

/-! ### Unescaping -/

/-- A piece of an escaped text: a byte, or a character beyond ASCII that is written out. -/
inductive Piece where
  | octet (b : UInt8)
  | wide (c : CodePoint)
deriving DecidableEq

/-- The piece that a single code point stands for. -/
def Piece.ofCodePoint (c : CodePoint) : Piece :=
  if c.isAscii then .octet (.ofNat c.toNat) else .wide c

/-- The byte that two hexadecimal digits denote. -/
def byte? (hi lo : CodePoint) : Option UInt8 := do
  let h ← hi.hexValue?
  let l ← lo.hexValue?
  return .ofNat (16 * h + l)

/-- The pieces of the text after its first `skip` code points. -/
def piecesAfter : Nat → Text → List Piece
  | _, [] => []
  | skip + 1, _ :: t => piecesAfter skip t
  | 0, c :: t =>
    match (if c = '%' then escaped? t else none) with
    | some b => .octet b :: piecesAfter 2 t
    | none => .ofCodePoint c :: piecesAfter 0 t
where
  /-- The byte whose two digits come first. -/
  escaped? : Text → Option UInt8
    | hi :: lo :: _ => byte? hi lo
    | _ => none

/-- The pieces of an escaped text. -/
def pieces (t : Text) : List Piece := piecesAfter 0 t

/-- The bytes before the first wide character, and the text from that character on. -/
def gather : List Piece → List UInt8 × Text
  | [] => ([], [])
  | .octet b :: ps =>
    let (bs, t) := gather ps
    (b :: bs, t)
  | .wide c :: ps =>
    let (bs, t) := gather ps
    ([], c :: (Utf8.decode bs ++ t))

/-- The text of a sequence of pieces, each run of bytes decoded by itself. -/
def assemble (ps : List Piece) : Text :=
  let (bs, t) := gather ps
  Utf8.decode bs ++ t

/-- The text that an escaped text stands for. -/
def decode (t : Text) : Text := assemble (pieces t)

example : decode "%c3%A9%zz%C3é%A9" =
    ("é%zz" : Text) ++ Utf8.stray 0xC3 :: ("é" : Text) ++ [Utf8.stray 0xA9] := by decide

end Locus.Percent
