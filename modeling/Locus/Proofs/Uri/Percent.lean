import Locus.Proofs.Text.Utf8
import Locus.Uri.Percent

/-!
Escaping and unescaping. A text spells bytes when it gives exactly these, whatever follows it;
spellings join, and every byte is spelled by its spelling as long as the percent sign itself is
escaped. So a text that spells bytes is decoded by decoding the bytes.
-/

namespace Locus.CodePoint

theorem hexValue?_upperHex {n : Nat} (h : n < 16) : (upperHex n).hexValue? = some n := by
  have hall : ∀ m < 16, (upperHex m).hexValue? = some m := by decide
  exact hall n h

end Locus.CodePoint

namespace Locus.Percent

variable {s t safe : Text} {c : CodePoint} {b : UInt8} {bs xs ys : List UInt8}

/-! ### Pieces -/

theorem pieces_cons_of_ne (h : c ≠ '%') (t : Text) :
    pieces (c :: t) = .ofCodePoint c :: pieces t := by
  rw [pieces, piecesAfter, if_neg h]
  rfl

theorem pieces_escape {hi lo : CodePoint} (h : byte? hi lo = some b) (t : Text) :
    pieces ('%' :: hi :: lo :: t) = .octet b :: pieces t := by
  rw [pieces, piecesAfter, if_pos rfl, piecesAfter.escaped?, h]
  rfl

/-! ### Spellings -/

/-- The text gives these bytes, whatever follows it. -/
def Spells (t : Text) (bs : List UInt8) : Prop :=
  ∀ rest, pieces (t ++ rest) = bs.map .octet ++ pieces rest

theorem spells_nil : Spells [] [] := by
  intro rest
  rfl

theorem Spells.append (hs : Spells s xs) (ht : Spells t ys) : Spells (s ++ t) (xs ++ ys) := by
  intro rest
  rw [List.append_assoc, hs, ht, List.map_append, List.append_assoc]

theorem spells_ofByte (hb : b.toNat < 0x80) (h : CodePoint.ofByte b ≠ '%') :
    Spells [CodePoint.ofByte b] [b] := by
  intro rest
  have hascii : (CodePoint.ofByte b).isAscii := decide_eq_true_eq.mpr hb
  rw [List.singleton_append, pieces_cons_of_ne h, Piece.ofCodePoint, if_pos hascii,
    CodePoint.toNat_ofByte, UInt8.ofNat_toNat]
  rfl

theorem byte?_upperHex (b : UInt8) :
    byte? (CodePoint.upperHex (b.toNat / 16)) (CodePoint.upperHex (b.toNat % 16)) = some b := by
  have hb := b.toNat_lt
  rw [byte?, CodePoint.hexValue?_upperHex (by omega), CodePoint.hexValue?_upperHex (by omega)]
  exact congrArg some (Utf8.ofNat_eq (Nat.div_add_mod b.toNat 16).symm)

theorem spells_triplet (b : UInt8) : Spells (triplet b) [b] := by
  intro rest
  exact pieces_escape (byte?_upperHex b) rest

theorem keeps_iff : keeps safe b ↔
    b.toNat < 0x80 ∧ (isUnreserved (.ofByte b) ∨ CodePoint.ofByte b ∈ safe) := by
  rw [keeps, Bool.and_eq_true, Bool.or_eq_true, decide_eq_true_eq, decide_eq_true_eq]

theorem spells_spell (hsafe : CodePoint.ofChar '%' ∉ safe) (b : UInt8) :
    Spells (spell safe b) [b] := by
  unfold spell
  split
  · next h =>
    obtain ⟨hb, hkeep⟩ := keeps_iff.mp h
    refine spells_ofByte hb ?_
    rintro he
    rw [he] at hkeep
    rcases hkeep with hmark | hmem
    · exact absurd hmark (by decide)
    · exact hsafe hmem
  · exact spells_triplet b

theorem spellAll_append (xs ys : List UInt8) :
    spellAll safe (xs ++ ys) = spellAll safe xs ++ spellAll safe ys := List.flatMap_append

/-- A spelling of bytes gives these bytes, if it writes no percent sign out. -/
theorem spells_spellAll (hsafe : CodePoint.ofChar '%' ∉ safe) (bs : List UInt8) :
    Spells (spellAll safe bs) bs := by
  induction bs with
  | nil => exact spells_nil
  | cons b bs ih => exact (spells_spell hsafe b).append ih

/-! ### Decoding -/

theorem gather_octets (bs : List UInt8) : gather (bs.map .octet) = (bs, []) := by
  induction bs with
  | nil => rfl
  | cons b bs ih => rw [List.map_cons, gather, ih]

theorem Spells.decode_eq (h : Spells t bs) : decode t = Utf8.decode bs := by
  have hp : pieces t = bs.map .octet := by
    rw [← List.append_nil t, h []]
    exact List.append_nil _
  rw [decode, hp, assemble, gather_octets]
  exact List.append_nil _

/-- The escaped bytes decode to what the bytes decode to. -/
theorem decode_spellAll (hsafe : CodePoint.ofChar '%' ∉ safe) (bs : List UInt8) :
    decode (spellAll safe bs) = Utf8.decode bs :=
  (spells_spellAll hsafe bs).decode_eq

/-- Each byte can be read off a spelling, whatever characters are safe in it. -/
theorem spellAll_inj (hsafe : CodePoint.ofChar '%' ∉ safe) :
    spellAll safe xs = spellAll safe ys ↔ xs = ys := by
  constructor
  · intro h
    have hdecode : Utf8.decode xs = Utf8.decode ys := by
      rw [← decode_spellAll hsafe xs, h, decode_spellAll hsafe ys]
    rw [← Utf8.encode_decode xs, hdecode, Utf8.encode_decode]
  · exact congrArg (spellAll safe)

theorem spellAll_eq_nil_iff (hsafe : CodePoint.ofChar '%' ∉ safe) :
    spellAll safe bs = [] ↔ bs = [] := by
  rw [← spellAll_inj hsafe]
  rfl

/-- A text of bytes is what its escaping decodes to. -/
theorem decode_encode (hsafe : CodePoint.ofChar '%' ∉ safe) (h : Utf8.OfBytes t) :
    decode (encode safe t) = t := by
  rw [encode, decode_spellAll hsafe, h.decode_encode]

theorem encode_inj (hsafe : CodePoint.ofChar '%' ∉ safe) (hs : Utf8.OfBytes s)
    (ht : Utf8.OfBytes t) : encode safe s = encode safe t ↔ s = t := by
  constructor
  · intro h
    rw [← decode_encode hsafe hs, h, decode_encode hsafe ht]
  · rintro rfl
    rfl

end Locus.Percent
