import Locus.Proofs.Text.Strays
import Locus.Proofs.Uri.Writing

/-!
Escaping and unescaping as inverses. An escaped text spells bytes, and unescaping gives the text that
these bytes decode to: so a text comes back exactly if some bytes decode to it. Bytes that are all escaped,
in digits of either case, decode to a text that has these bytes, and escaping it spells each of them in
the one way in which it is spelled.
-/

namespace Locus.Percent

open CodePoint (ofChar upperHex)
open Utf8 (OfBytes StraysApart stray)

variable {c : CodePoint} {b : UInt8} {bs : List UInt8} {e safe t : Text}

/-! ### The spelling of bytes -/

/-- An ASCII character that is written as it is: an unreserved one or a safe one. -/
def IsPlain (safe : Text) (c : CodePoint) : Prop :=
  c.isAscii ∧ (isUnreserved c ∨ c ∈ safe)

/-- The text writes the bytes one after the other, those of plain characters as these and each other one
as a percent sign with two capital digits. -/
inductive IsSpelling (safe : Text) : List UInt8 → Text → Prop where
  | nil : IsSpelling safe [] []
  | plain {c : CodePoint} {bs : List UInt8} {t : Text} :
      IsPlain safe c → IsSpelling safe bs t → IsSpelling safe (.ofNat c.toNat :: bs) (c :: t)
  | escaped {b : UInt8} {bs : List UInt8} {t : Text} :
      ¬IsPlain safe (.ofByte b) → IsSpelling safe bs t →
      IsSpelling safe (b :: bs) ('%' :: upperHex (b.toNat / 16) :: upperHex (b.toNat % 16) :: t)

theorem keeps_iff_isPlain : keeps safe b ↔ IsPlain safe (.ofByte b) := by
  rw [keeps_iff, IsPlain, CodePoint.isAscii, decide_eq_true_eq, CodePoint.toNat_ofByte]

theorem spell_of_isPlain (h : IsPlain safe (.ofByte b)) : spell safe b = [.ofByte b] :=
  if_pos (keeps_iff_isPlain.mpr h)

theorem spell_of_not_isPlain (h : ¬IsPlain safe (.ofByte b)) : spell safe b = triplet b :=
  if_neg (mt keeps_iff_isPlain.mp h)

theorem isSpelling_iff : IsSpelling safe bs t ↔ t = spellAll safe bs := by
  constructor
  · intro h
    induction h with
    | nil => rfl
    | @plain c bs t hc _ ih =>
      have hback := Utf8.ofByte_ofNat hc.1
      rw [spellAll, List.flatMap_cons, spell_of_isPlain (hback.symm ▸ hc), hback, ih]
      rfl
    | escaped hb _ ih =>
      rw [spellAll, List.flatMap_cons, spell_of_not_isPlain hb, ih]
      rfl
  · rintro rfl
    induction bs with
    | nil => exact .nil
    | cons b bs ih =>
      rw [spellAll, List.flatMap_cons]
      by_cases hb : IsPlain safe (.ofByte b)
      · rw [spell_of_isPlain hb]
        have := IsSpelling.plain hb ih
        rwa [CodePoint.toNat_ofByte, UInt8.ofNat_toNat] at this
      · rw [spell_of_not_isPlain hb]
        exact .escaped hb ih

/-! ### There and back -/

theorem decode_encode_eq_decode (hsafe : ofChar '%' ∉ safe) (t : Text) :
    decode (encode safe t) = Utf8.decode (Utf8.encode t) := decode_spellAll hsafe _

theorem Escapes.encode_decode (h : Escapes bs e) : Utf8.encode (decode e) = bs := by
  rw [h.spells.decode_eq, Utf8.encode_decode]

/-- A text comes back from its escaping if and only if some bytes decode to it, so if surrogates in it
stand for bytes and bytes that stand alone make no character, and always if it has no surrogates. Bytes
that are all escaped come back, whatever they decode to, in the one spelling that they have. -/
theorem decode_encode_eq_self_iff (hsafe : ofChar '%' ∉ safe) :
    (∀ t, (decode (encode safe t) = t ↔ OfBytes t) ∧ (OfBytes t ↔ StraysApart t) ∧
        ((∀ c ∈ t, ¬c.isSurrogate) → decode (encode safe t) = t)) ∧
      ∀ bs e, Escapes bs e →
        Utf8.encode (decode e) = bs ∧ ∀ r, IsSpelling safe bs r ↔ r = encode safe (decode e) := by
  refine ⟨?_, ?_⟩
  · intro t
    have hiff : decode (encode safe t) = t ↔ OfBytes t := by
      constructor
      · intro h
        exact ⟨Utf8.encode t, (decode_encode_eq_decode hsafe t).symm.trans h⟩
      · exact decode_encode hsafe
    refine ⟨hiff, Utf8.ofBytes_iff_straysApart, ?_⟩
    intro ht
    exact hiff.mpr (Utf8.ofBytes_of_forall_not_isSurrogate ht)
  · intro bs e he
    refine ⟨he.encode_decode, ?_⟩
    intro r
    rw [isSpelling_iff, encode, he.encode_decode]

/-- A stray byte comes back, and what looks like an escape as well; two strays that make a character do
not. Among escapes the slash is written out again, and the percent sign is not. -/
theorem decode_encode_eq_self_iff_of_strays :
    ofChar '%' ∉ ("/" : Text) ∧
      decode (encode "/" ("é%41/" ++ [stray 0xC3])) = "é%41/" ++ [stray 0xC3] ∧
      decode (encode "/" [stray 0xC3, stray 0xA9]) ≠ [stray 0xC3, stray 0xA9] ∧
      IsSpelling "/" [0x2F, 0xC3, 0x25] (encode "/" (decode "%2f%c3%25")) := by
  have hsafe : ofChar '%' ∉ ("/" : Text) := by decide
  obtain ⟨hiff, hbytes⟩ := decode_encode_eq_self_iff hsafe
  refine ⟨hsafe, (hiff _).1.mpr ?_, ?_, ((hbytes _ _ ?_).2 _).mpr rfl⟩
  · exact ⟨[0xC3, 0xA9, 0x25, 0x34, 0x31, 0x2F, 0xC3], by decide⟩
  · intro h
    have hapart := (hiff _).2.1.mp ((hiff _).1.mp h)
    exact hapart.not_infix 'é' (by decide) ⟨[], [], rfl⟩
  · exact .cons (.inr rfl) (.inr rfl) (.cons (.inr rfl) (.inl rfl) (.cons (.inl rfl) (.inl rfl) .nil))

end Locus.Percent
