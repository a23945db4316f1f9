import Locus.Proofs.Uri.Percent
import Locus.Uri.Canonical

/-!
The canonical spelling of URIs. A text is canonical when it is made of tokens, each a character that
stays written out or the one escape of a byte that has no such character. These are exactly the
spellings of bytes, and a spelling decodes to what its bytes decode to, of which no byte is lost;
so the canonical texts are the fixed points, and making a text canonical reaches one at once. The text
that is hashed spells the same bytes with fewer characters written out, so it tells apart what the
canonical text tells apart.
-/

namespace Locus

theorem uri_beq_iff {u v : CanonicalUri} : u == v ↔ u.text = v.text :=
  beq_iff_eq (a := u.text)

namespace Uri

variable {t : Text} {c hi lo : CodePoint} {b : UInt8} {bs : List UInt8}

/-! ### Tokens -/

/-- The characters that stay written out: letters, digits and marks. -/
def staysPlain (c : CodePoint) : Bool :=
  c.isLetter || c.isDigit || c ∈ Text.ofString "_.-~/:@!$&'()*+,;="

/-- A hexadecimal digit that is no small letter. -/
def isCapitalHex (c : CodePoint) : Bool := c.isDigit || c.isBetween 'A' 'F'

/-- A character that stays written out, or the escape in capitals of a byte that does not. -/
inductive IsToken : Text → Prop where
  | plain {c : CodePoint} : staysPlain c → IsToken [c]
  | escape {hi lo : CodePoint} {b : UInt8} : isCapitalHex hi → isCapitalHex lo →
      Percent.byte? hi lo = some b → ¬staysPlain (.ofByte b) → IsToken ['%', hi, lo]

/-- A sequence of tokens. -/
def IsCanonical (t : Text) : Prop :=
  ∃ tokens : List Text, (∀ k ∈ tokens, IsToken k) ∧ t = tokens.flatten

/-! ### Tokens are the spellings of bytes -/

theorem staysPlain_iff : staysPlain c ↔ Percent.isUnreserved c ∨ c ∈ pathSafe := by
  have hmarks : Text.ofString "_.-~/:@!$&'()*+,;=" = Text.ofString "_.-~" ++ pathSafe := by decide
  rw [staysPlain, hmarks, Percent.isUnreserved]
  simp only [Bool.or_eq_true, decide_eq_true_eq, List.mem_append, or_assoc]

theorem isAscii_of_staysPlain (h : staysPlain c) : c.isAscii := by
  have hmarks : ∀ d ∈ Text.ofString "_.-~/:@!$&'()*+,;=", d.isAscii := by decide
  rw [staysPlain, Bool.or_eq_true, Bool.or_eq_true, decide_eq_true_eq] at h
  rcases h with (hletter | hdigit) | hmem
  · simp only [CodePoint.isLetter, CodePoint.isBetween, Bool.or_eq_true, Bool.and_eq_true,
      decide_eq_true_eq] at hletter
    have hz : 'z'.toNat = 0x7A := rfl
    have hZ : 'Z'.toNat = 0x5A := rfl
    exact decide_eq_true_eq.mpr (by omega)
  · simp only [CodePoint.isDigit, CodePoint.isBetween, Bool.and_eq_true,
      decide_eq_true_eq] at hdigit
    have h9 : '9'.toNat = 0x39 := rfl
    exact decide_eq_true_eq.mpr (by omega)
  · exact hmarks c hmem

theorem keeps_pathSafe_iff : Percent.keeps pathSafe b ↔ staysPlain (.ofByte b) := by
  rw [Percent.keeps_iff, ← staysPlain_iff]
  constructor
  · rintro ⟨-, h⟩
    exact h
  · intro h
    exact ⟨decide_eq_true_eq.mp (isAscii_of_staysPlain h), h⟩

theorem isCapitalHex_upperHex {n : Nat} (h : n < 16) : isCapitalHex (.upperHex n) := by
  have hall : ∀ m < 16, isCapitalHex (.upperHex m) := by decide
  exact hall n h

theorem exists_upperHex (h : isCapitalHex c) : ∃ n < 16, c = .upperHex n := by
  have hnat : ∀ m < 16, (CodePoint.upperHex m).toNat = if m < 10 then 0x30 + m else 0x37 + m := by
    decide
  have h0 : '0'.toNat = 0x30 := rfl
  have h9 : '9'.toNat = 0x39 := rfl
  have hA : 'A'.toNat = 0x41 := rfl
  have hF : 'F'.toNat = 0x46 := rfl
  simp only [isCapitalHex, CodePoint.isDigit, CodePoint.isBetween, Bool.or_eq_true,
    Bool.and_eq_true, decide_eq_true_eq] at h
  rcases h with hdigit | hletter
  · refine ⟨c.toNat - 0x30, by omega, CodePoint.ext ?_⟩
    rw [hnat _ (by omega), if_pos (by omega)]
    omega
  · refine ⟨c.toNat - 0x37, by omega, CodePoint.ext ?_⟩
    rw [hnat _ (by omega), if_neg (by omega)]
    omega

theorem isToken_iff {k : Text} : IsToken k ↔ ∃ b, k = Percent.spell pathSafe b := by
  constructor
  · rintro (⟨h⟩ | ⟨hhi, hlo, hb, h⟩)
    · next c =>
      have he := Utf8.ofByte_ofNat (isAscii_of_staysPlain h)
      refine ⟨.ofNat c.toNat, ?_⟩
      rw [Percent.spell, if_pos (keeps_pathSafe_iff.mpr (he.symm ▸ h)), he]
    · next hi lo b =>
      obtain ⟨m, hm, rfl⟩ := exists_upperHex hhi
      obtain ⟨n, hn, rfl⟩ := exists_upperHex hlo
      rw [Percent.byte?, CodePoint.hexValue?_upperHex hm, CodePoint.hexValue?_upperHex hn] at hb
      have hb' : b.toNat = 16 * m + n := by
        rw [← Option.some.inj hb]
        exact UInt8.toNat_ofNat_of_lt' (show _ < 0x100 by omega)
      refine ⟨b, ?_⟩
      rw [Percent.spell, if_neg (mt keeps_pathSafe_iff.mp h), Percent.triplet,
        show b.toNat / 16 = m by omega, show b.toNat % 16 = n by omega]
  · rintro ⟨b, rfl⟩
    have hb := b.toNat_lt
    unfold Percent.spell
    split
    · next h => exact .plain (keeps_pathSafe_iff.mp h)
    · next h =>
      exact .escape (isCapitalHex_upperHex (by omega)) (isCapitalHex_upperHex (by omega))
        (Percent.byte?_upperHex b) (mt keeps_pathSafe_iff.mpr h)

/-- The canonical texts are the spellings of bytes. -/
theorem isCanonical_iff : IsCanonical t ↔ ∃ bs, t = Percent.spellAll pathSafe bs := by
  constructor
  · rintro ⟨tokens, h, rfl⟩
    induction tokens with
    | nil => exact ⟨[], rfl⟩
    | cons k tokens ih =>
      obtain ⟨b, rfl⟩ := isToken_iff.mp (h k List.mem_cons_self)
      obtain ⟨bs, hbs⟩ := ih fun d hd => h d (List.mem_cons_of_mem _ hd)
      refine ⟨b :: bs, ?_⟩
      rw [List.flatten_cons, hbs]
      rfl
  · rintro ⟨bs, rfl⟩
    refine ⟨bs.map (Percent.spell pathSafe), ?_, List.flatMap_def⟩
    intro k hk
    obtain ⟨b, -, rfl⟩ := List.mem_map.mp hk
    exact isToken_iff.mpr ⟨b, rfl⟩

/-! ### The canonical URI -/

theorem percent_notMem_pathSafe : CodePoint.ofChar '%' ∉ pathSafe := by decide

/-- A text that spells bytes has the canonical URI of these bytes. -/
theorem canonical_of_spells (h : Percent.Spells t bs) :
    (Uri.mk t).canonical = ⟨Percent.spellAll pathSafe bs, Percent.spellAll "/" bs⟩ := by
  rw [canonical, h.decode_eq, Percent.encode, Percent.encode, Utf8.encode_decode]

theorem canonical_spellAll (bs : List UInt8) : (Uri.mk (Percent.spellAll pathSafe bs)).canonical =
    ⟨Percent.spellAll pathSafe bs, Percent.spellAll "/" bs⟩ :=
  canonical_of_spells (Percent.spells_spellAll percent_notMem_pathSafe bs)

/-- The canonical texts are those that canonical spelling leaves as they are, each text becomes one
of them, and doing it again changes neither the text nor what the hash is taken from. -/
theorem canonical_fixed_points :
    (∀ t : Text, (Uri.mk t).canonical.text = t ↔ IsCanonical t) ∧
      ∀ u : Uri, IsCanonical u.canonical.text ∧ u.canonical.toUri.canonical = u.canonical := by
  refine ⟨?_, ?_⟩
  · intro t
    constructor
    · intro h
      exact isCanonical_iff.mpr ⟨_, h.symm⟩
    · intro h
      obtain ⟨bs, rfl⟩ := isCanonical_iff.mp h
      rw [canonical_spellAll]
  · intro u
    exact ⟨isCanonical_iff.mpr ⟨_, rfl⟩, canonical_spellAll _⟩

/-! ### Equality and hash -/

/-- Canonical URIs have one text if and only if the bytes of what they stand for are the same. -/
theorem text_canonical_eq_iff {u v : Uri} : u.canonical.text = v.canonical.text ↔
    Utf8.encode (Percent.decode u.text) = Utf8.encode (Percent.decode v.text) :=
  Percent.spellAll_inj percent_notMem_pathSafe

theorem hashKey_canonical_eq_iff {u v : Uri} : u.canonical.hashKey = v.canonical.hashKey ↔
    Utf8.encode (Percent.decode u.text) = Utf8.encode (Percent.decode v.text) :=
  Percent.spellAll_inj (by decide)

/-- Canonical URIs that are equal are hashed by the same text, and no others are: the text that is
hashed is the escaping of what the URI stands for in which the slash alone is safe. -/
theorem canonical_eq_iff_hashKey_eq (u v : Uri) :
    (u.canonical.text = v.canonical.text ↔ u.canonical.hashKey = v.canonical.hashKey) ∧
      (u.canonical == v.canonical ↔ u.canonical.hashKey = v.canonical.hashKey) ∧
      u.canonical.hashKey = Percent.encode "/" (Percent.decode u.text) := by
  have htext : u.canonical.text = v.canonical.text ↔ u.canonical.hashKey = v.canonical.hashKey :=
    text_canonical_eq_iff.trans hashKey_canonical_eq_iff.symm
  exact ⟨htext, uri_beq_iff.trans htext, rfl⟩

/-- A surrogate that is no byte and the three bytes of its number are one URI with one hash. -/
example : (Uri.mk [⟨0xD800, by decide⟩]).canonical = (Uri.mk "%ed%A0%80").canonical := by decide

end Uri

end Locus
