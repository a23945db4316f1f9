import Locus.Proofs.Uri.Canonical

/-!
The ways to write a URI. Each character of a text may be written out, unless it is the percent sign, or
as the escapes of its bytes, with hexadecimal digits of either case. What is written need not decode
to the text: a run of escapes is decoded by itself, and the stray bytes of two surrogates that are escaped
side by side may make a character. Yet the bytes are those of the text in every case, and a canonical
URI is made from the bytes; so however a text is written, its canonical URI is one and the same.
-/

namespace Locus

namespace CodePoint

/-- A hexadecimal digit of either case that denotes `n`. -/
def IsHexOf (n : Nat) (c : CodePoint) : Prop := c = upperHex n ∨ c = lowerHex n

theorem IsHexOf.hexValue?_eq {n : Nat} {c : CodePoint} (h : IsHexOf n c) (hn : n < 16) :
    c.hexValue? = some n := by
  have hlower : ∀ m < 16, (lowerHex m).hexValue? = some m := by decide
  rcases h with rfl | rfl
  · exact hexValue?_upperHex hn
  · exact hlower n hn

end CodePoint

namespace Percent

variable {c : CodePoint} {d w e : Text} {b : UInt8} {bs : List UInt8} {ps : List Piece}

/-! ### Writings -/

/-- The text is the escapes of the bytes, one after the other. -/
inductive Escapes : List UInt8 → Text → Prop where
  | nil : Escapes [] []
  | cons {b : UInt8} {bs : List UInt8} {hi lo : CodePoint} {e : Text} :
      hi.IsHexOf (b.toNat / 16) → lo.IsHexOf (b.toNat % 16) → Escapes bs e →
      Escapes (b :: bs) ('%' :: hi :: lo :: e)

/-- The second text is a way to write the first: each character is written out or escaped. -/
inductive Writes : Text → Text → Prop where
  | nil : Writes [] []
  | plain {c : CodePoint} {d w : Text} : c ≠ '%' → Writes d w → Writes (c :: d) (c :: w)
  | escaped {c : CodePoint} {bs : List UInt8} {e d w : Text} :
      Utf8.bytes? c = some bs → Escapes bs e → Writes d w → Writes (c :: d) (e ++ w)

theorem Escapes.spells (h : Escapes bs e) : Spells e bs := by
  induction h with
  | nil => exact spells_nil
  | @cons b bs hi lo e hhi hlo _ ih =>
    have hb := b.toNat_lt
    have hbyte : byte? hi lo = some b := by
      rw [byte?, hhi.hexValue?_eq (by omega), hlo.hexValue?_eq (by omega)]
      exact congrArg some (Utf8.ofNat_eq (Nat.div_add_mod b.toNat 16).symm)
    intro rest
    rw [List.cons_append, List.cons_append, List.cons_append, pieces_escape hbyte, ih rest]
    rfl

/-! ### The bytes of the pieces -/

/-- The bytes that a piece stands for. -/
def Piece.bytes? : Piece → Option (List UInt8)
  | .octet b => some [b]
  | .wide c => Utf8.bytes? c

/-- The bytes that pieces stand for, one after the other. -/
def bytesOf? : List Piece → Option (List UInt8)
  | [] => some []
  | p :: ps => do
    let head ← p.bytes?
    let tail ← bytesOf? ps
    return head ++ tail

theorem bytes?_ofCodePoint (c : CodePoint) : (Piece.ofCodePoint c).bytes? = Utf8.bytes? c := by
  unfold Piece.ofCodePoint
  split
  · next h =>
    have hlt : c.toNat < 0x80 := decide_eq_true_eq.mp h
    rw [Utf8.bytes?_of_not_isSurrogate (Utf8.not_isSurrogate_iff.mpr (.inl (by omega))),
      Utf8.bytes_of_lt_80 hlt]
    rfl
  · rfl

theorem bytesOf?_octets_append (bs : List UInt8) (ps : List Piece) :
    bytesOf? (bs.map .octet ++ ps) = (bytesOf? ps).map (bs ++ ·) := by
  induction bs with
  | nil => simp
  | cons b bs ih =>
    rw [List.map_cons, List.cons_append, bytesOf?, ih]
    cases bytesOf? ps <;> rfl

/-- The bytes at the front of the pieces and the text behind them hold all bytes of the pieces. -/
theorem encode?_gather (ps : List Piece) :
    (Utf8.encode? (gather ps).2).map ((gather ps).1 ++ ·) = bytesOf? ps := by
  induction ps with
  | nil => rfl
  | cons p ps ih =>
    rw [bytesOf?, ← ih]
    cases p with
    | octet b => cases h : Utf8.encode? (gather ps).2 <;> simp [gather, h, Piece.bytes?]
    | wide c => simp [gather, Utf8.encode?, Utf8.encode?_decode_append, Piece.bytes?]

/-- Runs of bytes are decoded each by itself, but no byte is lost or changed. -/
theorem encode?_assemble (ps : List Piece) : Utf8.encode? (assemble ps) = bytesOf? ps := by
  rw [assemble, Utf8.encode?_decode_append, encode?_gather]

/-- What is written has the bytes of the text. -/
theorem Writes.encode?_decode (h : Writes d w) : Utf8.encode? (decode w) = Utf8.encode? d := by
  rw [decode, encode?_assemble]
  induction h with
  | nil => rfl
  | plain hc _ ih => rw [pieces_cons_of_ne hc, bytesOf?, bytes?_ofCodePoint, ih, Utf8.encode?]
  | escaped hbs he _ ih =>
    rw [he.spells, bytesOf?_octets_append, ih, Utf8.encode?, hbs]
    cases Utf8.encode? _ <;> rfl

theorem Writes.encode_decode (hd : ∃ bs, Utf8.encode? d = some bs) (h : Writes d w) (safe : Text) :
    encode safe (decode w) = encode safe d := by
  obtain ⟨bs, hbs⟩ := hd
  rw [encode, encode, Utf8.encode, Utf8.encode, h.encode?_decode, hbs]
  rfl

end Percent

namespace Uri

/-- The canonical URI of a text that is written in any way is made from the text itself, so that all
ways to write it give one and the same. -/
theorem canonical_of_writes {d w : Text}
    (hd : ∀ c ∈ d, ¬c.isSurrogate ∨ 0xDC80 ≤ c.toNat ∧ c.toNat ≤ 0xDCFF)
    (hw : Percent.Writes d w) :
    (Uri.mk w).canonical = ⟨Percent.encode pathSafe d, Percent.encode "/" d⟩ ∧
      ∀ w', Percent.Writes d w' → (Uri.mk w').canonical = (Uri.mk w).canonical := by
  have hcanonical : ∀ v, Percent.Writes d v →
      (Uri.mk v).canonical = ⟨Percent.encode pathSafe d, Percent.encode "/" d⟩ := by
    intro v hv
    have hbytes := Utf8.exists_encode?_eq_some hd
    rw [canonical, hv.encode_decode hbytes, hv.encode_decode hbytes]
  refine ⟨hcanonical w hw, ?_⟩
  intro w' hw'
  rw [hcanonical w' hw', hcanonical w hw]

/-- Two stray bytes that would make a character, that character and a percent sign, escaped
throughout and in part. -/
theorem canonical_of_writes_strays :
    (Uri.mk "%c3%A9%C3%a9%25").canonical = ⟨"%C3%A9%C3%A9%25", "%C3%A9%C3%A9%25"⟩ ∧
      (Uri.mk (Utf8.stray 0xC3 :: "%a9é%25")).canonical = (Uri.mk "%c3%A9%C3%a9%25").canonical := by
  have hd : ∀ c ∈ [Utf8.stray 0xC3, Utf8.stray 0xA9, 'é', '%'],
      ¬c.isSurrogate ∨ 0xDC80 ≤ c.toNat ∧ c.toNat ≤ 0xDCFF := by decide
  have hC3 : Percent.Escapes [0xC3] "%c3" := .cons (.inr rfl) (.inr rfl) .nil
  have hA9 : Percent.Escapes [0xA9] "%A9" := .cons (.inl rfl) (.inl rfl) .nil
  have hA9' : Percent.Escapes [0xA9] "%a9" := .cons (.inr rfl) (.inl rfl) .nil
  have hé : Percent.Escapes [0xC3, 0xA9] "%C3%a9" :=
    .cons (.inl rfl) (.inl rfl) (.cons (.inr rfl) (.inl rfl) .nil)
  have hpercent : Percent.Escapes [0x25] "%25" := .cons (.inl rfl) (.inl rfl) .nil
  have hescaped : Percent.Writes [Utf8.stray 0xC3, Utf8.stray 0xA9, 'é', '%'] "%c3%A9%C3%a9%25" :=
    .escaped rfl hC3 (.escaped rfl hA9 (.escaped rfl hé (.escaped rfl hpercent .nil)))
  have hmixed : Percent.Writes [Utf8.stray 0xC3, Utf8.stray 0xA9, 'é', '%']
      (Utf8.stray 0xC3 :: "%a9é%25") :=
    .plain (by decide)
      (.escaped rfl hA9' (.plain (by decide) (.escaped rfl hpercent .nil)))
  obtain ⟨hcanonical, hsame⟩ := canonical_of_writes hd hescaped
  exact ⟨hcanonical, hsame _ hmixed⟩

end Uri

end Locus
