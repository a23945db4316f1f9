import Locus.Proofs.Uri.Windows
import Locus.Proofs.Uri.Writing

/-!
File URIs with an authority. An ASCII text stands for bytes of which each is written out or escaped
in it; so if no slash is escaped in an authority, the slash that ends it stays where it is when the
URI is made canonical, and so do all characters that authority and path stand for. Hence the
canonical URI names the same file.
-/

namespace Locus

namespace CodePoint

variable {c : CodePoint} {n : Nat}

/-- A hexadecimal digit is the capital or the small one of its value. -/
theorem isHexOf_of_hexValue? (h : c.hexValue? = some n) : n < 16 ∧ c.IsHexOf n := by
  have hupper : ∀ m < 16, (upperHex m).toNat = if m < 10 then 0x30 + m else 0x37 + m := by decide
  have hlower : ∀ m < 16, (lowerHex m).toNat = if m < 10 then 0x30 + m else 0x57 + m := by decide
  have h0 : '0'.toNat = 0x30 := rfl
  have h9 : '9'.toNat = 0x39 := rfl
  have ha : 'a'.toNat = 0x61 := rfl
  have hf : 'f'.toNat = 0x66 := rfl
  have hA : 'A'.toNat = 0x41 := rfl
  have hF : 'F'.toNat = 0x46 := rfl
  simp only [hexValue?, isDigit, isBetween, Bool.and_eq_true, decide_eq_true_eq] at h
  split_ifs at h
  · obtain rfl := Option.some.inj h
    refine ⟨by omega, .inl (CodePoint.ext ?_)⟩
    rw [hupper _ (by omega), if_pos (by omega)]
    omega
  · obtain rfl := Option.some.inj h
    refine ⟨by omega, .inr (CodePoint.ext ?_)⟩
    rw [hlower _ (by omega), if_neg (by omega)]
    omega
  · obtain rfl := Option.some.inj h
    refine ⟨by omega, .inl (CodePoint.ext ?_)⟩
    rw [hupper _ (by omega), if_neg (by omega)]
    omega

end CodePoint

namespace Percent

open CodePoint (ofChar)

variable {s t : Text} {hi lo : CodePoint} {b : UInt8}

/-! ### The bytes of ASCII texts -/

theorem isHexOf_of_byte? (h : byte? hi lo = some b) :
    hi.IsHexOf (b.toNat / 16) ∧ lo.IsHexOf (b.toNat % 16) := by
  obtain ⟨m, hm, h⟩ := Option.bind_eq_some_iff.mp h
  obtain ⟨n, hn, h⟩ := Option.bind_eq_some_iff.mp h
  obtain ⟨hm16, hhi⟩ := CodePoint.isHexOf_of_hexValue? hm
  obtain ⟨hn16, hlo⟩ := CodePoint.isHexOf_of_hexValue? hn
  obtain rfl := Option.some.inj h
  rw [UInt8.toNat_ofNat_of_lt' (show _ < 0x100 by omega), show (16 * m + n) / 16 = m by omega,
    show (16 * m + n) % 16 = n by omega]
  exact ⟨hhi, hlo⟩

/-- The byte stands in the text, as it is or escaped. -/
def Occurs (b : UInt8) (t : Text) : Prop :=
  CodePoint.ofByte b ∈ t ∨ ∃ hi lo, [ofChar '%', hi, lo] <:+: t ∧ byte? hi lo = some b

theorem Occurs.of_suffix (h : Occurs b s) (hs : s <:+ t) : Occurs b t := by
  rcases h with h | ⟨hi, lo, h, hb⟩
  · exact .inl (hs.mem h)
  · exact .inr ⟨hi, lo, h.trans hs.isInfix, hb⟩

/-- The pieces of an ASCII text are bytes that occur in it. -/
theorem exists_pieces_eq_of_isAscii : ∀ {t : Text}, (∀ c ∈ t, c.isAscii) →
    ∃ bs : List UInt8, pieces t = bs.map .octet ∧ ∀ b ∈ bs, Occurs b t
  | [], _ => ⟨[], rfl, nofun⟩
  | c :: t, h => by
    cases hfront : escape? c t with
    | some b =>
      obtain ⟨rfl, hi, lo, r, rfl, -, -⟩ := exists_of_escape? hfront
      have hr : r <:+ ofChar '%' :: hi :: lo :: r := ⟨[ofChar '%', hi, lo], rfl⟩
      obtain ⟨bs, hbs, hoccurs⟩ := exists_pieces_eq_of_isAscii fun c hc => h c (hr.mem hc)
      refine ⟨b :: bs, ?_, ?_⟩
      · rw [pieces_of_escape? hfront]
        exact congrArg (.octet b :: ·) hbs
      · intro d hd
        rcases List.mem_cons.mp hd with rfl | hd
        · exact .inr ⟨hi, lo, ⟨[], r, rfl⟩, hfront⟩
        · exact (hoccurs d hd).of_suffix hr
    | none =>
      have ht : t <:+ c :: t := List.suffix_cons c t
      obtain ⟨bs, hbs, hoccurs⟩ := exists_pieces_eq_of_isAscii fun d hd => h d (ht.mem hd)
      have hc := h c List.mem_cons_self
      refine ⟨.ofNat c.toNat :: bs, ?_, ?_⟩
      · rw [pieces_of_escape?_eq_none hfront, Piece.ofCodePoint, if_pos hc, hbs]
        rfl
      · intro d hd
        rcases List.mem_cons.mp hd with rfl | hd
        · left
          rw [Utf8.ofByte_ofNat hc]
          exact List.mem_cons_self
        · exact (hoccurs d hd).of_suffix ht
termination_by t => t.length

theorem pieces_ne_nil (h : t ≠ []) : pieces t ≠ [] := by
  obtain ⟨c, t, rfl⟩ := List.exists_cons_of_ne_nil h
  cases hfront : escape? c t with
  | some b =>
    rw [pieces_of_escape? hfront]
    exact List.cons_ne_nil _ _
  | none =>
    rw [pieces_of_escape?_eq_none hfront]
    exact List.cons_ne_nil _ _

end Percent

namespace Uri

open CodePoint (ofChar)
open Utf8 (OfBytes)

variable {a p t : Text} {c : CodePoint} {b : UInt8} {xs ys : List UInt8}

/-! ### Spelled authorities -/

/-- What stands in a spelling is a byte that stays as it is, or belongs to an escape. -/
theorem of_mem_spellAll (h : c ∈ Percent.spellAll pathSafe xs) :
    (∃ b ∈ xs, c = .ofByte b ∧ staysPlain c) ∨ c = '%' ∨ isCapitalHex c := by
  obtain ⟨b, hb, hc⟩ := List.mem_flatMap.mp h
  have hlt := b.toNat_lt
  unfold Percent.spell at hc
  split at hc
  · next hkeep =>
    obtain rfl := List.mem_singleton.mp hc
    exact .inl ⟨b, hb, rfl, keeps_pathSafe_iff.mp hkeep⟩
  · simp only [Percent.triplet, List.mem_cons, List.not_mem_nil, or_false] at hc
    rcases hc with rfl | rfl | rfl
    · exact .inr (.inl rfl)
    · exact .inr (.inr (isCapitalHex_upperHex (by omega)))
    · exact .inr (.inr (isCapitalHex_upperHex (by omega)))

theorem staysInAuthority_of_isCapitalHex (h : isCapitalHex c) : staysInAuthority c := by
  obtain ⟨n, hn, rfl⟩ := exists_upperHex h
  have hall : ∀ m < 16, staysInAuthority (.upperHex m) := by decide
  exact hall n hn

theorem staysInAuthority_of_staysPlain (h : staysPlain c) (hslash : c ≠ '/') :
    staysInAuthority c := by
  have hpath := staysInPath_of_isPathCharacter (isPathCharacter_of_staysPlain h)
  refine staysInAuthority_iff.mpr ⟨isAscii_of_staysPlain h, hpath, hslash, ?_, ?_⟩
  · rintro rfl
    exact absurd h (by decide)
  · rintro rfl
    exact absurd h (by decide)

/-- The spelling of bytes without a slash stays in an authority. -/
theorem staysInAuthority_of_mem_spellAll (h : slashByte ∉ xs) :
    ∀ c ∈ Percent.spellAll pathSafe xs, staysInAuthority c := by
  intro c hc
  rcases of_mem_spellAll hc with ⟨b, hb, rfl, hplain⟩ | rfl | hhex
  · refine staysInAuthority_of_staysPlain hplain ?_
    intro he
    have heq : b = slashByte := UInt8.toNat.inj (congrArg CodePoint.toNat he)
    exact h (heq ▸ hb)
  · decide
  · exact staysInAuthority_of_isCapitalHex hhex

theorem isAscii_of_mem_spellAll (h : c ∈ Percent.spellAll pathSafe xs) : c.isAscii := by
  rcases of_mem_spellAll h with ⟨_, -, -, hplain⟩ | rfl | hhex
  · exact isAscii_of_staysPlain hplain
  · decide
  · exact (staysInAuthority_iff.mp (staysInAuthority_of_isCapitalHex hhex)).1

theorem staysInPath_of_mem_spellAll (ys : List UInt8) :
    ∀ c ∈ Percent.spellAll pathSafe ys, staysInPath c := by
  intro c hc
  have hcanonical : IsCanonical (Percent.spellAll pathSafe ys) := isCanonical_iff.mpr ⟨ys, rfl⟩
  exact staysInPath_of_isPathCharacter (isPathCharacter_of_isCanonical hcanonical c hc)

/-- A spelling is split behind the first bytes if these hold no slash and the others start with one. -/
theorem split_spellings (hxs : slashByte ∉ xs) (hys : ∀ b ∈ ys.head?, b = slashByte) :
    split ⟨filePrefix ++ (Percent.spellAll pathSafe xs ++ Percent.spellAll pathSafe ys)⟩ =
      .ok ⟨fileScheme, Percent.spellAll pathSafe xs, Percent.spellAll pathSafe ys, none, none⟩ := by
  refine split_filePrefix (staysInAuthority_of_mem_spellAll hxs) (staysInPath_of_mem_spellAll ys) ?_
  cases ys with
  | nil => exact nofun
  | cons b ys =>
    obtain rfl := hys b rfl
    rintro _ ⟨⟩
    rfl

/-! ### Relative paths -/

theorem mem_of_slashByte_mem_encode (hp : OfBytes p) (h : slashByte ∈ Utf8.encode p) :
    ofChar '/' ∈ p := by
  obtain ⟨xs, ys, he⟩ := List.append_of_mem h
  rw [← hp.decode_encode, he, Utf8.decode_append_cons (by decide), decode_slashByte_cons]
  exact List.mem_append_right _ List.mem_cons_self

theorem head?_encode (hroot : ∀ c ∈ p.head?, c = ofChar '/') :
    ∀ b ∈ (Utf8.encode p).head?, b = slashByte := by
  cases p with
  | nil => exact nofun
  | cons c q =>
    obtain rfl := hroot c rfl
    rw [encode_slash_cons]
    rintro _ ⟨⟩
    rfl

/-- A path is cut in front of its first slash. -/
theorem exists_first_slash (p : Text) :
    ∃ a q, p = a ++ q ∧ ofChar '/' ∉ a ∧ ∀ c ∈ q.head?, c = ofChar '/' := by
  induction p with
  | nil => exact ⟨[], [], rfl, List.not_mem_nil, nofun⟩
  | cons c p ih =>
    by_cases hc : c = ofChar '/'
    · refine ⟨[], c :: p, rfl, List.not_mem_nil, ?_⟩
      rintro _ ⟨⟩
      exact hc
    · obtain ⟨a, q, rfl, ha, hq⟩ := ih
      exact ⟨c :: a, q, rfl, List.not_mem_cons_of_ne_of_not_mem (Ne.symm hc) ha, hq⟩

/-- What stands before the first slash of a relative path is taken for an authority. -/
theorem toPath_posix_encode (hp : OfBytes p) (hne : p ≠ []) (hrel : p.head? ≠ some (ofChar '/')) :
    toPath .posix ⟨filePrefix ++ Percent.encode pathSafe p⟩ = .ok ("//" ++ p) := by
  obtain ⟨a, q, rfl, hslash, hroot⟩ := exists_first_slash p
  obtain ⟨ha, hq⟩ := hp.of_append
  have hopens : a ≠ [] := by
    rintro rfl
    obtain ⟨c, q, rfl⟩ := List.exists_cons_of_ne_nil hne
    exact hrel (congrArg some (hroot c rfl))
  have hauthority : Percent.spellAll pathSafe (Utf8.encode a) ≠ [] := by
    rw [Ne, Percent.spellAll_eq_nil_iff percent_notMem_pathSafe]
    intro he
    rw [← ha.decode_encode, he] at hopens
    exact hopens rfl
  have hsafe := percent_notMem_pathSafe
  rw [Percent.encode, hp.encode_append, Percent.spellAll_append, toPath,
    split_spellings (fun h => hslash (mem_of_slashByte_mem_encode ha h)) (head?_encode hroot)]
  dsimp only
  rw [if_pos rfl, Parts.posixFile, if_neg hauthority, Percent.decode_spellAll hsafe,
    Percent.decode_spellAll hsafe, ha.decode_encode, hq.decode_encode, List.append_assoc]

/-! ### Authorities and paths as they are given -/

/-- An authority in ASCII, in which no slash is escaped. -/
structure IsAuthority (a : Text) : Prop where
  stays : ∀ c ∈ a, staysInAuthority c
  not_upper : ¬Text.ofString "%2F" <:+: a
  not_lower : ¬Text.ofString "%2f" <:+: a

/-- No path, or an absolute one without surrogates. -/
structure IsPath (p : Text) : Prop where
  rooted : ∀ c ∈ p.head?, c = ofChar '/'
  stays : ∀ c ∈ p, staysInPath c
  plain : ∀ c ∈ p, ¬c.isSurrogate

theorem not_occurs_slashByte (h : IsAuthority a) : ¬Percent.Occurs slashByte a := by
  rintro (hslash | ⟨hi, lo, hescape, hbyte⟩)
  · exact (staysInAuthority_iff.mp (h.stays _ hslash)).2.2.1 rfl
  · obtain ⟨hhi, hlo⟩ := Percent.isHexOf_of_byte? hbyte
    have htwo : hi = ofChar '2' := by
      rcases hhi with rfl | rfl <;> rfl
    subst htwo
    rcases hlo with rfl | rfl
    · exact h.not_upper hescape
    · exact h.not_lower hescape

/-- What an authority stands for is bytes without a slash, and none only if it is empty. -/
theorem IsAuthority.exists_bytes (h : IsAuthority a) :
    ∃ xs, Percent.decode a = Utf8.decode xs ∧ slashByte ∉ xs ∧ (xs = [] ↔ a = []) := by
  have hascii : ∀ c ∈ a, c.isAscii := fun c hc => (staysInAuthority_iff.mp (h.stays c hc)).1
  obtain ⟨xs, hxs, hoccurs⟩ := Percent.exists_pieces_eq_of_isAscii hascii
  refine ⟨xs, ?_, fun hmem => not_occurs_slashByte h (hoccurs _ hmem), ?_⟩
  · rw [Percent.decode, hxs, Percent.assemble, Percent.gather_octets]
    exact List.append_nil _
  · rw [← List.map_eq_nil_iff (f := Percent.Piece.octet), ← hxs]
    constructor
    · exact not_imp_not.mp Percent.pieces_ne_nil
    · rintro rfl
      rfl

/-- What a path stands for is bytes that start with a slash, or no bytes. -/
theorem IsPath.exists_bytes (h : IsPath p) :
    ∃ ys, Percent.decode p = Utf8.decode ys ∧ ∀ b ∈ ys.head?, b = slashByte := by
  cases p with
  | nil => exact ⟨[], rfl, nofun⟩
  | cons c q =>
    obtain rfl := h.rooted c rfl
    obtain ⟨ys, hys⟩ := Percent.ofBytes_decode fun c hc => h.plain c (List.mem_cons_of_mem _ hc)
    refine ⟨slashByte :: ys, ?_, ?_⟩
    · rw [decode_slash_cons, ← hys, decode_slashByte_cons]
    · rintro _ ⟨⟩
      rfl

/-- The slash of the path parts what is unescaped. -/
theorem IsPath.decode_append (h : IsPath p) (a : Text) :
    Percent.decode (a ++ p) = Percent.decode a ++ Percent.decode p := by
  cases p with
  | nil => exact congrArg Percent.decode (List.append_nil a) |>.trans (List.append_nil _).symm
  | cons c q =>
    obtain rfl := h.rooted c rfl
    rw [decode_append_slash, decode_slash_cons]

/-- Bytes that start with a slash are decoded apart from those before. -/
theorem decode_append_of_slash (hys : ∀ b ∈ ys.head?, b = slashByte) :
    Utf8.decode (xs ++ ys) = Utf8.decode xs ++ Utf8.decode ys := by
  cases ys with
  | nil => rw [List.append_nil]; exact (List.append_nil _).symm
  | cons b ys =>
    obtain rfl := hys b rfl
    exact Utf8.decode_append_cons (by decide) xs ys

/-- A URI of an authority and a path is made canonical part by part. -/
theorem canonical_append (hp : IsPath p) (hxs : Percent.decode a = Utf8.decode xs)
    (hys : Percent.decode p = Utf8.decode ys) (hroot : ∀ b ∈ ys.head?, b = slashByte) :
    (Uri.mk (filePrefix ++ (a ++ p))).canonical.toUri =
      ⟨filePrefix ++ (Percent.spellAll pathSafe xs ++ Percent.spellAll pathSafe ys)⟩ := by
  rw [canonical, CanonicalUri.toUri, decode_filePrefix_append, hp.decode_append, hxs, hys,
    ← decode_append_of_slash hroot, encode_filePrefix_append, Percent.encode, Utf8.encode_decode,
    Percent.spellAll_append]

/-- Making a file URI canonical does not change the file that it names, in either style, and it names
one: whatever is escaped in its path, and in an ASCII authority without an escaped slash. -/
theorem toPath_canonical (ha : IsAuthority a) (hp : IsPath p) (c : PathStyle) :
    ∃ f, toPath c ⟨filePrefix ++ (a ++ p)⟩ = .ok f ∧
      toPath c (Uri.mk (filePrefix ++ (a ++ p))).canonical.toUri = .ok f := by
  obtain ⟨xs, hxs, hslash, hnil⟩ := ha.exists_bytes
  obtain ⟨ys, hys, hroot⟩ := hp.exists_bytes
  have hsafe := percent_notMem_pathSafe
  have hnil' : Percent.spellAll pathSafe xs = [] ↔ a = [] :=
    (Percent.spellAll_eq_nil_iff hsafe).trans hnil
  rw [canonical_append hp hxs hys hroot, toPath, toPath, split_filePrefix ha.stays hp.stays hp.rooted,
    split_spellings hslash hroot]
  cases c with
  | posix =>
    refine ⟨_, rfl, ?_⟩
    simp only [if_true, Parts.posixFile, Percent.decode_spellAll hsafe, hnil', hxs, hys]
  | windows =>
    refine ⟨_, rfl, ?_⟩
    simp only [if_true, Parts.windowsFile, Percent.decode_spellAll hsafe, hnil', hxs, hys]

/-- Escapes of either case, a character beyond ASCII that is written out, and a byte of no character. -/
theorem toPath_canonical_of_escapes :
    IsAuthority "se%72v%zz" ∧ IsPath "/%2f%3Fé%FF\\" ∧
      ∃ f, toPath .windows ⟨"file://se%72v%zz/%2f%3Fé%FF\\"⟩ = .ok f ∧
        toPath .windows (Uri.mk "file://se%72v%zz/%2f%3Fé%FF\\").canonical.toUri = .ok f := by
  have ha : IsAuthority "se%72v%zz" := ⟨by decide, by decide, by decide⟩
  have hp : IsPath "/%2f%3Fé%FF\\" := ⟨by decide, by decide, by decide⟩
  exact ⟨ha, hp, toPath_canonical ha hp .windows⟩

end Uri

end Locus
