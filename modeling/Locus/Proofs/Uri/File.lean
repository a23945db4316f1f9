import Locus.Proofs.Path.Posix
import Locus.Proofs.Uri.Canonical
import Locus.Uri.File

/-!
File URIs of POSIX paths. Whatever the path, its URI spells the bytes of its slashes and segments
after the prefix: what is escaped per segment and then made canonical is escaped a single time. The
prefix and an absolute path are split as they were put together, so the URI names what its bytes
decode to, and these are the bytes of the path itself if it has any.
-/

namespace Locus.Uri

variable {t a p : Text} {c : CodePoint} {bs : List UInt8}

/-! ### Splitting -/

/-- Neither a blank nor the start of a query or fragment. -/
def isPathCharacter (c : CodePoint) : Bool := !isBlank c && !c.is '?' && !c.is '#'

theorem isPathCharacter_iff : isPathCharacter c ↔ 0x20 < c.toNat ∧ c ≠ '?' ∧ c ≠ '#' := by
  simp only [isPathCharacter, isBlank, CodePoint.is, Bool.and_eq_true, Bool.not_eq_true',
    decide_eq_false_iff_not, Nat.not_le, and_assoc]

theorem isPathCharacter_of_lt (h : 0x2F < c.toNat) (h' : c.toNat ≠ 0x3F) : isPathCharacter c := by
  refine isPathCharacter_iff.mpr ⟨by omega, ?_, ?_⟩
  · rintro rfl
    exact h' rfl
  · rintro rfl
    exact absurd h (by decide)

theorem isPathCharacter_of_isCapitalHex (h : isCapitalHex c) : isPathCharacter c := by
  obtain ⟨n, hn, rfl⟩ := exists_upperHex h
  have hall : ∀ m < 16, isPathCharacter (.upperHex m) := by decide
  exact hall n hn

theorem isPathCharacter_of_staysPlain (h : staysPlain c) : isPathCharacter c := by
  have hmarks : ∀ d ∈ Text.ofString "_.-~/:@!$&'()*+,;=", isPathCharacter d := by decide
  rw [staysPlain, Bool.or_eq_true, Bool.or_eq_true, decide_eq_true_eq] at h
  have ha : 'a'.toNat = 0x61 := rfl
  have hA : 'A'.toNat = 0x41 := rfl
  rcases h with (hletter | hdigit) | hmem
  · simp only [CodePoint.isLetter, CodePoint.isBetween, Bool.or_eq_true, Bool.and_eq_true,
      decide_eq_true_eq] at hletter
    exact isPathCharacter_of_lt (by omega) (by omega)
  · exact isPathCharacter_of_isCapitalHex (Bool.or_eq_true_iff.mpr (.inl hdigit))
  · exact hmarks c hmem

/-- A canonical text is all path. -/
theorem isPathCharacter_of_isCanonical (h : IsCanonical t) : ∀ c ∈ t, isPathCharacter c := by
  obtain ⟨tokens, htokens, rfl⟩ := h
  intro c hc
  obtain ⟨k, hk, hck⟩ := List.mem_flatten.mp hc
  rcases htokens k hk with h | ⟨hhi, hlo, -, -⟩
  · rw [List.mem_singleton.mp hck]
    exact isPathCharacter_of_staysPlain h
  · simp only [List.mem_cons, List.not_mem_nil, or_false] at hck
    rcases hck with rfl | rfl | rfl
    · decide
    · exact isPathCharacter_of_isCapitalHex hhi
    · exact isPathCharacter_of_isCapitalHex hlo

theorem not_isBreak_of_not_isBlank (h : isBlank c = false) : isBreak c = false := by
  cases hb : isBreak c with
  | false => rfl
  | true =>
    simp only [isBreak, CodePoint.is, Bool.or_eq_true, decide_eq_true_eq] at hb
    rcases hb with (rfl | rfl) | rfl <;> exact absurd h (by decide)

/-- Is not dropped, and opens neither a query nor a fragment. -/
def staysInPath (c : CodePoint) : Bool := !isBreak c && !c.is '?' && !c.is '#'

/-- ASCII that stays in an authority and is no bracket. -/
def staysInAuthority (c : CodePoint) : Bool :=
  c.isAscii && staysInPath c && !c.is '/' && !c.is '[' && !c.is ']'

theorem staysInPath_iff : staysInPath c ↔ isBreak c = false ∧ c ≠ '?' ∧ c ≠ '#' := by
  simp only [staysInPath, CodePoint.is, Bool.and_eq_true, Bool.not_eq_true', decide_eq_false_iff_not,
    and_assoc]

theorem staysInAuthority_iff : staysInAuthority c ↔
    c.isAscii ∧ staysInPath c ∧ c ≠ '/' ∧ c ≠ '[' ∧ c ≠ ']' := by
  simp only [staysInAuthority, CodePoint.is, Bool.and_eq_true, Bool.not_eq_true',
    decide_eq_false_iff_not, and_assoc]

theorem staysInPath_of_isPathCharacter (h : isPathCharacter c) : staysInPath c := by
  obtain ⟨hblank, hmarks⟩ := isPathCharacter_iff.mp h
  exact staysInPath_iff.mpr
    ⟨not_isBreak_of_not_isBlank (decide_eq_false (Nat.not_le.mpr hblank)), hmarks⟩

/-- A text that starts with no blank and holds no tab or line end is clean. -/
theorem cleaned_eq_self (hhead : ∀ c ∈ t.head?, isBlank c = false)
    (h : ∀ c ∈ t, isBreak c = false) : cleaned t = t := by
  have hdrop : t.dropWhile isBlank = t := by
    cases t with
    | nil => rfl
    | cons c t =>
      refine List.dropWhile_cons_of_neg ?_
      rw [hhead c rfl]
      decide
  rw [cleaned, hdrop, List.filter_eq_self]
  intro c hc
  rw [h c hc]
  rfl

theorem cut_eq_self {ch : Char} (h : ∀ c ∈ t, c ≠ ch) : t.cut (CodePoint.is ch) = (t, none) := by
  have hall : ∀ c ∈ t, (!CodePoint.is ch c) = true := by
    intro c hc
    rw [CodePoint.is, decide_eq_false (h c hc)]
    rfl
  have hdrop : t.dropWhile (!CodePoint.is ch ·) = [] := by
    rw [← List.append_nil t, List.dropWhile_append_of_pos hall, List.dropWhile_nil]
  rw [Text.cut, List.takeWhile_eq_self_iff.mpr hall, hdrop]
  rfl

/-- The authority is what stands before the slash of the path. -/
theorem cutAuthority_append (ha : ∀ c ∈ a, staysInAuthority c)
    (hp : ∀ c ∈ p.head?, c = CodePoint.ofChar '/') : cutAuthority ("//" ++ (a ++ p)) = (a, p) := by
  have hall : ∀ c ∈ a, !endsAuthority c := by
    intro c hc
    obtain ⟨-, hpath, hslash, -⟩ := staysInAuthority_iff.mp (ha c hc)
    obtain ⟨-, hquery, hfragment⟩ := staysInPath_iff.mp hpath
    simp [endsAuthority, CodePoint.is, hslash, hquery, hfragment]
  have hstop : p.takeWhile (!endsAuthority ·) = [] ∧ p.dropWhile (!endsAuthority ·) = p := by
    cases p with
    | nil => exact ⟨rfl, rfl⟩
    | cons c p =>
      obtain rfl := hp c rfl
      exact ⟨rfl, rfl⟩
  have hcut : cutAuthority ("//" ++ (a ++ p)) =
      ((a ++ p).takeWhile (!endsAuthority ·), (a ++ p).dropWhile (!endsAuthority ·)) := rfl
  rw [hcut, List.takeWhile_append_of_pos hall, List.dropWhile_append_of_pos hall, hstop.1, hstop.2,
    List.append_nil]

theorem checkBrackets_eq_ok (ha : ∀ c ∈ a, staysInAuthority c) : checkBrackets a = .ok () := by
  have hopen : a.any (CodePoint.is '[') = false := by
    simpa [CodePoint.is] using fun c hc => (staysInAuthority_iff.mp (ha c hc)).2.2.2.1
  have hclose : a.any (CodePoint.is ']') = false := by
    simpa [CodePoint.is] using fun c hc => (staysInAuthority_iff.mp (ha c hc)).2.2.2.2
  rw [checkBrackets, hopen, hclose]

theorem checkDisguises_eq_ok (ha : ∀ c ∈ a, c.isAscii) : checkDisguises a = .ok () := by
  have hbeyond : ∀ n ∈ disguises, 0x80 ≤ n := by decide
  refine if_neg ?_
  simp only [List.any_eq_true, decide_eq_true_eq, not_exists, not_and]
  intro c hc hmem
  exact absurd (hbeyond _ hmem) (Nat.not_le.mpr (decide_eq_true_eq.mp (ha c hc)))

/-- An authority and a path after the prefix are split as they were put together. -/
theorem split_filePrefix (ha : ∀ c ∈ a, staysInAuthority c) (hp : ∀ c ∈ p, staysInPath c)
    (hroot : ∀ c ∈ p.head?, c = CodePoint.ofChar '/') :
    split ⟨filePrefix ++ (a ++ p)⟩ = .ok ⟨fileScheme, a, p, none, none⟩ := by
  have hclean : cleaned (filePrefix ++ (a ++ p)) = filePrefix ++ (a ++ p) := by
    have hpre : ∀ c ∈ filePrefix, isBreak c = false := by decide
    have hhead : ∀ c ∈ (filePrefix ++ (a ++ p)).head?, isBlank c = false := by
      rintro _ ⟨⟩
      rfl
    refine cleaned_eq_self hhead ?_
    intro c hc
    rcases List.mem_append.mp hc with hc | hc
    · exact hpre c hc
    rcases List.mem_append.mp hc with hc | hc
    · exact (staysInPath_iff.mp (staysInAuthority_iff.mp (ha c hc)).2.1).1
    · exact (staysInPath_iff.mp (hp c hc)).1
  have hscheme : cutScheme (filePrefix ++ (a ++ p)) = (fileScheme, "//" ++ (a ++ p)) := rfl
  have hfragment : Text.cut (CodePoint.is '#') p = (p, none) :=
    cut_eq_self fun c hc => (staysInPath_iff.mp (hp c hc)).2.2
  have hquery : Text.cut (CodePoint.is '?') p = (p, none) :=
    cut_eq_self fun c hc => (staysInPath_iff.mp (hp c hc)).2.1
  have hascii : ∀ c ∈ a, c.isAscii := fun c hc => (staysInAuthority_iff.mp (ha c hc)).1
  rw [split, hclean, hscheme]
  dsimp only
  rw [cutAuthority_append ha hroot]
  dsimp only
  rw [checkBrackets_eq_ok ha, hfragment]
  dsimp only
  rw [hquery, checkDisguises_eq_ok hascii]
  rfl

/-- An absolute path after the prefix is split off whole. -/
theorem split_filePrefix_append (h : ∀ c ∈ t, isPathCharacter c) :
    split ⟨filePrefix ++ CodePoint.ofChar '/' :: t⟩ =
      .ok ⟨fileScheme, [], CodePoint.ofChar '/' :: t, none, none⟩ := by
  refine split_filePrefix (a := []) nofun ?_ ?_
  · intro c hc
    rcases List.mem_cons.mp hc with rfl | hc
    · decide
    · exact staysInPath_of_isPathCharacter (h c hc)
  · rintro _ ⟨⟩
    rfl

/-! ### The bytes of a path's URI -/

/-- The byte of the slash. -/
def slashByte : UInt8 := 0x2F

theorem decode_slashByte_cons (bs : List UInt8) :
    Utf8.decode (slashByte :: bs) = CodePoint.ofChar '/' :: Utf8.decode bs :=
  Utf8.decode_cons_of_lt (b := slashByte) (by decide) bs

theorem encode_slash_cons (t : Text) :
    Utf8.encode (CodePoint.ofChar '/' :: t) = slashByte :: Utf8.encode t :=
  Utf8.encode_append_of_forall_not_isSurrogate (s := [CodePoint.ofChar '/']) (by decide) t

theorem encode_filePrefix_append (t : Text) :
    Percent.encode pathSafe (filePrefix ++ t) = filePrefix ++ Percent.encode pathSafe t := by
  have hpre : ∀ c ∈ filePrefix, ¬c.isSurrogate := by decide
  rw [Percent.encode, Utf8.encode_append_of_forall_not_isSurrogate hpre, Percent.spellAll_append]
  rfl

/-- The bytes of the prefix. -/
def prefixBytes : List UInt8 := Utf8.encode filePrefix

/-- The bytes that the path of a POSIX path's URI spells. -/
def posixBytes (p : Text) : List UInt8 :=
  List.replicate (p.takeWhile Path.Posix.isSlash).length slashByte ++
    List.intercalate [slashByte]
      ((Text.words Path.Posix.isSlash (p.dropWhile Path.Posix.isSlash)).map Utf8.encode)

theorem spellAll_intercalate : ∀ bss : List (List UInt8),
    List.intercalate "/" (bss.map (Percent.spellAll "/")) =
      Percent.spellAll "/" (List.intercalate [slashByte] bss)
  | [] => rfl
  | [bs] => by rw [List.map_singleton, List.intercalate_singleton, List.intercalate_singleton]
  | as :: bs :: bss => by
    have ih := spellAll_intercalate (bs :: bss)
    rw [List.map_cons] at ih
    rw [List.map_cons, List.map_cons, List.intercalate_cons_cons, ih, List.intercalate_cons_cons,
      Percent.spellAll_append, Percent.spellAll_append]
    rfl

theorem takeWhile_isSlash : ∀ p : Text, p.takeWhile Path.Posix.isSlash =
    Percent.spellAll "/" (List.replicate (p.takeWhile Path.Posix.isSlash).length slashByte)
  | [] => rfl
  | c :: p => by
    by_cases h : Path.Posix.isSlash c
    · have ih := takeWhile_isSlash p
      obtain rfl := decide_eq_true_eq.mp h
      rw [List.takeWhile_cons_of_pos h, List.length_cons, List.replicate_succ]
      exact congrArg (CodePoint.ofChar '/' :: ·) ih
    · rw [List.takeWhile_cons_of_neg h]
      rfl

theorem posixPath_eq (p : Text) : posixPath p = Percent.spellAll "/" (posixBytes p) := by
  rw [posixPath, posixBytes, Percent.spellAll_append, ← takeWhile_isSlash, ← spellAll_intercalate,
    List.map_map]
  rfl

/-- The URI of a POSIX path is the prefix and one escaping of the bytes of the path. -/
theorem ofPath_posix_eq (p : Text) : (ofPath .posix p).text =
    filePrefix ++ Percent.spellAll pathSafe (posixBytes p) := by
  have hpre : Percent.Spells filePrefix prefixBytes :=
    Percent.spells_spellAll percent_notMem_pathSafe prefixBytes
  have hpath : Percent.Spells (posixPath p) (posixBytes p) := by
    rw [posixPath_eq]
    exact Percent.spells_spellAll (by decide) _
  rw [ofPath, canonical_of_spells (hpre.append hpath), Percent.spellAll_append]
  rfl

/-! ### The path of a path's URI -/

/-- A spelling of bytes that opens with a slash is all path. -/
theorem split_spelling (bs : List UInt8) :
    split ⟨filePrefix ++ Percent.spellAll pathSafe (slashByte :: bs)⟩ =
      .ok ⟨fileScheme, [], Percent.spellAll pathSafe (slashByte :: bs), none, none⟩ := by
  have hcanonical : IsCanonical (Percent.spellAll pathSafe bs) := isCanonical_iff.mpr ⟨bs, rfl⟩
  exact split_filePrefix_append (isPathCharacter_of_isCanonical hcanonical)

/-- The URI of an absolute path names what its bytes decode to. -/
theorem toPath_posix_spelling (bs : List UInt8) :
    toPath .posix ⟨filePrefix ++ Percent.spellAll pathSafe (slashByte :: bs)⟩ =
      .ok (Utf8.decode (slashByte :: bs)) := by
  rw [toPath, split_spelling]
  dsimp only
  rw [if_pos rfl, Parts.posixFile, Percent.decode_spellAll percent_notMem_pathSafe]
  rfl

theorem exists_posixBytes_eq (p : Text) :
    ∃ bs, posixBytes (CodePoint.ofChar '/' :: p) = slashByte :: bs := by
  rw [posixBytes, List.takeWhile_cons_of_pos Path.Posix.isSlash_slash, List.length_cons,
    List.replicate_succ]
  exact ⟨_, rfl⟩

/-- The URI of a path that is not empty spells at least one byte. -/
theorem posixBytes_ne_nil (h : p ≠ []) : posixBytes p ≠ [] := by
  obtain ⟨x, t, rfl⟩ := List.exists_cons_of_ne_nil h
  by_cases hx : Path.Posix.isSlash x
  · obtain rfl := decide_eq_true_eq.mp hx
    obtain ⟨bs, hbs⟩ := exists_posixBytes_eq t
    rw [hbs]
    exact List.cons_ne_nil _ _
  · -- without a slash in front, the path opens with a segment
    obtain ⟨ds, hds⟩ := Text.exists_splitOnP_eq Path.Posix.isSlash (x :: t)
    rw [List.takeWhile_cons_of_pos (by simp [hx])] at hds
    obtain ⟨b, bs, hb⟩ := List.exists_cons_of_ne_nil
      (Utf8.encode_ne_nil (List.cons_ne_nil x (t.takeWhile (!Path.Posix.isSlash ·))))
    simp [posixBytes, List.dropWhile_cons_of_neg hx, Text.words, hds, hb]

theorem encode_intercalate : ∀ {cs : List Text}, Utf8.OfBytes (List.intercalate "/" cs) →
    Utf8.encode (List.intercalate "/" cs) = List.intercalate [slashByte] (cs.map Utf8.encode)
  | [], _ => rfl
  | [c], _ => by rw [List.map_singleton, List.intercalate_singleton, List.intercalate_singleton]
  | c :: d :: cs, h => by
    rw [List.intercalate_cons_cons] at h ⊢
    have ih := encode_intercalate h.of_append.2
    rw [List.map_cons] at ih
    rw [h.encode_append, h.of_append.1.encode_append, ih, List.map_cons, List.map_cons,
      List.intercalate_cons_cons]
    rfl

/-- The bytes of a path in normal form are those its URI spells. -/
theorem posixBytes_normal {p : Text} (h : Utf8.OfBytes (Path.Posix.normal p)) :
    posixBytes (Path.Posix.normal p) = Utf8.encode (Path.Posix.normal p) := by
  rw [Path.Posix.normal_eq] at h ⊢
  obtain ⟨ds, hds, -, hw⟩ := Path.Posix.exists_segments (r := Path.Posix.root p)
    fun _ => Path.Posix.isComponent_of_mem_resolve
  have hroot : Utf8.encode (Path.Posix.root p).text =
      List.replicate (Path.Posix.root p).text.length slashByte := by
    cases Path.Posix.root p <;> rfl
  rw [hw] at h ⊢
  rw [posixBytes, Path.Posix.takeWhile_text_append hds, Path.Posix.dropWhile_text_append hds,
    h.encode_append, hroot, encode_intercalate h.of_append.2]
  exact congrArg (fun cs => _ ++ List.intercalate _ (cs.map Utf8.encode))
    (Text.words_intercalate Path.Posix.isSlash_slash hds)

end Locus.Uri
