import Locus.Proofs.Path.Windows
import Locus.Proofs.Uri.File
import Locus.Proofs.Uri.Unescape

/-!
File URIs of Windows paths. The drive goes in as it is and the segments escaped, and before the URI
is made canonical all of it is unescaped; so the URI stands for the segments as they were, but for
the drive with its escapes undone. Coming back, the slash in front is dropped and the others become
backslashes.
-/

namespace Locus.Uri

open CodePoint (ofChar)
open Path.Windows (Apart backslashed cutDrive isSep joined)
open Utf8 (OfBytes)

variable {safe p q m : Text} {rooted : Bool} {ds : List Text}

/-! ### What the text before escaping stands for -/

theorem decode_append_slash (s t : Text) :
    Percent.decode (s ++ ofChar '/' :: t) = Percent.decode s ++ ofChar '/' :: Percent.decode t :=
  Percent.decode_append_cons (by decide) (by decide) (by decide) s t

theorem decode_slash_cons (t : Text) :
    Percent.decode (ofChar '/' :: t) = ofChar '/' :: Percent.decode t :=
  decode_append_slash [] t

theorem decode_filePrefix_append (t : Text) :
    Percent.decode (filePrefix ++ t) = filePrefix ++ Percent.decode t :=
  decode_append_slash "file:/" t

theorem decode_append_colon (s t : Text) :
    Percent.decode (s ++ ofChar ':' :: t) = Percent.decode s ++ ofChar ':' :: Percent.decode t :=
  Percent.decode_append_cons (by decide) (by decide) (by decide) s t

theorem decode_intercalate (hsafe : ofChar '%' ∉ safe) : ∀ {ds : List Text}, (∀ d ∈ ds, OfBytes d) →
    Percent.decode (List.intercalate [ofChar '/'] (ds.map (Percent.encode safe))) =
      List.intercalate [ofChar '/'] ds
  | [], _ => rfl
  | [d], h => by
    rw [List.map_singleton, List.intercalate_singleton, List.intercalate_singleton,
      Percent.decode_encode hsafe (h d List.mem_cons_self)]
  | d :: e :: ds, h => by
    have ih := decode_intercalate hsafe fun f hf => h f (List.mem_cons_of_mem d hf)
    rw [List.map_cons] at ih
    rw [List.map_cons, List.map_cons, List.intercalate_cons_cons, List.intercalate_cons_cons,
      List.append_assoc, List.append_assoc, List.singleton_append, List.singleton_append,
      decode_append_slash, Percent.decode_encode hsafe (h d List.mem_cons_self), ih]

theorem decode_drive (c : CodePoint) : Percent.decode [c, ofChar ':'] = [c, ofChar ':'] := by
  have := decode_append_colon [c] []
  rwa [Percent.decode_singleton] at this

/-- The drive is unescaped and the segments come back as they were. -/
theorem decode_append_joined (hsafe : ofChar '%' ∉ safe) (h : Apart q rooted ds)
    (hds : ∀ d ∈ ds, OfBytes d) :
    Percent.decode (q ++ joined '/' rooted (ds.map (Percent.encode safe))) =
      Percent.decode q ++ joined '/' rooted ds := by
  have hseps := decode_intercalate hsafe hds
  cases rooted with
  | true => exact (decode_append_slash q _).trans (congrArg (_ ++ ofChar '/' :: ·) hseps)
  | false =>
    rcases h with rfl | ⟨c, rfl⟩ | hf | rfl
    · exact hseps
    · rw [decode_drive]
      refine (decode_append_colon [c] _).trans ?_
      rw [Percent.decode_singleton]
      exact congrArg ([c, ofChar ':'] ++ ·) hseps
    · cases hf
    · exact (congrArg Percent.decode (List.append_nil q)).trans (List.append_nil _).symm

theorem apart_decode (h : Apart q rooted ds) : Apart (Percent.decode q) rooted ds := by
  rcases h with rfl | ⟨c, rfl⟩ | h
  · exact .inl rfl
  · exact .inr (.inl ⟨c, decode_drive c⟩)
  · exact .inr (.inr h)

theorem windowsPath_eq (hcut : cutDrive p = (q, joined '\\' rooted ds))
    (hds : ∀ d ∈ ds, d.IsSegment isSep) : windowsPath p =
      ofChar '/' :: (q ++ joined '/' rooted (ds.map (Percent.encode ":\\/"))) := by
  rw [windowsPath, hcut]
  dsimp only
  rw [Path.Windows.isRooted_joined Path.Windows.isSep_backslash rooted hds,
    Path.Windows.words_joined Path.Windows.isSep_backslash rooted hds, List.append_assoc, List.append_assoc]
  rfl

theorem ofPath_windows_eq (hcut : cutDrive p = (q, joined '\\' rooted ds))
    (hds : ∀ d ∈ ds, d.IsSegment isSep) (hbytes : ∀ d ∈ ds, OfBytes d) :
    (ofPath .windows p).text = Percent.encode pathSafe
      (filePrefix ++ ofChar '/' :: (Percent.decode q ++ joined '/' rooted ds)) := by
  rw [ofPath, canonical, windowsPath_eq hcut hds]
  dsimp only
  rw [decode_filePrefix_append, decode_slash_cons,
    decode_append_joined (by decide) (Path.Windows.apart_joined hcut hds) hbytes]

/-! ### The path that it names -/

/-- The URI of any Windows path spells bytes that open with a slash. -/
theorem exists_ofPath_windows_eq (p : Text) : ∃ bs, (ofPath .windows p).text =
    filePrefix ++ Percent.spellAll pathSafe (slashByte :: bs) := by
  obtain ⟨r, hr⟩ : ∃ r, windowsPath p = ofChar '/' :: r := ⟨_, rfl⟩
  refine ⟨Utf8.encode (Percent.decode r), ?_⟩
  rw [ofPath, canonical]
  dsimp only
  rw [hr, decode_filePrefix_append, decode_slash_cons, encode_filePrefix_append, Percent.encode,
    encode_slash_cons]

theorem toPath_windows_spelling (bs : List UInt8) :
    toPath .windows ⟨filePrefix ++ Percent.spellAll pathSafe (slashByte :: bs)⟩ =
      .ok (backslashed (Utf8.decode bs)) := by
  have hdecode : Percent.decode (Percent.spellAll pathSafe (slashByte :: bs)) =
      ofChar '/' :: Utf8.decode bs := by
    rw [Percent.decode_spellAll percent_notMem_pathSafe, decode_slashByte_cons]
  rw [toPath, split_spelling]
  dsimp only
  rw [if_pos rfl, Parts.windowsFile, hdecode]
  rfl

/-- A spelling that opens with a slash names a file in either style. -/
theorem exists_toPath_spelling (c : PathStyle) (bs : List UInt8) :
    ∃ p, toPath c ⟨filePrefix ++ Percent.spellAll pathSafe (slashByte :: bs)⟩ = .ok p := by
  cases c with
  | posix => exact ⟨_, toPath_posix_spelling bs⟩
  | windows => exact ⟨_, toPath_windows_spelling bs⟩

end Locus.Uri
