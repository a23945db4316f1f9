import Locus.File.Identity
import Locus.Proofs.Uri.File

/-!
Identities and their URIs. The URI of an absolute path leads back to the path exactly when some
bytes decode to the path, since a URI spells bytes; and an identity is found again from its URI.
-/

namespace Locus.FileId

open Path.Posix (normal_posix)
open Utf8 (OfBytes)

variable {p s : Text}

theorem emptyUri_text : emptyUri.text = Uri.filePrefix :=
  congrArg CanonicalUri.text (Uri.canonical_spellAll Uri.prefixBytes)

theorem ofRaw_of_ne_nil (c : PathStyle) (h : s ≠ []) :
    ofRaw c s = ⟨Path.normal c s, Path.normal c s, Uri.ofPath c (Path.normal c s)⟩ := if_neg h

/-- A URI with a path is not that of the empty path. -/
theorem pathOf_of_text_eq {u : Uri} {bs : List UInt8} (c : PathStyle)
    (h : u.text = Uri.filePrefix ++ Percent.spellAll Uri.pathSafe (Uri.slashByte :: bs)) :
    pathOf c u = u.toPath c := by
  have hne : u.text ≠ emptyUri.text := by
    rw [h, emptyUri_text]
    exact fun he => nomatch List.append_right_eq_self.mp he
  rw [pathOf, if_neg hne]

/-- The URI of an absolute path names what the bytes it spells decode to. -/
theorem pathOf_ofPath (h : p.head? = some (CodePoint.ofChar '/')) :
    pathOf .posix (Uri.ofPath .posix p).toUri = .ok (Utf8.decode (Uri.posixBytes p)) := by
  obtain ⟨q, rfl⟩ := List.head?_eq_some_iff.mp h
  obtain ⟨bs, hbs⟩ := Uri.exists_posixBytes_eq q
  have htext : (Uri.ofPath .posix (CodePoint.ofChar '/' :: q)).toUri.text =
      Uri.filePrefix ++ Percent.spellAll Uri.pathSafe (Uri.slashByte :: bs) := by
    rw [CanonicalUri.toUri, Uri.ofPath_posix_eq, hbs]
  rw [pathOf_of_text_eq .posix htext, hbs, ← Uri.toPath_posix_spelling, ← htext]

/-- The URI of an absolute path in normal form leads back to it if and only if the path has bytes;
if the path as it was given has bytes, its identity is found again, and it has them if none of its
code points is a surrogate. -/
theorem posix_roundtrip (hs : s.head? = some (CodePoint.ofChar '/')) :
    (pathOf .posix (Uri.ofPath .posix (Path.normal .posix s)).toUri = .ok (Path.normal .posix s) ↔
        OfBytes (Path.normal .posix s)) ∧
      (OfBytes s → ofUri .posix (ofRaw .posix s).uri = ofRaw .posix s) ∧
      ((∀ c ∈ s, ¬c.isSurrogate) → OfBytes s) := by
  have hne : s ≠ [] := by
    rintro rfl
    cases hs
  have hpath := pathOf_ofPath (Path.Posix.head?_normal hs)
  rw [normal_posix hne]
  have hiff : pathOf .posix (Uri.ofPath .posix (Path.Posix.normal s)).toUri =
      .ok (Path.Posix.normal s) ↔ OfBytes (Path.Posix.normal s) := by
    rw [hpath]
    constructor
    · intro h
      exact ⟨_, Except.ok.inj h⟩
    · intro h
      rw [Uri.posixBytes_normal h, h.decode_encode]
  refine ⟨hiff, ?_, Utf8.ofBytes_of_forall_not_isSurrogate⟩
  intro hbytes
  have hback := hiff.mpr (Path.Posix.ofBytes_normal hbytes)
  have hnormal : Path.normal .posix (Path.Posix.normal s) = Path.Posix.normal s := by
    rw [normal_posix (Path.Posix.normal_ne_nil s), Path.Posix.normal_normal]
  rw [ofRaw_of_ne_nil .posix hne, normal_posix hne, ofUri, hback]
  dsimp only
  rw [ofRaw_of_ne_nil .posix (Path.Posix.normal_ne_nil s), hnormal]

/-- A stray byte survives, and what looks like an escape is a name like others; a surrogate that
stands for no byte is lost. -/
theorem posix_roundtrip_of_surrogates :
    ofUri .posix (ofRaw .posix ("//a/../%41é?#" ++ [Utf8.stray 0xFF])).uri =
        ofRaw .posix ("//a/../%41é?#" ++ [Utf8.stray 0xFF]) ∧
      let lone : Text := [CodePoint.ofChar '/', ⟨0xD800, by decide⟩]
      pathOf .posix (Uri.ofPath .posix (Path.normal .posix lone)).toUri ≠
        .ok (Path.normal .posix lone) := by
  have hbytes : OfBytes ("//a/../%41é?#" ++ [Utf8.stray 0xFF]) :=
    ⟨[0x2F, 0x2F, 0x61, 0x2F, 0x2E, 0x2E, 0x2F, 0x25, 0x34, 0x31, 0xC3, 0xA9, 0x3F, 0x23, 0xFF],
      by decide⟩
  refine ⟨(posix_roundtrip rfl).2.1 hbytes, ?_⟩
  intro lone h
  have hsome := ((posix_roundtrip rfl).1.mp h).encode?_eq_some
  have hnone : Utf8.encode? (Path.normal .posix lone) = none := by decide
  rw [hnone] at hsome
  cases hsome

end Locus.FileId
