import Locus.Proofs.File.Key
import Locus.Proofs.File.Windows
import Locus.Proofs.Path.Fixed
import Locus.Proofs.Uri.Named

/-!
Identities that come from URIs. What a canonical URI names has bytes, and so has the path that stands
for a URI which names none. So the identity of an absolute POSIX path, and that of a Windows path
which is its own normal form and whose drive holds no escape, is found again from its URI. The URI of
a relative POSIX path takes its first component for an authority, and names the path behind two slashes.
-/

namespace Locus

open CodePoint (ofChar)
open Utf8 (OfBytes)

namespace FileId

variable {p : Text} {c : PathStyle}

/-! ### Identities from URIs -/

theorem ofBytes_of_pathOf {bs : List UInt8}
    (h : pathOf c ⟨Percent.spellAll Uri.pathSafe bs⟩ = .ok p) : OfBytes p := by
  rw [pathOf] at h
  split at h
  · obtain rfl := Except.ok.inj h
    exact Utf8.ofBytes_nil
  · exact Uri.ofBytes_of_toPath h

/-- The identity from a canonical URI is that of a path of bytes. -/
theorem exists_ofUri_eq (c : PathStyle) (u : Uri) :
    ∃ p, OfBytes p ∧ ofUri c u.canonical = ofRaw c p := by
  have hspelled : u.canonical.toUri =
      ⟨Percent.spellAll Uri.pathSafe (Utf8.encode (Percent.decode u.text))⟩ := rfl
  rw [ofUri, hspelled]
  split
  · next p hp => exact ⟨p, ofBytes_of_pathOf hp, rfl⟩
  · exact ⟨unknownPath, Utf8.ofBytes_of_forall_not_isSurrogate (by decide), rfl⟩

/-- A URI that names no file has the unknown path, which is its own normal form in either style. -/
theorem path_ofUri_of_toPath_eq_error {u : CanonicalUri} {reason : Uri.Rejection}
    (h : u.toUri.toPath c = .error reason) : (ofUri c u).path = unknownPath := by
  have hne : u.toUri.text ≠ emptyUri.text := by
    intro he
    have hempty : u.toUri = emptyUri.toUri := congrArg Uri.mk he
    rw [hempty] at h
    cases c <;> cases h
  rw [ofUri, pathOf, if_neg hne, h, path_ofRaw]
  cases c with
  | posix => decide
  | windows => decide

theorem ofUri_empty (c : PathStyle) : ofUri c empty.uri = empty := by
  have hpath : pathOf c empty.uri.toUri = .ok [] := if_pos rfl
  rw [ofUri, hpath]
  rfl

theorem ofUri_of_path_eq_nil (h : (ofRaw c p).path = []) : ofUri c (ofRaw c p).uri = ofRaw c p := by
  obtain rfl := path_ofRaw_eq_nil_iff.mp h
  exact ofUri_empty c

/-! ### POSIX paths -/

/-- The identity of an absolute path of bytes is found again. -/
theorem ofUri_ofRaw_posix (hp : OfBytes p)
    (habs : (ofRaw .posix p).path.head? = some (ofChar '/')) :
    ofUri .posix (ofRaw .posix p).uri = ofRaw .posix p := by
  have hne : p ≠ [] := by
    rintro rfl
    cases habs
  rw [path_ofRaw, Path.Posix.normal_posix hne] at habs
  have hbytes := Path.Posix.ofBytes_normal hp
  rw [ofRaw_of_ne_nil .posix hne, Path.Posix.normal_posix hne, ofUri, pathOf_ofPath habs,
    Uri.posixBytes_normal hbytes, hbytes.decode_encode]
  dsimp only
  rw [ofRaw_of_ne_nil .posix (Path.Posix.normal_ne_nil p),
    Path.Posix.normal_posix (Path.Posix.normal_ne_nil p), Path.Posix.normal_normal]

/-- The URI of a relative path names the path behind two slashes. -/
theorem ofUri_ofRaw_posix_of_relative (hp : OfBytes p) (hne : (ofRaw .posix p).path ≠ [])
    (hrel : (ofRaw .posix p).path.head? ≠ some (ofChar '/')) :
    ofUri .posix (ofRaw .posix p).uri = ofRaw .posix ("//" ++ (ofRaw .posix p).path) := by
  have hbytes := ofBytes_path_ofRaw hp
  have htext := uri_ofRaw_posix hp
  have hpath : pathOf .posix (ofRaw .posix p).uri.toUri = .ok ("//" ++ (ofRaw .posix p).path) := by
    have hsentinel : (ofRaw .posix p).uri.toUri.text ≠ emptyUri.text := by
      rw [CanonicalUri.toUri, htext, emptyUri_text, Ne, List.append_right_eq_self]
      intro he
      have hdecode := Percent.decode_encode Uri.percent_notMem_pathSafe hbytes
      rw [he] at hdecode
      exact hne hdecode.symm
    rw [pathOf, if_neg hsentinel, CanonicalUri.toUri, htext]
    exact Uri.toPath_posix_encode hbytes hne hrel
  rw [ofUri, hpath]

/-- A path behind two slashes is absolute, and stays so. -/
theorem head?_path_ofRaw_slashes (p : Text) :
    (ofRaw .posix ("//" ++ p)).path.head? = some (ofChar '/') := by
  have hne : ("//" : Text) ++ p ≠ [] := List.cons_ne_nil _ _
  rw [path_ofRaw, Path.Posix.normal_posix hne]
  exact Path.Posix.head?_normal rfl

/-! ### Windows paths -/

/-- The identity of a path of bytes is found again if its drive holds no escape and its path is its
own normal form. -/
theorem ofUri_ofRaw_windows (hp : OfBytes p) (hne : p ≠ [])
    (hdotted : ¬Path.Windows.OpensDotted (ofRaw .windows p).path)
    (hescape : ¬Percent.HoldsEscape (Path.Windows.cutDrive (ofRaw .windows p).path).1) :
    ofUri .windows (ofRaw .windows p).uri = ofRaw .windows p := by
  rw [path_ofRaw, Path.Windows.normal_windows hne] at hdotted hescape
  obtain ⟨q, rooted, ds, hds, hcut⟩ := Path.Windows.exists_cutDrive_normal p
  have hn := Path.Windows.append_of_cutDrive hcut
  have hbytes := Path.Windows.ofBytes_normal hp
  rw [hn] at hbytes
  obtain ⟨hq, hrest⟩ := hbytes.of_append
  rw [hcut] at hescape
  have hdrive : Percent.decode q = q := Percent.decode_eq_self hescape
  rw [← hdrive] at hq
  have hback := pathOf_ofPath_windows hcut hds hq (ofBytes_of_mem_joined hrest hds)
  rw [hdrive, backslashed_drive hcut, ← hn] at hback
  have hfixed : Path.Windows.normal (Path.Windows.normal p) = Path.Windows.normal p := by
    rcases Path.Windows.normal_normal_cases p with h | ⟨c, r, h, hr, -⟩
    · exact h
    · exact absurd ⟨c, r, h, hr⟩ hdotted
  rw [ofRaw_of_ne_nil .windows hne, Path.Windows.normal_windows hne, ofUri, hback]
  dsimp only
  rw [ofRaw_of_ne_nil .windows (Path.Windows.normal_ne_nil p),
    Path.Windows.normal_windows (Path.Windows.normal_ne_nil p), hfixed]

/-! ### Stability -/

/-- The identity from a URI, found again from its own URI. Under POSIX rules it is the same if its path
is empty or absolute; if the path is relative, as that of a URI which names no file is, it is another
one, that of the path behind two slashes, and from then on the same. Under Windows rules it is the
same if the path does not open dotted and no escape stands in its drive. In either style a URI that
names no file has the unknown path. -/
theorem ofUri_stable (u : Uri) :
    (∀ n, ofUri .posix u.canonical = n →
        (n.path = [] ∨ n.path.head? = some (ofChar '/') → ofUri .posix n.uri = n) ∧
        (n.path ≠ [] → n.path.head? ≠ some (ofChar '/') →
          ofUri .posix n.uri = ofRaw .posix ("//" ++ n.path) ∧ ¬ofUri .posix n.uri == n ∧
            ofUri .posix (ofUri .posix n.uri).uri = ofUri .posix n.uri)) ∧
      (∀ n, ofUri .windows u.canonical = n → ¬Path.Windows.OpensDotted n.path →
        ¬Percent.HoldsEscape (Path.Windows.cutDrive n.path).1 → ofUri .windows n.uri = n) ∧
      ∀ c reason, u.canonical.toUri.toPath c = .error reason →
        (ofUri c u.canonical).path = "<unknown>" := by
  refine ⟨?_, ?_, fun c reason => path_ofUri_of_toPath_eq_error⟩
  · rintro _ rfl
    obtain ⟨p, hp, hn⟩ := exists_ofUri_eq .posix u
    rw [hn]
    refine ⟨?_, ?_⟩
    · rintro (hnil | habs)
      · exact ofUri_of_path_eq_nil hnil
      · exact ofUri_ofRaw_posix hp habs
    · intro hne hrel
      have hslashes : OfBytes ("//" ++ (ofRaw .posix p).path) :=
        Path.Posix.ofBytes_text_append (r := .double) (ofBytes_path_ofRaw hp)
      have habs := head?_path_ofRaw_slashes (ofRaw .posix p).path
      rw [ofUri_ofRaw_posix_of_relative hp hne hrel]
      refine ⟨rfl, ?_, ofUri_ofRaw_posix hslashes habs⟩
      rw [beq_iff]
      intro he
      rw [he] at habs
      exact hrel habs
  · rintro _ rfl hdotted hescape
    obtain ⟨p, hp, hn⟩ := exists_ofUri_eq .windows u
    rw [hn] at hdotted hescape ⊢
    by_cases hnil : p = []
    · subst hnil
      exact ofUri_of_path_eq_nil rfl
    · exact ofUri_ofRaw_windows hp hnil hdotted hescape

/-- A server, the empty path and a relative path under POSIX rules; an escape of an escape and a URI
that names no file under Windows rules. -/
theorem ofUri_stable_of_uris :
    let server := ofUri .posix (Uri.mk "file://h%2Fx/a/../%2541").canonical
    let blank := ofUri .posix (Uri.mk "file://").canonical
    let relative := ofUri .posix (Uri.mk "file:a/b").canonical
    let letter := ofUri .windows (Uri.mk "file:///C:/a/..%2f%2541").canonical
    let unknown := ofUri .windows (Uri.mk "http://a").canonical
    ofUri .posix server.uri = server ∧ ofUri .posix blank.uri = blank ∧
      ofUri .posix relative.uri = ofRaw .posix ("//" ++ relative.path) ∧
      ofUri .windows letter.uri = letter ∧ ofUri .windows unknown.uri = unknown ∧
      unknown.path = "<unknown>" := by
  intro server blank relative letter unknown
  have hposix : ∀ u : Uri, _ := fun u => (ofUri_stable u).1
  have hwindows : ∀ u : Uri, _ := fun u => (ofUri_stable u).2.1
  refine ⟨?_, ?_, ?_, ?_, ?_, ?_⟩
  · exact (hposix _ server rfl).1 (.inr (by decide))
  · exact (hposix _ blank rfl).1 (.inl (by decide))
  · exact ((hposix _ relative rfl).2 (by decide) (by decide)).1
  · exact hwindows _ letter rfl (Path.Windows.not_opensDotted (by decide))
      (Percent.not_holdsEscape_of_notMem (by decide))
  · exact hwindows _ unknown rfl (Path.Windows.not_opensDotted (by decide))
      (Percent.not_holdsEscape_of_notMem (by decide))
  · exact (ofUri_stable _).2.2 .windows .notFile (by decide)

/-- The relative path `a` has the URI of a server `a`, and is not found again. -/
theorem ofUri_not_stable_of_relative :
    let n := ofUri .posix (Uri.mk "file:a").canonical
    n.path = "a" ∧ n.uri.text = "file://a" ∧ (ofUri .posix n.uri).path = "//a" ∧
      ¬ofUri .posix n.uri == n := by
  decide

end FileId

end Locus
