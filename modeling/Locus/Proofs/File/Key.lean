import Locus.Proofs.File.Identity
import Locus.Proofs.Path.Windows

/-!
Identities and URIs as keys. What is hashed for an identity is its path, not the spelling that it was
made from, so equal identities have one hash. The URI of a file under POSIX rules is the prefix and
one escaping of its path, the empty path included; and escaping loses nothing of a path that some
bytes decode to. So among such paths identities are equal exactly when their URIs are.
-/

namespace Locus.FileId

open Path.Posix (normal_posix)
open Utf8 (OfBytes)

variable {a b p s : Text} {m n : FileId}

/-! ### Equality and hash -/

theorem beq_iff : m == n ↔ m.path = n.path :=
  beq_iff_eq (a := m.path)

/-- What is hashed for an identity is its path. -/
def HashedByPath (n : FileId) : Prop := n.hashKey = n.path

theorem hashedByPath_ofRaw (c : PathStyle) (raw : Text) : (ofRaw c raw).HashedByPath := by
  unfold ofRaw
  split
  · rfl
  · rfl

/-- However texts are hashed, equal identities have the same hash. -/
theorem hash_eq_of_beq [Hashable Text] (hm : m.HashedByPath) (hn : n.HashedByPath) (h : m == n) :
    hash m = hash n := by
  change hash m.hashKey = hash n.hashKey
  rw [hm, hn, beq_iff.mp h]

/-! ### Paths and URIs -/

theorem path_ofRaw (c : PathStyle) (s : Text) : (ofRaw c s).path = Path.normal c s := by
  by_cases hs : s = []
  · subst hs
    rfl
  · rw [ofRaw_of_ne_nil c hs]

/-- The empty path is that of no other path. -/
theorem path_ofRaw_eq_nil_iff {c : PathStyle} : (ofRaw c s).path = [] ↔ s = [] := by
  constructor
  · intro h
    by_contra hs
    rw [path_ofRaw] at h
    cases c with
    | posix => exact Path.Posix.normal_ne_nil s ((normal_posix hs).symm.trans h)
    | windows => exact Path.Windows.normal_ne_nil s ((Path.Windows.normal_windows hs).symm.trans h)
  · rintro rfl
    rfl

/-- The path of a file is a path of bytes if it was given as one. -/
theorem ofBytes_path_ofRaw (h : OfBytes s) : OfBytes (ofRaw .posix s).path := by
  rw [path_ofRaw]
  by_cases hs : s = []
  · subst hs
    exact Utf8.ofBytes_nil
  · rw [normal_posix hs]
    exact Path.Posix.ofBytes_normal h

/-- What is escaped per segment and made canonical after that is escaped once. -/
theorem ofPath_posix_eq_encode (hne : p ≠ []) (hnormal : Path.normal .posix p = p)
    (h : OfBytes p) : (Uri.ofPath .posix p).text = Uri.filePrefix ++ Percent.encode Uri.pathSafe p := by
  rw [normal_posix hne] at hnormal
  rw [← hnormal] at h
  rw [Uri.ofPath_posix_eq, Percent.encode, ← hnormal, Uri.posixBytes_normal h]

theorem uri_ofRaw_posix (h : OfBytes s) : (ofRaw .posix s).uri.text =
    Uri.filePrefix ++ Percent.encode Uri.pathSafe (ofRaw .posix s).path := by
  by_cases hs : s = []
  · subst hs
    exact emptyUri_text
  · have hpath := ofBytes_path_ofRaw h
    rw [ofRaw_of_ne_nil .posix hs] at hpath ⊢
    rw [normal_posix hs] at hpath ⊢
    refine ofPath_posix_eq_encode (Path.Posix.normal_ne_nil s) ?_ hpath
    rw [normal_posix (Path.Posix.normal_ne_nil s), Path.Posix.normal_normal]

/-- Among paths of bytes, identities are equal if and only if their URIs are; and the URI of a
normal path is the prefix and a single escaping of the path. -/
theorem uri_posix_faithful :
    (∀ a b : Text, OfBytes a → OfBytes b →
        (ofRaw .posix a == ofRaw .posix b ↔ (ofRaw .posix a).uri == (ofRaw .posix b).uri)) ∧
      (∀ p : Text, p ≠ [] → Path.normal .posix p = p → OfBytes p →
        (Uri.ofPath .posix p).text = "file://" ++ Percent.encode Uri.pathSafe p) ∧
      ∀ t : Text, (∀ c ∈ t, ¬c.isSurrogate) → OfBytes t := by
  refine ⟨?_, ?_, fun t => Utf8.ofBytes_of_forall_not_isSurrogate⟩
  · intro a b ha hb
    rw [beq_iff, uri_beq_iff, uri_ofRaw_posix ha, uri_ofRaw_posix hb, List.append_cancel_left_eq,
      Percent.encode_inj Uri.percent_notMem_pathSafe (ofBytes_path_ofRaw ha)
        (ofBytes_path_ofRaw hb)]
  · intro p hne hnormal h
    exact ofPath_posix_eq_encode hne hnormal h

/-- A name that looks like an escape has a URI of its own, and so has the empty path. -/
theorem uri_posix_faithful_of_escape :
    ¬(ofRaw .posix "a%41").uri == (ofRaw .posix "aA").uri ∧
      ¬(ofRaw .posix "").uri == (ofRaw .posix ".").uri ∧
      (Uri.ofPath .posix "/a%41/é?").text = "file://" ++ Percent.encode Uri.pathSafe "/a%41/é?" := by
  obtain ⟨hkey, htext, hbytes⟩ := uri_posix_faithful
  refine ⟨?_, ?_, htext _ (by decide) (by decide) (hbytes _ (by decide))⟩
  · intro h
    have heq := (hkey _ _ (hbytes _ (by decide)) (hbytes _ (by decide))).mpr h
    exact absurd heq (by decide)
  · intro h
    have heq := (hkey _ _ (hbytes _ (by decide)) (hbytes _ (by decide))).mpr h
    exact absurd heq (by decide)

end Locus.FileId
