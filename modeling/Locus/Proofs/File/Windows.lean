import Locus.Proofs.File.Identity
import Locus.Proofs.Uri.Windows

/-!
Windows paths and their URIs. The URI of a normal form leads back to the path with its drive unescaped.
A drive letter holds no escape, so paths without server and share come back as they were; those
with a server and a share come back if and only if neither holds an escape.
-/

namespace Locus.FileId

open Path.Windows (backslashed cutDrive isSep joined normal_windows)
open Percent (HoldsEscape)
open Utf8 (OfBytes)

variable {p q s : Text} {rooted : Bool} {ds : List Text}

/-- The URI of a path leads back to the path with its drive unescaped. -/
theorem pathOf_ofPath_windows (hcut : cutDrive p = (q, joined '\\' rooted ds))
    (hds : ∀ d ∈ ds, d.IsSegment isSep) (hq : OfBytes (Percent.decode q))
    (hbytes : ∀ d ∈ ds, OfBytes d) : pathOf .windows (Uri.ofPath .windows p).toUri =
      .ok (backslashed (Percent.decode q) ++ joined '\\' rooted ds) := by
  have hall : OfBytes (Percent.decode q ++ joined '/' rooted ds) :=
    Path.Windows.ofBytes_append_joined (by decide) hq hbytes
      (Uri.apart_decode (Path.Windows.apart_joined hcut hds))
  have htext : (Uri.ofPath .windows p).toUri.text = Uri.filePrefix ++
      Percent.spellAll Uri.pathSafe
        (Uri.slashByte :: Utf8.encode (Percent.decode q ++ joined '/' rooted ds)) := by
    rw [CanonicalUri.toUri, Uri.ofPath_windows_eq hcut hds hbytes,
      Uri.encode_filePrefix_append, Percent.encode, Uri.encode_slash_cons]
  have hback := Uri.toPath_windows_spelling
    (Utf8.encode (Percent.decode q ++ joined '/' rooted ds))
  rw [hall.decode_encode, Path.Windows.backslashed_append,
    Path.Windows.backslashed_joined hds] at hback
  rw [pathOf_of_text_eq .windows htext, ← hback, ← htext]

/-- The drive of a normal form has backslashes only. -/
theorem backslashed_drive (hcut : cutDrive (Path.Windows.normal s) = (q, p)) :
    backslashed q = q := by
  refine Path.Windows.backslashed_eq_self ?_
  intro c hc
  refine Path.Windows.ne_slash_of_mem_normal (p := s) c ?_
  rw [Path.Windows.append_of_cutDrive hcut]
  exact List.mem_append_left p hc

theorem ofBytes_of_mem_joined (h : OfBytes (joined '\\' rooted ds))
    (hds : ∀ d ∈ ds, d.IsSegment isSep) : ∀ d ∈ ds, OfBytes d := by
  intro d hd
  rw [← Path.Windows.words_joined Path.Windows.isSep_backslash rooted hds] at hd
  exact h.of_infix (Text.isInfix_of_mem_splitOnP (List.mem_filter.mp hd).1)

/-- A drive with an escape does not come back as it was. -/
theorem backslashed_decode_eq_self_iff (h : backslashed q = q) :
    backslashed (Percent.decode q) = q ↔ ¬HoldsEscape q := by
  constructor
  · intro heq hescape
    have hlt := Percent.length_decode_lt hescape
    have hlen := congrArg List.length heq
    rw [backslashed, List.length_map] at hlen
    omega
  · intro hescape
    rw [Percent.decode_eq_self hescape, h]

/-- The URI of a path with server and share leads back to the path, with server and share unescaped;
so it leads to the path itself if and only if neither holds an escape. -/
theorem windows_unc_roundtrip_iff {n drive rest : Text} (hs : ∀ c ∈ s, ¬c.isSurrogate)
    (hn : Path.normal .windows s = n) (hunc : "\\\\" <+: n) (hcut : cutDrive n = (drive, rest)) :
    pathOf .windows (Uri.ofPath .windows n).toUri =
        .ok (backslashed (Percent.decode drive) ++ rest) ∧
      (pathOf .windows (Uri.ofPath .windows n).toUri = .ok n ↔ ¬HoldsEscape drive) := by
  subst hn
  have hne : s ≠ [] := by
    rintro rfl
    exact absurd (List.prefix_nil.mp hunc) (by decide)
  rw [normal_windows hne] at hcut ⊢
  obtain ⟨q, rooted, ds, hds, hjoined⟩ := Path.Windows.exists_cutDrive_normal s
  obtain ⟨rfl, rfl⟩ := Prod.mk.inj (hcut.symm.trans hjoined)
  have hn := Path.Windows.append_of_cutDrive hcut
  have hplain : ∀ c ∈ drive ++ joined '\\' rooted ds, ¬c.isSurrogate := by
    intro c hc
    rw [← hn] at hc
    exact Path.Windows.not_isSurrogate_of_mem_normal hs c hc
  have hdrive : OfBytes (Percent.decode drive) :=
    Percent.ofBytes_decode fun c hc => hplain c (List.mem_append_left _ hc)
  have hrest : OfBytes (joined '\\' rooted ds) :=
    Utf8.ofBytes_of_forall_not_isSurrogate fun c hc => hplain c (List.mem_append_right drive hc)
  have hback := pathOf_ofPath_windows hcut hds hdrive (ofBytes_of_mem_joined hrest hds)
  refine ⟨hback, ?_⟩
  rw [hback, hn, Except.ok.injEq, List.append_cancel_right_eq,
    backslashed_decode_eq_self_iff (backslashed_drive hcut)]

theorem windows_unc_roundtrip_iff_of_names :
    let s : Text := "//né/s#?/x/../%41"
    let drive : Text := "\\\\né\\s#?"
    let rest : Text := "\\%41"
    (∀ c ∈ s, ¬c.isSurrogate) ∧ Path.normal .windows s = drive ++ rest ∧
      "\\\\" <+: drive ++ rest ∧ cutDrive (drive ++ rest) = (drive, rest) ∧
      pathOf .windows (Uri.ofPath .windows (drive ++ rest)).toUri = .ok (drive ++ rest) := by
  intro s drive rest
  have hs : ∀ c ∈ s, ¬c.isSurrogate := by decide
  have hn : Path.normal .windows s = drive ++ rest := by decide
  have hunc : "\\\\" <+: drive ++ rest := by decide
  have hcut : cutDrive (drive ++ rest) = (drive, rest) := by decide
  refine ⟨hs, hn, hunc, hcut, (windows_unc_roundtrip_iff hs hn hunc hcut).2.mpr ?_⟩
  exact Percent.not_holdsEscape_of_notMem (by decide)

/-- The server `%41` comes back as `A`. -/
theorem windows_unc_roundtrip_unescapes_server :
    let s : Text := "\\\\%41\\share\\x"
    (∀ c ∈ s, ¬c.isSurrogate) ∧ Path.normal .windows s = s ∧ "\\\\" <+: s ∧
      pathOf .windows (Uri.ofPath .windows s).toUri = .ok "\\\\A\\share\\x" ∧
      pathOf .windows (Uri.ofPath .windows s).toUri ≠ .ok s := by
  decide

/-- A normal form without server and share is found again from its URI: drive letters, rooted and
relative paths alike. -/
theorem windows_roundtrip {n : Text} (hn : Path.normal .windows s = n) (hne : n ≠ [])
    (hunc : ¬"\\\\" <+: n) :
    (OfBytes s → pathOf .windows (Uri.ofPath .windows n).toUri = .ok n) ∧
      ((∀ c ∈ s, ¬c.isSurrogate) → OfBytes s) := by
  refine ⟨?_, Utf8.ofBytes_of_forall_not_isSurrogate⟩
  intro hs
  subst hn
  have hs' : s ≠ [] := by
    rintro rfl
    exact hne rfl
  rw [normal_windows hs'] at hunc ⊢
  obtain ⟨q, rooted, ds, hds, hcut⟩ := Path.Windows.exists_cutDrive_normal s
  have hn := Path.Windows.append_of_cutDrive hcut
  have hbytes := Path.Windows.ofBytes_normal hs
  rw [hn] at hbytes
  obtain ⟨hq, hrest⟩ := hbytes.of_append
  -- without server and share the drive is too short for an escape
  have hdrive : Percent.decode q = q := by
    rcases Path.Windows.cutDrive_cases hcut with ⟨ht, -⟩ | ⟨-, rfl | ⟨c, rfl⟩⟩
    · exact absurd (Path.Windows.opensTwice_normal_iff.mp ht) hunc
    · rfl
    · exact Uri.decode_drive c
  rw [← hdrive] at hq
  rw [pathOf_ofPath_windows hcut hds hq (ofBytes_of_mem_joined hrest hds), hdrive,
    backslashed_drive hcut, ← hn]

/-- A drive may be any character, a stray byte too, and what looks like an escape is a name. -/
theorem windows_roundtrip_of_stray_drive :
    let s : Text := Utf8.stray 0xFF :: ":a/../%41"
    let n : Text := Utf8.stray 0xFF :: ":%41"
    Path.normal .windows s = n ∧ n ≠ [] ∧ ¬"\\\\" <+: n ∧ OfBytes s ∧
      pathOf .windows (Uri.ofPath .windows n).toUri = .ok n := by
  intro s n
  have hn : Path.normal .windows s = n := by decide
  have hne : n ≠ [] := by decide
  have hunc : ¬"\\\\" <+: n := by decide
  have hs : OfBytes s :=
    ⟨[0xFF, 0x3A, 0x61, 0x2F, 0x2E, 0x2E, 0x2F, 0x25, 0x34, 0x31], by decide⟩
  exact ⟨hn, hne, hunc, hs, (windows_roundtrip hn hne hunc).1 hs⟩

end Locus.FileId
