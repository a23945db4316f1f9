import Locus.Proofs.File.Key
import Locus.Proofs.File.Request
import Locus.Proofs.File.Windows

/-!
The shape of a file's URI. A name may hold marks that open a query, a fragment or an authority,
percent signs, control characters and surrogates that stand for no byte; whatever it holds, the URI
is the prefix and one spelling of bytes that open with a slash, unless the name is a relative POSIX
path. So no name reaches beyond the path of its URI, and the URI names a file again. And every path
that is not empty spells a byte, so the bare prefix is left to the empty path.
-/

namespace Locus

open CodePoint (ofChar)

variable {c : PathStyle} {raw : Text}

/-- The URI of a file is the prefix and a spelling that opens with a slash, but for relative paths
under POSIX rules. -/
theorem FileId.exists_uri_ofRaw_eq (hne : raw ≠ [])
    (habs : c = .posix → raw.head? = some (ofChar '/')) : ∃ bs, (ofRaw c raw).uri.text =
      Uri.filePrefix ++ Percent.spellAll Uri.pathSafe (Uri.slashByte :: bs) := by
  rw [ofRaw_of_ne_nil c hne]
  cases c with
  | windows => exact Uri.exists_ofPath_windows_eq _
  | posix =>
    obtain ⟨p, hp⟩ := List.head?_eq_some_iff.mp (Path.Posix.head?_normal (habs rfl))
    obtain ⟨bs, hbs⟩ := Uri.exists_posixBytes_eq p
    refine ⟨bs, ?_⟩
    rw [Path.Posix.normal_posix hne, Uri.ofPath_posix_eq, hp, hbs]

/-- Every name that is not empty has an identity, and its URI is split into the scheme and an
absolute path: there is no authority, no query and no fragment. So the URI names a file in either
style, and nothing is noted. Under POSIX rules the name is to be absolute. -/
theorem Request.identify_keeps_to_path (hne : raw ≠ [])
    (habs : c = .posix → raw.head? = some (ofChar '/')) :
    ∃ n, identify (.ok c) raw = .ok n ∧
      (∃ path, n.uri.toUri.split = .ok ⟨Uri.fileScheme, [], ofChar '/' :: path, none, none⟩) ∧
      ∀ c', ∃ p, pathOfUri (.ok c') n.uri.toUri = .ofExcept (.ok (some p)) := by
  obtain ⟨bs, hbs⟩ := FileId.exists_uri_ofRaw_eq hne habs
  have huri : (FileId.ofRaw c raw).uri.toUri =
      ⟨Uri.filePrefix ++ Percent.spellAll Uri.pathSafe (Uri.slashByte :: bs)⟩ := congrArg Uri.mk hbs
  refine ⟨FileId.ofRaw c raw, identify_chosen c raw, ⟨Percent.spellAll Uri.pathSafe bs, ?_⟩, ?_⟩
  · rw [huri, Uri.split_spelling]
    rfl
  · intro c'
    obtain ⟨p, hp⟩ := Uri.exists_toPath_spelling c' bs
    refine ⟨p, ?_⟩
    rw [huri, pathOfUri_chosen, hp]
    rfl

/-- A name of marks, with a surrogate that stands for no byte; and a relative name that is taken
for a drive. -/
theorem Request.identify_keeps_to_path_of_marks :
    let marks : Text := ofChar '/' :: ⟨0xD800, by decide⟩ :: Text.ofString "?q#f[@]:%2F\\\t"
    let drive : Text := "%:?a#/../b"
    (∃ n path, identify (.ok .posix) marks = .ok n ∧
        n.uri.toUri.split = .ok ⟨Uri.fileScheme, [], ofChar '/' :: path, none, none⟩) ∧
      ∃ n path, identify (.ok .windows) drive = .ok n ∧
        n.uri.toUri.split = .ok ⟨Uri.fileScheme, [], ofChar '/' :: path, none, none⟩ := by
  intro marks drive
  have hmarks : marks ≠ [] := by decide
  have hdrive : drive ≠ [] := by decide
  obtain ⟨m, hm, ⟨_, hsplit⟩, -⟩ := identify_keeps_to_path (c := .posix) hmarks fun _ => by decide
  obtain ⟨n, hn, ⟨_, hsplit'⟩, -⟩ := identify_keeps_to_path (c := .windows) hdrive nofun
  exact ⟨⟨m, _, hm, hsplit⟩, n, _, hn, hsplit'⟩

/-! ### The URI of the empty path -/

/-- The URI of a path is the bare prefix for the empty path under POSIX rules only. -/
theorem Uri.text_ofPath_eq_filePrefix_iff {p : Text} :
    (ofPath c p).text = filePrefix ↔ c = .posix ∧ p = [] := by
  have hsafe := percent_notMem_pathSafe
  cases c with
  | posix =>
    rw [ofPath_posix_eq, List.append_right_eq_self, Percent.spellAll_eq_nil_iff hsafe]
    constructor
    · intro h
      exact ⟨rfl, not_imp_not.mp posixBytes_ne_nil h⟩
    · rintro ⟨-, rfl⟩
      rfl
  | windows =>
    obtain ⟨bs, hbs⟩ := exists_ofPath_windows_eq p
    rw [hbs, List.append_right_eq_self, Percent.spellAll_eq_nil_iff hsafe]
    simp

/-- The URI of the empty path belongs to no other path, in either style; nor does the empty path
stand for another one. -/
theorem FileId.uri_ofRaw_eq_emptyUri_iff (c : PathStyle) (s : Text) :
    ((ofRaw c s).uri == emptyUri ↔ s = []) ∧ ((ofRaw c s).path = [] ↔ s = []) := by
  refine ⟨?_, path_ofRaw_eq_nil_iff⟩
  rw [uri_beq_iff, emptyUri_text]
  by_cases hs : s = []
  · subst hs
    exact iff_of_true emptyUri_text rfl
  · have hpath := mt (path_ofRaw_eq_nil_iff (c := c)).mp hs
    rw [path_ofRaw] at hpath
    rw [ofRaw_of_ne_nil c hs, Uri.text_ofPath_eq_filePrefix_iff]
    exact iff_of_false (fun h => hpath h.2) hs

end Locus
