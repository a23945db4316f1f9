import Locus.Proofs.Path.Walk
import Locus.Proofs.Path.Windows

/-!
The places of Windows paths. A path with a drive keeps it in its normal form, letter by letter but for
the slashes, and the drive ends where it ended before. Behind it the normal form is rooted as the path
is, and means the place that the rest of the path means, whatever the file system holds.
-/

namespace Locus.Path.Windows

open CodePoint (ofChar)

variable {p q r s t : Text}

/-! ### The drive of a path with backslashes -/

theorem isRooted_iff_head? (h : ∀ c ∈ t, c ≠ ofChar '/') :
    isRooted t ↔ t.head? = some (ofChar '\\') := by
  cases t with
  | nil => exact iff_of_false Bool.false_ne_true nofun
  | cons c t =>
    rw [isRooted_cons, isSep_iff, or_iff_left (h c List.mem_cons_self), List.head?_cons,
      Option.some.injEq]

/-- A drive is a character and a colon, or it starts with two backslashes. -/
theorem drive_shape (h : cutDrive (backslashed p) = (q, r)) (hq : q ≠ []) :
    (∃ c, q = [c, ofChar ':']) ∨ "\\\\" <+: q := by
  rcases cutDrive_cases h with ⟨ht, -⟩ | ⟨-, hnil | hcolon⟩
  · have hslash : ∀ c ∈ q, c ≠ ofChar '/' := by
      intro c hc
      refine ne_slash_of_mem_backslashed (p := p) ?_
      rw [append_of_cutDrive h]
      exact List.mem_append_left r hc
    exact .inr ((opensTwice_iff_backslashes hslash).mp (opensTwice_of_cutDrive ht h))
  · exact absurd hnil hq
  · exact .inl hcolon

/-! ### What stands behind the drive -/

/-- The second text is the first one resolved. It opens with a backslash if and only if the first one
does; behind that come a run of `..`, none if there is a backslash, and then names, with one backslash
between two of them; and both walk to the same stack, from the empty one if they are rooted and from
every base if they are not. -/
structure Resolves (rest rest' : Text) : Prop where
  head?_iff : rest'.head? = some (ofChar '\\') ↔ rest.head? = some (ofChar '\\')
  parts : ∃ k names, rest' = joined '\\' (isRooted rest) (List.replicate k up ++ names) ∧
    (∀ c ∈ names, IsComponent isSep c ∧ c ≠ up) ∧ (isRooted rest → k = 0)
  walk_eq : ∀ base : List Text, (isRooted rest → base = []) →
    walk base (components isSep rest') = walk base (components isSep rest)

theorem resolves_joined (h : ∀ c ∈ r, c ≠ ofChar '/') : Resolves r
    (joined '\\' (isRooted r) (resolve (isRooted r) (components isSep r))) := by
  have hseg : ∀ d ∈ resolve (isRooted r) (components isSep r), d.IsSegment isSep :=
    fun _ => isSegment_of_mem_resolve
  have hcomp : ∀ d ∈ resolve (isRooted r) (components isSep r), IsComponent isSep d :=
    fun _ => isComponent_of_mem_resolve
  refine ⟨?_, ?_, ?_⟩
  · have hjoined : ∀ c ∈ joined '\\' (isRooted r) (resolve (isRooted r) (components isSep r)),
        c ≠ ofChar '/' := by
      intro c hc
      rcases mem_joined hc with rfl | ⟨d, hd, hc⟩
      · decide
      · rintro rfl
        exact absurd ((hseg d hd).2 _ hc) (by decide)
    rw [← isRooted_iff_head? hjoined, ← isRooted_iff_head? h, isRooted_joined isSep_backslash _ hseg]
  · obtain ⟨k, names, hresolve, hnames, hk⟩ :=
      exists_resolve_eq (isRooted r) (components isSep r)
    refine ⟨k, names, by rw [← hresolve], ?_, hk⟩
    intro c hc
    exact ⟨hcomp c (hresolve ▸ List.mem_append_right _ hc), hnames c hc⟩
  · intro base hbase
    rw [components_joined hseg, filter_ne_here hcomp, walk_resolve hbase]

/-- The normal form of a path with a drive is the drive, with its slashes turned round, and the rest of
the path resolved; and the drive of the normal form is that drive. -/
theorem normal_windows_keeps_drive (s drive rest : Text) (h : cutDrive s = (drive, rest))
    (hdrive : drive ≠ []) :
    (backslashed s = backslashed drive ++ backslashed rest ∧
        cutDrive (backslashed s) = (backslashed drive, backslashed rest) ∧
        ((∃ c, backslashed drive = [c, ofChar ':']) ∨ "\\\\" <+: backslashed drive)) ∧
      ∃ rest', Path.normal .windows s = backslashed drive ++ rest' ∧
        cutDrive (Path.normal .windows s) = (backslashed drive, rest') ∧
        Resolves (backslashed rest) rest' := by
  have hcut := cutDrive_backslashed h
  have hne : backslashed drive ≠ [] := mt List.map_eq_nil_iff.mp hdrive
  have hs : s ≠ [] := by
    rintro rfl
    exact hdrive (List.append_eq_nil_iff.mp (append_of_cutDrive h).symm).1
  have hnormal := cutDrive_normal hcut hne
  rw [normal_windows hs]
  exact ⟨⟨append_of_cutDrive hcut, hcut, drive_shape hcut hne⟩, _, append_of_cutDrive hnormal, hnormal,
    resolves_joined fun _ => ne_slash_of_mem_backslashed⟩

/-- A share in the long form, with nothing but detours behind it, and a drive that is not rooted. -/
theorem normal_windows_keeps_drive_of_share :
    (∃ rest', Path.normal .windows "//?/UNC/srv/a b/../c/./d//.." = "\\\\?\\UNC\\srv\\a b" ++ rest' ∧
        cutDrive (Path.normal .windows "//?/UNC/srv/a b/../c/./d//..") =
          (("\\\\?\\UNC\\srv\\a b" : Text), rest') ∧ Resolves "\\..\\c\\.\\d\\\\.." rest') ∧
      ∃ rest', Path.normal .windows "é:a/../..\\b" = "é:" ++ rest' ∧
        cutDrive (Path.normal .windows "é:a/../..\\b") = (("é:" : Text), rest') ∧
        Resolves "a\\..\\..\\b" rest' := by
  have hshare := normal_windows_keeps_drive "//?/UNC/srv/a b/../c/./d//.." "//?/UNC/srv/a b"
    "/../c/./d//.." (by decide) (by decide)
  have hletter := normal_windows_keeps_drive "é:a/../..\\b" "é:" "a/../..\\b" (by decide) (by decide)
  exact ⟨hshare.2, hletter.2⟩

end Locus.Path.Windows
