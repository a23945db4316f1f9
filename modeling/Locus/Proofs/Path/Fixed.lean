import Locus.Proofs.Path.Windows

/-!
When the normal form of a Windows path is its own normal form. It is, as long as it has the drive of
the path that it was made from. A path without a drive may have a normal form whose first segment
holds a colon where a drive has it; a second pass cuts this segment in two, and a single `.` behind
the colon, which was the end of a name, is then a segment that goes nowhere. Only this `.` is dropped,
and a third pass drops nothing.
-/

namespace Locus.Path.Windows

open CodePoint (ofChar)

variable {c : CodePoint} {p q r t : Text} {rooted : Bool} {ds : List Text}

/-! ### The drive of a normal form -/

/-- Behind the drive, the normal form is rooted as the path is and has what resolving leaves. -/
theorem rest_normal (h : cutDrive (backslashed p) = (q, r)) (hn : normal p = q ++ t) :
    isRooted t = isRooted r ∧ components isSep t = resolve (isRooted r) (components isSep r) := by
  rcases normal_cases h with hn' | ⟨rfl, hr, hcs, hn'⟩ <;> rw [hn] at hn'
  · rw [List.append_cancel_left hn',
      isRooted_joined isSep_backslash _ fun _ => isSegment_of_mem_resolve,
      components_joined fun _ => isSegment_of_mem_resolve,
      filter_ne_here fun _ => isComponent_of_mem_resolve]
    exact ⟨rfl, rfl⟩
  · rw [hcs, hr, show t = here from hn']
    decide

/-- A normal form that has the drive of the path is its own normal form. -/
theorem normal_normal_of_drive (h : cutDrive (backslashed p) = (q, r))
    (h' : cutDrive (normal p) = (q, t)) : normal (normal p) = normal p := by
  obtain ⟨hroot, hcs⟩ := rest_normal h (append_of_cutDrive h')
  rw [normal, backslashed_normal, h', normal, h]
  dsimp only
  rw [hroot, hcs, resolve_resolve]

/-- A path with a drive has a normal form that is its own. -/
theorem normal_normal_of_ne_nil (h : cutDrive (backslashed p) = (q, r)) (hq : q ≠ []) :
    normal (normal p) = normal p :=
  normal_normal_of_drive h (cutDrive_normal h hq)

/-! ### A colon in the first segment -/

theorem of_intercalate_eq_cons {d : Text} (hd : d.IsSegment isSep)
    (h : List.intercalate "\\" (d :: ds) = c :: t) :
    ∃ e, d = c :: e ∧ t = List.intercalate "\\" (e :: ds) := by
  obtain ⟨x, e, rfl⟩ := List.exists_cons_of_ne_nil hd.1
  rw [List.intercalate_cons_cons_left] at h
  obtain ⟨rfl, rfl⟩ := List.cons.inj h
  exact ⟨e, rfl, rfl⟩

theorem eq_nil_or_isRooted_intercalate (ds : List Text) :
    List.intercalate "\\" ([] :: ds) = [] ∨ isRooted (List.intercalate "\\" ([] :: ds)) := by
  cases ds with
  | nil => exact .inl rfl
  | cons d ds => exact .inr isSep_backslash

/-- If a colon comes second in what was joined, it cuts the first segment in two. -/
theorem exists_of_joined_eq_colon (hds : ∀ d ∈ ds, d.IsSegment isSep)
    (h : joined '\\' rooted ds = c :: ofChar ':' :: t) :
    ∃ d ds' e, ds = d :: ds' ∧ ofChar ':' ∈ d ∧ e <:+ d ∧ t = List.intercalate "\\" (e :: ds') := by
  cases ds with
  | nil => cases rooted <;> cases h
  | cons d ds =>
    have hd := hds d List.mem_cons_self
    cases rooted with
    | true =>
      obtain ⟨e, rfl, ht⟩ := of_intercalate_eq_cons hd (List.cons.inj h).2
      exact ⟨_, ds, e, rfl, List.mem_cons_self, List.suffix_cons _ e, ht⟩
    | false =>
      obtain ⟨e, rfl, he⟩ := of_intercalate_eq_cons hd h
      have hne : e ≠ [] := by
        rintro rfl
        cases ds with
        | nil => cases he
        | cons f ds => exact absurd (List.cons.inj he).1 (by decide)
      have hseg : Text.IsSegment isSep e := ⟨hne, fun x hx => hd.2 x (List.mem_cons_of_mem c hx)⟩
      obtain ⟨e', rfl, ht⟩ := of_intercalate_eq_cons hseg he.symm
      exact ⟨_, ds, e', rfl, List.mem_cons_of_mem c List.mem_cons_self,
        (List.suffix_cons _ e').trans (List.suffix_cons c _), ht⟩

theorem normal_colon (hb : backslashed (c :: ofChar ':' :: t) = c :: ofChar ':' :: t) :
    normal (c :: ofChar ':' :: t) =
      c :: ofChar ':' :: joined '\\' (isRooted t) (resolve (isRooted t) (components isSep t)) := by
  have hcut : cutDrive (backslashed (c :: ofChar ':' :: t)) = ([c, ofChar ':'], t) := by
    rw [hb]
    exact cutDrive_colon c t
  exact (normal_cases hcut).resolve_right fun h => nomatch h.1

/-- Behind a colon, only a first segment that is a single `.` is dropped. -/
theorem normal_colon_intercalate {d : Text} (hd : ∀ x ∈ d, isSep x = false)
    (hds : ∀ e ∈ ds, IsComponent isSep e) (hup : ∀ e ∈ ds, e ≠ up)
    (ht : t = List.intercalate "\\" (d :: ds))
    (hb : backslashed (c :: ofChar ':' :: t) = c :: ofChar ':' :: t) :
    normal (c :: ofChar ':' :: t) =
      c :: ofChar ':' :: List.intercalate "\\" (if d = here then ds else d :: ds) := by
  have hseg : ∀ e ∈ ds, e.IsSegment isSep := fun e he => (hds e he).1
  rw [normal_colon hb]
  by_cases hnil : d = []
  · subst hnil
    rw [if_neg (by decide)]
    cases ds with
    | nil =>
      subst ht
      rfl
    | cons e ds =>
      have hjoined : t = joined '\\' true (e :: ds) := ht
      rw [hjoined, isRooted_joined isSep_backslash true hseg, components_joined hseg,
        filter_ne_here hds, resolve_of_names hup]
      rfl
  · have hseg' : ∀ e ∈ d :: ds, e.IsSegment isSep := List.forall_mem_cons.mpr ⟨⟨hnil, hd⟩, hseg⟩
    have hjoined : t = joined '\\' false (d :: ds) := ht
    rw [hjoined, isRooted_joined isSep_backslash false hseg', components_joined hseg']
    split
    · next hhere =>
      rw [hhere, List.filter_cons_of_neg (by decide), filter_ne_here hds, resolve_of_names hup]
      rfl
    · next hhere =>
      rw [filter_ne_here (List.forall_mem_cons.mpr ⟨⟨⟨hnil, hd⟩, hhere⟩, hds⟩),
        resolve_cons_of_names hup]
      rfl

/-! ### The second pass -/

theorem not_opensTwice_joined (h : ∀ d ∈ ds, d.IsSegment isSep) :
    ¬OpensTwice (joined '\\' rooted ds) := by
  rintro ⟨a, b, t, he, ha, hb⟩
  cases rooted with
  | true =>
    have hroot : isRooted (List.intercalate [ofChar '\\'] ds) = false := isRooted_intercalate h
    rw [show List.intercalate [ofChar '\\'] ds = b :: t from (List.cons.inj he).2, isRooted_cons,
      hb] at hroot
    cases hroot
  | false =>
    have hroot := isRooted_joined isSep_backslash false h
    rw [he, isRooted_cons, ha] at hroot
    cases hroot

/-- A character and a colon come first, and then a segment that is a single `.`. -/
def OpensDotted (p : Text) : Prop :=
  ∃ c r, p = c :: ofChar ':' :: ofChar '.' :: r ∧ (r = [] ∨ isRooted r)

theorem not_opensDotted (h : p[2]? ≠ some (ofChar '.')) : ¬OpensDotted p := by
  rintro ⟨c, r, rfl, -⟩
  exact h rfl

/-- The normal form is its own, or it opens dotted and a second pass drops the `.`. -/
theorem normal_normal_cases (p : Text) : normal (normal p) = normal p ∨
    ∃ c r, normal p = c :: ofChar ':' :: ofChar '.' :: r ∧ (r = [] ∨ isRooted r) ∧
      normal (normal p) = c :: ofChar ':' :: r.tail := by
  rcases hcut : cutDrive (backslashed p) with ⟨q, r⟩
  by_cases hq : q ≠ []
  · exact .inl (normal_normal_of_ne_nil hcut hq)
  obtain rfl := not_not.mp hq
  rcases normal_cases hcut with hn | ⟨-, -, -, hn⟩
  swap
  · rw [hn]
    exact .inl rfl
  have hseg : ∀ d ∈ resolve (isRooted r) (components isSep r), d.IsSegment isSep :=
    fun _ => isSegment_of_mem_resolve
  rcases hcut' : cutDrive (normal p) with ⟨q, t⟩
  rcases cutDrive_cases hcut' with ⟨htwice, -⟩ | ⟨-, rfl | ⟨c, rfl⟩⟩
  · rw [hn] at htwice
    exact absurd htwice (not_opensTwice_joined hseg)
  · exact .inl (normal_normal_of_drive hcut hcut')
  -- the first segment is cut in two; it is no `..`, so that the segments behind it are names
  have hcolon : normal p = c :: ofChar ':' :: t := append_of_cutDrive hcut'
  obtain ⟨d, ds, e, hds, hmem, he, ht⟩ := exists_of_joined_eq_colon hseg (hn.symm.trans hcolon)
  have hd : d ≠ up := by
    rintro rfl
    exact absurd hmem (by decide)
  have hcs : ∀ f ∈ d :: ds, IsComponent isSep f := fun f hf =>
    isComponent_of_mem_resolve (hds.symm ▸ hf)
  have hsecond := normal_colon_intercalate
    (fun x hx => (hcs d List.mem_cons_self).1.2 x (he.subset hx))
    (fun f hf => hcs f (List.mem_cons_of_mem d hf)) (forall_ne_up_of_resolve_eq_cons hds hd) ht
    (hcolon ▸ backslashed_normal p)
  rw [hcolon, hsecond]
  split
  · next hhere =>
    subst hhere
    refine .inr ⟨c, List.intercalate "\\" ([] :: ds), ?_, eq_nil_or_isRooted_intercalate ds, ?_⟩
    · rw [ht]
      exact congrArg (c :: ofChar ':' :: ·) List.intercalate_cons_cons_left
    · cases ds <;> rfl
  · exact .inl (congrArg (c :: ofChar ':' :: ·) ht.symm)

theorem here_mem_words (h : r = [] ∨ isRooted r) : here ∈ Text.words isSep (here ++ r) := by
  rcases h with rfl | hr
  · decide
  · cases r with
    | nil => cases hr
    | cons x r =>
      rw [Text.words_append_sep hr]
      exact List.mem_append_left _ (by decide)

/-- What opens dotted is no normal form of itself. -/
theorem OpensDotted.normal_ne (h : OpensDotted p) (hb : backslashed p = p) : normal p ≠ p := by
  obtain ⟨c, r, rfl, hr⟩ := h
  intro hn
  rw [normal_colon hb] at hn
  have hrest : joined '\\' false (resolve false (components isSep (here ++ r))) = here ++ r :=
    (List.cons.inj (List.cons.inj hn).2).2
  have hmem := here_mem_words hr
  rw [← hrest, words_joined isSep_backslash false fun _ => isSegment_of_mem_resolve] at hmem
  exact (isComponent_of_mem_resolve hmem).2 rfl

/-- The third pass changes nothing. -/
theorem normal_normal_normal (p : Text) : normal (normal (normal p)) = normal (normal p) := by
  rcases normal_normal_cases p with h | ⟨c, r, h, -⟩
  · rw [h, h]
  · -- the normal form has a drive, so its own normal form keeps it
    have hcut : cutDrive (backslashed (normal p)) = ([c, ofChar ':'], ofChar '.' :: r) := by
      rw [backslashed_normal, h]
      exact cutDrive_colon c _
    exact normal_normal_of_ne_nil hcut (List.cons_ne_nil c _)

/-- The normal form of a path is its own normal form exactly when it does not open dotted, which no
path with a drive of its own brings about. Where it does, a second pass drops the `.` and the
separator behind it, and in every case a third pass changes nothing. -/
theorem normal_windows_normal (s : Text) :
    (Path.normal .windows (Path.normal .windows s) = Path.normal .windows s ↔
        ¬OpensDotted (Path.normal .windows s)) ∧
      ((cutDrive (backslashed s)).1 ≠ [] → ¬OpensDotted (Path.normal .windows s)) ∧
      (∀ c r, Path.normal .windows s = c :: ofChar ':' :: ofChar '.' :: r → r = [] ∨ isRooted r →
        Path.normal .windows (Path.normal .windows s) = c :: ofChar ':' :: r.tail) ∧
      Path.normal .windows (Path.normal .windows (Path.normal .windows s)) =
        Path.normal .windows (Path.normal .windows s) := by
  by_cases hs : s = []
  · subst hs
    refine ⟨iff_of_true rfl ?_, fun h => absurd rfl h, fun c r h => (nomatch h), rfl⟩
    rintro ⟨c, r, h, -⟩
    cases h
  rw [normal_windows hs, normal_windows (normal_ne_nil s), normal_windows (normal_ne_nil _)]
  have hne : OpensDotted (normal s) → normal (normal s) ≠ normal s :=
    fun h => h.normal_ne (backslashed_normal s)
  refine ⟨⟨fun heq h => hne h heq, ?_⟩, ?_, ?_, normal_normal_normal s⟩
  · intro h
    rcases normal_normal_cases s with heq | ⟨c, r, hn, hr, -⟩
    · exact heq
    · exact absurd ⟨c, r, hn, hr⟩ h
  · intro hdrive h
    exact hne h (normal_normal_of_ne_nil rfl hdrive)
  · intro c r hn hr
    rcases normal_normal_cases s with heq | ⟨d, u, hn', -, hsecond⟩
    · exact absurd heq (hne ⟨c, r, hn, hr⟩)
    · rw [hn] at hn'
      obtain ⟨rfl, htail⟩ := List.cons.inj hn'
      rw [hsecond, (List.cons.inj (List.cons.inj htail).2).2]

/-- A name in front of a separator loses its `.` too, and behind a drive of its own none is left. -/
theorem normal_windows_normal_of_dot :
    Path.normal .windows ".\\C:./a" = "C:.\\a" ∧
      Path.normal .windows (Path.normal .windows ".\\C:./a") = "C:a" ∧
      ¬OpensDotted (Path.normal .windows "C:./.:./a") := by
  have hn : Path.normal .windows ".\\C:./a" = "C:.\\a" := by decide
  obtain ⟨-, -, hsecond, -⟩ := normal_windows_normal ".\\C:./a"
  obtain ⟨-, hdrive, -, -⟩ := normal_windows_normal "C:./.:./a"
  exact ⟨hn, hsecond 'C' "\\a" hn (.inr rfl), hdrive (by decide)⟩

/-- The name `C:.` loses its `.` in the second pass, which takes it for a drive and a segment. -/
theorem normal_windows_normal_ne_self :
    Path.normal .windows ".\\C:." = "C:." ∧ Path.normal .windows "C:." = "C:" ∧
      Path.normal .windows (Path.normal .windows ".\\C:.") ≠ Path.normal .windows ".\\C:." := by
  decide

end Locus.Path.Windows
