import Locus.Proofs.Uri.Authority

/-!
What canonical URIs name. Splitting only cuts, so the parts of an ASCII text are ASCII; and behind an
authority a path is empty or absolute. Hence the path that a canonical URI names, if it names one, is
what some bytes decode to, in either style.
-/

namespace Locus.Uri

open CodePoint (ofChar)
open Path.Windows (backslashed)
open Utf8 (OfBytes)

variable {u : Uri} {parts : Parts} {t : Text} {c : CodePoint}

/-! ### Cutting -/

theorem mem_of_mem_cleaned (h : c ∈ cleaned t) : c ∈ t :=
  (List.dropWhile_sublist _).mem (List.mem_filter.mp h).1

theorem mem_of_cut {isSep : CodePoint → Bool} {s rest : Text} (h : t.cut isSep = (s, some rest))
    (hc : c ∈ rest) : c ∈ t := by
  obtain ⟨-, htail⟩ := Prod.mk.inj h
  refine (List.dropWhile_sublist (!isSep ·)).mem ?_
  cases hdrop : t.dropWhile (!isSep ·) with
  | nil =>
    rw [hdrop] at htail
    cases htail
  | cons d r =>
    rw [hdrop] at htail
    cases htail
    exact List.mem_cons_of_mem d hc

theorem mem_of_mem_cutScheme (h : c ∈ (cutScheme t).2) : c ∈ t := by
  unfold cutScheme at h
  split at h
  · next hcut =>
    split at h
    · exact mem_of_cut hcut h
    · exact h
  · exact h

theorem cutAuthority_cases (t : Text) : cutAuthority t = ([], t) ∨ ∃ r, t = "//" ++ r ∧
    cutAuthority t = (r.takeWhile (!endsAuthority ·), r.dropWhile (!endsAuthority ·)) := by
  unfold cutAuthority
  split
  · split
    · next h =>
      simp only [CodePoint.is, Bool.and_eq_true, decide_eq_true_eq] at h
      obtain ⟨rfl, rfl⟩ := h
      exact .inr ⟨_, rfl, rfl⟩
    · exact .inl rfl
  · exact .inl rfl

theorem mem_of_mem_cutAuthority (h : c ∈ (cutAuthority t).1 ∨ c ∈ (cutAuthority t).2) : c ∈ t := by
  rcases cutAuthority_cases t with ht | ⟨r, rfl, hr⟩
  · rw [ht] at h
    exact h.resolve_left List.not_mem_nil
  · rw [hr] at h
    refine List.mem_append_right _ ?_
    exact h.elim (List.takeWhile_sublist _).mem (List.dropWhile_sublist _).mem

/-- What follows an authority starts with a character that ends it. -/
theorem endsAuthority_of_cutAuthority (ha : (cutAuthority t).1 ≠ []) :
    ∀ c ∈ (cutAuthority t).2.head?, endsAuthority c := by
  rcases cutAuthority_cases t with ht | ⟨r, rfl, hr⟩
  · rw [ht] at ha
    exact absurd rfl ha
  · rw [hr]
    intro c hc
    have := List.head?_dropWhile_not (!endsAuthority ·) r
    rw [Option.mem_def.mp hc] at this
    simpa using this

/-- The path in front of a query and a fragment. -/
def pathBefore (t : Text) : Text := (Text.cut (CodePoint.is '?') (t.cut (CodePoint.is '#')).1).1

theorem mem_of_mem_pathBefore (h : c ∈ pathBefore t) : c ∈ t :=
  (List.takeWhile_sublist _).mem ((List.takeWhile_sublist _).mem h)

theorem rooted_pathBefore (h : ∀ c ∈ t.head?, endsAuthority c) :
    ∀ c ∈ (pathBefore t).head?, c = ofChar '/' := by
  intro c hc
  cases t with
  | nil => cases hc
  | cons d t =>
    have hd := h d rfl
    simp only [endsAuthority, CodePoint.is, Bool.or_eq_true, decide_eq_true_eq] at hd
    rcases hd with (rfl | rfl) | rfl
    · cases hc
      rfl
    · cases hc
    · cases hc

theorem exists_of_split (h : split u = .ok parts) : ∃ t, (∀ c ∈ t, c ∈ u.text) ∧
    parts.authority = (cutAuthority t).1 ∧ parts.path = pathBefore (cutAuthority t).2 := by
  refine ⟨(cutScheme (cleaned u.text)).2,
    fun c hc => mem_of_mem_cleaned (mem_of_mem_cutScheme hc), ?_⟩
  rw [split] at h
  dsimp only at h
  cases hb : checkBrackets (cutAuthority (cutScheme (cleaned u.text)).2).1 with
  | error e =>
    rw [hb] at h
    cases h
  | ok =>
    rw [hb] at h
    cases hd : checkDisguises (cutAuthority (cutScheme (cleaned u.text)).2).1 with
    | error e =>
      rw [hd] at h
      cases h
    | ok =>
      rw [hd] at h
      cases h
      exact ⟨rfl, rfl⟩

/-! ### The parts of a URI in ASCII -/

/-- The parts of a URI that is split stand in it, and behind an authority a path is absolute. -/
structure Parts.Within (parts : Parts) (t : Text) : Prop where
  authority : ∀ c ∈ parts.authority, c ∈ t
  path : ∀ c ∈ parts.path, c ∈ t
  rooted : parts.authority ≠ [] → ∀ c ∈ parts.path.head?, c = ofChar '/'

theorem within_of_split (h : split u = .ok parts) : parts.Within u.text := by
  obtain ⟨t, ht, hauthority, hpath⟩ := exists_of_split h
  refine ⟨?_, ?_, ?_⟩
  · intro c hc
    rw [hauthority] at hc
    exact ht c (mem_of_mem_cutAuthority (.inl hc))
  · intro c hc
    rw [hpath] at hc
    exact ht c (mem_of_mem_cutAuthority (.inr (mem_of_mem_pathBefore hc)))
  · intro hne
    rw [hauthority] at hne
    rw [hpath]
    exact rooted_pathBefore (endsAuthority_of_cutAuthority hne)

theorem ofBytes_decode_of_isAscii (h : ∀ c ∈ t, c.isAscii) : OfBytes (Percent.decode t) := by
  refine Percent.ofBytes_decode ?_
  intro c hc
  have hlt : c.toNat < 0x80 := decide_eq_true_eq.mp (h c hc)
  exact Utf8.not_isSurrogate_iff.mpr (.inl (by omega))

/-- Two slashes and an authority join a path that is empty or absolute. -/
theorem ofBytes_slashes_append {s : Text} (hs : OfBytes s) (ht : OfBytes t)
    (hroot : ∀ c ∈ t.head?, c = ofChar '/') : OfBytes ("//" ++ s ++ t) := by
  have hjoined : OfBytes (s ++ t) := by
    cases t with
    | nil => rwa [List.append_nil]
    | cons c t =>
      obtain rfl := hroot c rfl
      exact hs.append_cons (by decide) (Utf8.OfBytes.of_append (s := [ofChar '/']) ht).2
  rw [List.append_assoc]
  exact Path.Posix.ofBytes_text_append (r := .double) hjoined

theorem rooted_decode (h : ∀ c ∈ t.head?, c = ofChar '/') :
    ∀ c ∈ (Percent.decode t).head?, c = ofChar '/' := by
  cases t with
  | nil => exact nofun
  | cons c t =>
    obtain rfl := h c rfl
    rw [decode_slash_cons]
    rintro _ ⟨⟩
    rfl

theorem Parts.Within.ofBytes_posixFile (h : parts.Within t) (ht : ∀ c ∈ t, c.isAscii) :
    OfBytes parts.posixFile := by
  have hpath := ofBytes_decode_of_isAscii fun c hc => ht c (h.path c hc)
  have hauthority := ofBytes_decode_of_isAscii fun c hc => ht c (h.authority c hc)
  rw [Parts.posixFile]
  split
  · exact hpath
  · next hne => exact ofBytes_slashes_append hauthority hpath (rooted_decode (h.rooted hne))

theorem Parts.Within.ofBytes_windowsFile (h : parts.Within t) (ht : ∀ c ∈ t, c.isAscii) :
    OfBytes parts.windowsFile := by
  have hpath := ofBytes_decode_of_isAscii fun c hc => ht c (h.path c hc)
  have hauthority := ofBytes_decode_of_isAscii fun c hc => ht c (h.authority c hc)
  have htail : ∀ {p : Text}, OfBytes p →
      OfBytes (if p.head?.any (CodePoint.is '/') then p.tail else p) := by
    intro p hp
    split
    · exact hp.of_infix (List.tail_suffix p).isInfix
    · exact hp
  rw [Parts.windowsFile]
  refine Path.Windows.ofBytes_append_backslashed [] _ ?_
  rw [List.nil_append]
  split
  · exact htail hpath
  · have hrooted := Utf8.ofBytes_nil.append_cons (by decide : (ofChar '/').isAscii) (htail hpath)
    rw [List.append_assoc]
    refine ofBytes_slashes_append hauthority hrooted ?_
    rintro _ ⟨⟩
    rfl

/-- The path that a canonical URI names is what some bytes decode to. -/
theorem ofBytes_of_toPath {s : PathStyle} {bs : List UInt8} {p : Text}
    (h : toPath s ⟨Percent.spellAll pathSafe bs⟩ = .ok p) : OfBytes p := by
  have hascii : ∀ c ∈ Percent.spellAll pathSafe bs, c.isAscii := fun _ => isAscii_of_mem_spellAll
  rw [toPath] at h
  split at h
  · cases h
  · next parts hsplit =>
    have hwithin := within_of_split hsplit
    split at h
    · cases s with
      | posix =>
        obtain rfl := Except.ok.inj h
        exact hwithin.ofBytes_posixFile hascii
      | windows =>
        obtain rfl := Except.ok.inj h
        exact hwithin.ofBytes_windowsFile hascii
    · cases h

end Locus.Uri
