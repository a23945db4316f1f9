import Mathlib.Data.List.Infix
import Locus.Path.Normal
import Locus.Proofs.Path.Components
import Locus.Proofs.Path.Drive
import Locus.Proofs.Text.Utf8

/-!
The normal form of Windows paths. It is the drive as it stands and behind it what resolving leaves,
joined by backslashes; without a drive, what is left may open with a colon in second place and so get
a drive of its own. In either case no separator is doubled behind the drive and none comes last, so
the segments behind it can be read off what was written.
-/

namespace Locus.Path.Windows

open CodePoint (ofChar)
open Utf8 (OfBytes)

variable {sep c : CodePoint} {rooted : Bool} {p q r t : Text} {ds : List Text}

/-! ### What follows a drive -/

/-- Segments with separators between them, behind one more separator if they are rooted. -/
def joined (sep : CodePoint) (rooted : Bool) (ds : List Text) : Text :=
  (if rooted then [sep] else []) ++ List.intercalate [sep] ds

theorem isRooted_intercalate (h : ∀ d ∈ ds, d.IsSegment isSep) :
    isRooted (List.intercalate [sep] ds) = false := by
  cases ds with
  | nil => rfl
  | cons d ds =>
    obtain ⟨hne, hsep⟩ := h d List.mem_cons_self
    obtain ⟨x, d, rfl⟩ := List.exists_cons_of_ne_nil hne
    rw [List.intercalate_cons_cons_left, isRooted_cons]
    exact hsep x List.mem_cons_self

theorem isRooted_joined (hsep : isSep sep) (rooted : Bool) (h : ∀ d ∈ ds, d.IsSegment isSep) :
    isRooted (joined sep rooted ds) = rooted := by
  cases rooted with
  | true => exact hsep
  | false => exact isRooted_intercalate h

theorem words_joined (hsep : isSep sep) (rooted : Bool) (h : ∀ d ∈ ds, d.IsSegment isSep) :
    Text.words isSep (joined sep rooted ds) = ds := by
  have hwords := Text.words_intercalate hsep h
  cases rooted with
  | true => exact (Text.words_append_sep hsep [] _).trans hwords
  | false => exact hwords

theorem components_joined (h : ∀ d ∈ ds, d.IsSegment isSep) (rooted : Bool) :
    components isSep (joined '\\' rooted ds) = ds.filter (· ≠ here) := by
  rw [components_eq, words_joined isSep_backslash rooted h]

theorem mem_intercalate : ∀ {ds : List Text}, c ∈ List.intercalate [sep] ds →
    c = sep ∨ ∃ d ∈ ds, c ∈ d
  | [], h => nomatch h
  | [d], h => by
    rw [List.intercalate_singleton] at h
    exact .inr ⟨d, List.mem_cons_self, h⟩
  | d :: e :: ds, h => by
    rw [List.intercalate_cons_cons, List.mem_append, List.mem_append, List.mem_singleton] at h
    rcases h with (h | h) | h
    · exact .inr ⟨d, List.mem_cons_self, h⟩
    · exact .inl h
    · rcases mem_intercalate h with h | ⟨f, hf, h⟩
      · exact .inl h
      · exact .inr ⟨f, List.mem_cons_of_mem d hf, h⟩

theorem mem_joined (h : c ∈ joined sep rooted ds) : c = sep ∨ ∃ d ∈ ds, c ∈ d := by
  rcases List.mem_append.mp h with h | h
  · cases rooted with
    | true => exact .inl (List.mem_singleton.mp h)
    | false => cases h
  · exact mem_intercalate h

/-- The end of what was joined was joined from the last segments, of the first of them perhaps the
end only. -/
theorem exists_joined_of_suffix_intercalate : ∀ {ds : List Text} {t : Text},
    (∀ d ∈ ds, d.IsSegment isSep) → t <:+ List.intercalate [sep] ds →
    ∃ rooted ds', (∀ d ∈ ds', d.IsSegment isSep) ∧ t = joined sep rooted ds'
  | [], t, _, ht => ⟨false, [], List.forall_mem_nil _, List.suffix_nil.mp ht⟩
  | [d], t, h, ht => by
    rw [List.intercalate_singleton] at ht
    by_cases hne : t = []
    · exact ⟨false, [], List.forall_mem_nil _, hne⟩
    · refine ⟨false, [t], ?_, ?_⟩
      · intro e he
        rw [List.mem_singleton.mp he]
        exact ⟨hne, fun x hx => (h d List.mem_cons_self).2 x (ht.subset hx)⟩
      · rw [joined, List.intercalate_singleton]
        rfl
  | d :: e :: ds, t, h, ht => by
    have hrest : ∀ f ∈ e :: ds, f.IsSegment isSep := fun f hf => h f (List.mem_cons_of_mem d hf)
    obtain ⟨u, hu⟩ := ht
    rw [List.intercalate_cons_cons, List.append_assoc, List.singleton_append] at hu
    rcases List.append_eq_append_iff.mp hu with ⟨a, rfl, rfl⟩ | ⟨b, rfl, hb⟩
    · by_cases ha : a = []
      · subst ha
        exact ⟨true, e :: ds, hrest, rfl⟩
      · refine ⟨false, a :: e :: ds, ?_, ?_⟩
        · intro f hf
          rcases List.mem_cons.mp hf with rfl | hf
          · exact ⟨ha, fun x hx => (h _ List.mem_cons_self).2 x (List.mem_append_right u hx)⟩
          · exact hrest f hf
        · rw [joined, List.intercalate_cons_cons, List.append_assoc]
          rfl
    · cases b with
      | nil => exact ⟨true, e :: ds, hrest, hb.symm⟩
      | cons x b =>
        exact exists_joined_of_suffix_intercalate hrest ⟨b, (List.cons.inj hb).2.symm⟩

theorem exists_joined_of_suffix (h : ∀ d ∈ ds, d.IsSegment isSep) (ht : t <:+ joined sep rooted ds) :
    ∃ rooted' ds', (∀ d ∈ ds', d.IsSegment isSep) ∧ t = joined sep rooted' ds' := by
  cases rooted with
  | false => exact exists_joined_of_suffix_intercalate h ht
  | true =>
    rcases List.suffix_cons_iff.mp ht with rfl | ht
    · exact ⟨true, ds, h, rfl⟩
    · exact exists_joined_of_suffix_intercalate h ht

/-! ### Backslashes for slashes -/

theorem backslashed_segment (h : t.IsSegment isSep) : backslashed t = t := by
  refine backslashed_eq_self ?_
  rintro c hc rfl
  exact absurd (h.2 _ hc) (by decide)

theorem backslashed_intercalate : ∀ {ds : List Text}, (∀ d ∈ ds, d.IsSegment isSep) →
    backslashed (List.intercalate "/" ds) = List.intercalate "\\" ds
  | [], _ => rfl
  | [d], h => by
    rw [List.intercalate_singleton, List.intercalate_singleton]
    exact backslashed_segment (h d List.mem_cons_self)
  | d :: e :: ds, h => by
    have ih := backslashed_intercalate fun f hf => h f (List.mem_cons_of_mem d hf)
    rw [List.intercalate_cons_cons, List.intercalate_cons_cons, backslashed_append,
      backslashed_append, backslashed_segment (h d List.mem_cons_self), ih]
    rfl

theorem backslashed_joined (h : ∀ d ∈ ds, d.IsSegment isSep) :
    backslashed (joined '/' rooted ds) = joined '\\' rooted ds := by
  rw [joined, backslashed_append]
  cases rooted <;> exact congrArg (_ ++ ·) (backslashed_intercalate h)

/-! ### The normal form -/

theorem normal_windows (h : p ≠ []) : Path.normal .windows p = normal p := by
  cases p with
  | nil => exact absurd rfl h
  | cons c p => rfl

theorem normal_ne_nil (p : Text) : normal p ≠ [] := by
  rw [normal]
  dsimp only
  split
  · decide
  · assumption

theorem isComponent_of_mem_resolve (h : t ∈ resolve rooted (components isSep r)) :
    IsComponent isSep t :=
  isComponent_of_mem_components (resolve_subset rooted _ h)

theorem isSegment_of_mem_resolve (h : t ∈ resolve rooted (components isSep r)) :
    t.IsSegment isSep :=
  (isComponent_of_mem_resolve h).1

/-- The normal form is the drive and, behind it, what resolving leaves; it is `.` if there is neither
a drive nor a root nor anything left. -/
theorem normal_cases (h : cutDrive (backslashed p) = (q, r)) :
    normal p = q ++ joined '\\' (isRooted r) (resolve (isRooted r) (components isSep r)) ∨
      q = [] ∧ isRooted r = false ∧ resolve (isRooted r) (components isSep r) = [] ∧
        normal p = here := by
  have hseg : ∀ d ∈ resolve (isRooted r) (components isSep r), d.IsSegment isSep :=
    fun _ => isSegment_of_mem_resolve
  rw [normal, h]
  dsimp only
  rw [List.append_assoc]
  split
  · next he =>
    obtain ⟨hq, hrest⟩ := List.append_eq_nil_iff.mp he
    have hjoined : joined '\\' (isRooted r) (resolve (isRooted r) (components isSep r)) = [] := hrest
    have hroot := isRooted_joined isSep_backslash (isRooted r) hseg
    have hwords := words_joined isSep_backslash (isRooted r) hseg
    rw [hjoined] at hroot hwords
    exact .inr ⟨hq, hroot.symm, hwords.symm, rfl⟩
  · exact .inl rfl

/-- The normal form is the drive and, behind it, segments: the single `.` if nothing else is left. -/
theorem exists_segments (h : cutDrive (backslashed p) = (q, r)) :
    ∃ ds, (∀ d ∈ ds, d.IsSegment isSep ∧ (d = here ∨ d ∈ components isSep r)) ∧
      normal p = q ++ joined '\\' (isRooted r) ds ∧
      (q ≠ [] → ds = resolve (isRooted r) (components isSep r)) := by
  rcases normal_cases h with hn | ⟨rfl, hr, -, hn⟩
  · refine ⟨_, ?_, hn, fun _ => rfl⟩
    intro d hd
    exact ⟨isSegment_of_mem_resolve hd, .inr (resolve_subset _ _ hd)⟩
  · refine ⟨[here], ?_, ?_, fun hq => absurd rfl hq⟩
    · intro d hd
      rw [List.mem_singleton.mp hd]
      refine ⟨?_, .inl rfl⟩
      unfold Text.IsSegment
      decide
    · rw [hn, hr, joined, List.intercalate_singleton]
      rfl

/-- The code points of the normal form are those of the path with backslashes, and the two marks. -/
theorem forall_mem_normal {P : CodePoint → Prop} (hp : ∀ c ∈ backslashed p, P c) (hsep : P '\\')
    (hdot : P '.') : ∀ c ∈ normal p, P c := by
  rcases hcut : cutDrive (backslashed p) with ⟨q, r⟩
  obtain ⟨ds, hds, hn, -⟩ := exists_segments hcut
  rw [append_of_cutDrive hcut] at hp
  rw [hn]
  intro c hc
  rcases List.mem_append.mp hc with hc | hc
  · exact hp c (List.mem_append_left r hc)
  · rcases mem_joined hc with rfl | ⟨d, hd, hc⟩
    · exact hsep
    · rcases (hds d hd).2 with rfl | hd
      · rw [List.mem_singleton.mp hc]
        exact hdot
      · have hpart := Text.isInfix_of_mem_splitOnP (List.mem_filter.mp hd).1
        exact hp c (List.mem_append_right q (hpart.subset hc))

theorem ne_slash_of_mem_normal : ∀ c ∈ normal p, c ≠ ofChar '/' :=
  forall_mem_normal (fun _ => ne_slash_of_mem_backslashed) (by decide) (by decide)

theorem backslashed_normal (p : Text) : backslashed (normal p) = normal p :=
  backslashed_eq_self ne_slash_of_mem_normal

theorem not_isSurrogate_of_mem_normal (hp : ∀ c ∈ p, ¬c.isSurrogate) :
    ∀ c ∈ normal p, ¬c.isSurrogate := by
  refine forall_mem_normal ?_ (by decide) (by decide)
  intro c hc
  obtain ⟨d, hd, rfl⟩ := List.mem_map.mp hc
  split
  · decide
  · exact hp d hd

/-- A normal form opens with two separators exactly when it starts with two backslashes. -/
theorem opensTwice_normal_iff : OpensTwice (normal p) ↔ "\\\\" <+: normal p :=
  opensTwice_iff_backslashes ne_slash_of_mem_normal

/-- A drive stays the drive. -/
theorem cutDrive_normal (h : cutDrive (backslashed p) = (q, r)) (hq : q ≠ []) :
    cutDrive (normal p) =
      (q, joined '\\' (isRooted r) (resolve (isRooted r) (components isSep r))) := by
  obtain ⟨ds, -, hn, hds⟩ := exists_segments h
  rw [hn, hds hq]
  have hp := append_of_cutDrive h
  rcases cutDrive_cases h with ⟨ht, rfl | hr⟩ | ⟨-, rfl | ⟨c, rfl⟩⟩
  · rw [List.append_nil] at hp
    rw [hp] at h
    exact (congrArg cutDrive (List.append_nil q)).trans h
  · cases r with
    | nil => cases hr
    | cons x r =>
      have hx : x = '\\' := by
        have hne : x ≠ '/' := by
          refine ne_slash_of_mem_backslashed (p := p) ?_
          rw [hp]
          exact List.mem_append_right q List.mem_cons_self
        exact (isSep_iff.mp hr).resolve_right hne
      subst hx
      rw [hp] at ht h
      exact cutDrive_append_rooted ht h isSep_backslash _
  · exact absurd rfl hq
  · exact cutDrive_colon c _

/-- Behind the drive of a normal form stands what was joined from segments. -/
theorem exists_cutDrive_normal (p : Text) : ∃ q rooted ds,
    (∀ d ∈ ds, d.IsSegment isSep) ∧ cutDrive (normal p) = (q, joined '\\' rooted ds) := by
  rcases hcut : cutDrive (backslashed p) with ⟨q, r⟩
  obtain ⟨ds, hds, hn, hresolve⟩ := exists_segments hcut
  have hseg : ∀ d ∈ ds, d.IsSegment isSep := fun d hd => (hds d hd).1
  by_cases hq : q = []
  · rcases hcut' : cutDrive (normal p) with ⟨q', t⟩
    have ht : t <:+ joined '\\' (isRooted r) ds := by
      refine ⟨q', ?_⟩
      rw [← append_of_cutDrive hcut', hn, hq, List.nil_append]
    obtain ⟨rooted, ds', hseg', rfl⟩ := exists_joined_of_suffix hseg ht
    exact ⟨q', rooted, ds', hseg', rfl⟩
  · rw [hresolve hq] at hseg
    exact ⟨q, _, _, hseg, cutDrive_normal hcut hq⟩

/-! ### Paths of bytes -/

/-- Backslashes for slashes leave a text of bytes one. The part already passed stands before it. -/
theorem ofBytes_append_backslashed (s t : Text) (h : OfBytes (s ++ t)) :
    OfBytes (s ++ backslashed t) := by
  induction t generalizing s with
  | nil => exact h
  | cons c t ih =>
    by_cases hc : c = '/'
    · subst hc
      obtain ⟨hs, ht⟩ := h.of_append
      have htail := ih [] (Utf8.OfBytes.of_append (s := [ofChar '/']) ht).2
      exact hs.append_cons (by decide : (ofChar '\\').isAscii) htail
    · have := ih (s ++ [c]) (by rwa [List.append_assoc])
      rw [List.append_assoc] at this
      rw [backslashed, List.map_cons, if_neg hc]
      exact this

/-- Nothing reaches from a drive into what follows it: there is no drive, or it ends with its colon,
or a separator comes next, or nothing does. -/
def Apart (q : Text) (rooted : Bool) (ds : List Text) : Prop :=
  q = [] ∨ (∃ c, q = [c, ofChar ':']) ∨ rooted ∨ ds = []

theorem apart_of_cutDrive (h : cutDrive p = (q, r)) (hds : q ≠ [] → r = [] → ds = []) :
    Apart q (isRooted r) ds := by
  by_cases hq : q = []
  · exact .inl hq
  · rcases cutDrive_cases h with ⟨-, hr | hr⟩ | ⟨-, hq' | hc⟩
    · exact .inr (.inr (.inr (hds hq hr)))
    · exact .inr (.inr (.inl hr))
    · exact .inl hq'
    · exact .inr (.inl hc)

theorem apart_joined (h : cutDrive p = (q, joined '\\' rooted ds))
    (hds : ∀ d ∈ ds, d.IsSegment isSep) : Apart q rooted ds := by
  have hnil : joined '\\' rooted ds = [] → ds = [] := by
    intro hnil
    rw [← words_joined isSep_backslash rooted hds, hnil]
    rfl
  rw [← isRooted_joined isSep_backslash rooted hds]
  exact apart_of_cutDrive h fun _ => hnil

theorem ofBytes_append_joined (hsep : sep.isAscii) (hq : OfBytes q) (hds : ∀ d ∈ ds, OfBytes d)
    (h : Apart q rooted ds) : OfBytes (q ++ joined sep rooted ds) := by
  have hseps := Utf8.ofBytes_intercalate hsep hds
  cases rooted with
  | true => exact hq.append_cons hsep hseps
  | false =>
    rcases h with rfl | ⟨c, rfl⟩ | hf | rfl
    · exact hseps
    · have hc := (Utf8.OfBytes.of_append (s := [c]) hq).1
      exact hc.append_cons (by decide : (ofChar ':').isAscii) hseps
    · cases hf
    · exact (List.append_nil q).symm ▸ hq

/-- The normal form of a path of bytes is a path of bytes. -/
theorem ofBytes_normal (h : OfBytes p) : OfBytes (normal p) := by
  rcases hcut : cutDrive (backslashed p) with ⟨q, r⟩
  obtain ⟨ds, hds, hn, hresolve⟩ := exists_segments hcut
  have hback := ofBytes_append_backslashed [] p h
  rw [List.nil_append, append_of_cutDrive hcut] at hback
  obtain ⟨hq, hr⟩ := hback.of_append
  have hbytes : ∀ d ∈ ds, OfBytes d := by
    intro d hd
    rcases (hds d hd).2 with rfl | hd
    · exact Utf8.ofBytes_of_forall_not_isSurrogate (by decide)
    · exact hr.of_infix (Text.isInfix_of_mem_splitOnP (List.mem_filter.mp hd).1)
  rw [hn]
  refine ofBytes_append_joined (by decide) hq hbytes (apart_of_cutDrive hcut ?_)
  rintro hne rfl
  exact hresolve hne

end Locus.Path.Windows
