import Mathlib.Data.List.Nodup
import Locus.Proofs.Span.Faults

/-!
The grammar of spans. A reading says what file and which numerals a text starts with. `read` gives
all readings of a text, each once, in the order one line before several, shorter files first and no
file last, and a last column before none; no two readings give the same answer.
-/

namespace Locus.Span

open Decimal (IsNumeral number maxDigits)
open Text (DigitRunsWithin)

/-! ### Reading the parts -/

/-- A numeral at the front of a text. -/
def numeral : Grammar Text := fun ds t rest => t = ds ++ rest ∧ IsNumeral ds rest

theorem enumerates_natural :
    natural.Enumerates numeral (fun _ _ => False) fun ds => (number ds : Int) := by
  have hrun : ((Reader.run1 CodePoint.isDigit).tryMap Decimal.read).Enumerates
      (.longest CodePoint.isDigit) (fun _ _ => False) number :=
    (Reader.enumerates_run1 CodePoint.isDigit).tryMap fun _ hb => Decimal.eq_number_of_read hb
  refine (hrun.map fun n => Int.ofNat n).reindex id ?_ (fun _ _ h => h) fun _ => rfl
  intro ds t rest
  simp only [id, exists_eq_left, numeral, Decimal.isNumeral_iff, Grammar.longest]

variable {follow : Option (CodePoint → Bool)}

/-- Where a place comes next, what `follow` asks of a colon says nothing about the file. -/
theorem optional_before_iff (hfollow : ∀ t, StartsPlace t → Reader.allows follow t)
    {f : Option Text} {t rest : Text} (hrest : StartsPlace rest) :
    (Grammar.before ':' follow).optional f t rest ↔ t = Reading.opening f ++ rest := by
  cases f with
  | none => rfl
  | some f =>
    rw [Reading.opening_some]
    exact and_iff_left (hfollow rest hrest)

theorem enumerates_file (follow : Option (CodePoint → Bool)) :
    ((Reader.upTo ':' follow).optional []).Enumerates (Grammar.before ':' follow).optional
      Reading.FileBefore fun f => f.getD [] := by
  have h := (Reader.enumerates_upTo ':' follow).optional []
  simpa only [id, Option.map_id_fun] using h

/-- A last column and the dash before it, or nothing. -/
def lastColumn : Grammar (Option Text) := fun d t rest =>
  t = Place.lastText d ++ rest ∧ ∀ e ∈ d, IsNumeral e rest

theorem enumerates_last :
    (((Reader.char '-').keepRight (natural.map some)).optional none).Enumerates lastColumn
      (missingLast fun _ _ => False) fun d => d.map fun e => (number e : Int) := by
  have hdash := Reader.enumerates_char '-'
  refine ((hdash.keepRight (enumerates_natural.map some)).optional none).reindex
    (Option.map Prod.snd) ?_ ?_ ?_
  · rintro (_ | e) t rest
    · constructor
      · rintro ⟨rfl, -⟩
        exact ⟨none, rfl, rfl⟩
      · rintro ⟨_ | _, he, h⟩
        · exact ⟨h, nofun⟩
        · cases he
    · constructor
      · rintro ⟨rfl, hd⟩
        exact ⟨some ((), e), rfl, _, rfl, rfl, hd e rfl⟩
      · rintro ⟨_ | ⟨_, e'⟩, he, h⟩
        · cases he
        · obtain rfl : e' = e := Option.some.inj he
          obtain ⟨_, rfl, rfl, hd⟩ := h
          refine ⟨rfl, ?_⟩
          intro c hc
          obtain rfl : e' = c := Option.some.inj hc
          exact hd
  · rintro _ (_ | s) (_ | s') _ _ _ _ h
    · exact h
    · exact h
    · exact h
    · simp [missingLast, Prod.lex_def] at h
  · rintro (_ | e) <;> rfl

theorem enumerates_onLine (hfollow : ∀ t, StartsPlace t → Reader.allows follow t) :
    (onLine ((Reader.upTo ':' follow).optional [])).Enumerates
      (fun r t rest => r.place.isLine ∧ r.Fits t rest) Reading.Before Reading.span := by
  have hline := enumerates_natural.keepLeft (Reader.enumerates_char ':')
  have hparts := (((enumerates_file follow).pair hline).pair enumerates_natural).pair enumerates_last
  refine (hparts.map _).reindex
    (fun s => ⟨s.1.1.1, .line s.1.1.2.1 s.1.2 s.2⟩) ?_ ?_ ?_
  · intro r t rest
    constructor
    · rcases r with ⟨f, ⟨l, c, d⟩ | _⟩
      · rintro ⟨-, hfits⟩
        obtain ⟨ht, hl, hc, hd⟩ := Reading.fits_line_iff.mp hfits
        have hf := (optional_before_iff hfollow (startsPlace_of_isNumeral hl _)).mpr ht
        exact ⟨(((f, l, ()), c), d), rfl, _,
          ⟨_, ⟨_, hf, _, ⟨rfl, hl⟩, rfl⟩, rfl, hc⟩, rfl, hd⟩
      · rintro ⟨hline, -⟩
        cases hline
    · rintro ⟨⟨⟨⟨f, l, _⟩, c⟩, d⟩, rfl, _, ⟨_, ⟨_, hf, _, ⟨rfl, hl⟩, rfl⟩, rfl, hc⟩, rfl, hd⟩
      have ht := (optional_before_iff hfollow (startsPlace_of_isNumeral hl _)).mp hf
      exact ⟨rfl, Reading.fits_line_iff.mpr ⟨ht, hl, hc, hd⟩⟩
  · rintro _ ⟨s, d⟩ ⟨s', d'⟩ _ _ _ _ h
    simp only [Prod.lex_def, or_false, and_false] at h
    rcases h with h | ⟨rfl, hlast⟩
    · exact .file rfl h
    · rcases d with _ | d <;> rcases d' with _ | d'
      · exact hlast.elim
      · exact hlast.elim
      · exact .last _ _ _ _
      · exact hlast.elim
  · rintro ⟨⟨⟨f, l, _⟩, c⟩, _ | d⟩ <;> rfl

/-- A point in parentheses at the front of a text. -/
def pointed : Grammar (Text × Text) := fun s t rest =>
  t = "(" ++ (s.1 ++ ("," ++ (s.2 ++ (")" ++ rest)))) ∧
    IsNumeral s.1 ("," ++ (s.2 ++ (")" ++ rest))) ∧ IsNumeral s.2 (")" ++ rest)

theorem enumerates_point :
    point.Enumerates pointed (fun _ _ => False) fun s => (⟨number s.1, number s.2⟩ : Loc) := by
  have hchar := Reader.enumerates_char
  have hinner := (enumerates_natural.keepLeft (hchar ',')).pair enumerates_natural
  have hpoint := hinner.map fun s => (⟨s.1, s.2⟩ : Loc)
  have hparts := ((hchar '(').keepRight hpoint).keepLeft (hchar ')')
  refine hparts.reindex (fun s => (s.1.2.1.1, s.1.2.2)) ?_ ?_ fun _ => rfl
  · rintro ⟨l, c⟩ t rest
    constructor
    · rintro ⟨rfl, hl, hc⟩
      exact ⟨(((), (l, ()), c), ()), rfl, _, ⟨_, rfl, _, ⟨_, ⟨rfl, hl⟩, rfl⟩, rfl, hc⟩, rfl⟩
    · rintro ⟨⟨⟨_, ⟨l, _⟩, c⟩, _⟩, he, _, ⟨_, rfl, _, ⟨_, ⟨rfl, hl⟩, rfl⟩, rfl, hc⟩, rfl⟩
      cases he
      exact ⟨rfl, hl, hc⟩
  · intro _ s s' _ _ _ _ h
    simp [Prod.lex_def] at h

theorem enumerates_onLines (hfollow : ∀ t, StartsPlace t → Reader.allows follow t) :
    (onLines ((Reader.upTo ':' follow).optional [])).Enumerates
      (fun r t rest => ¬r.place.isLine ∧ r.Fits t rest) Reading.Before Reading.span := by
  have hdash := Reader.enumerates_char '-'
  have hparts := (((enumerates_file follow).pair enumerates_point).pair hdash).pair enumerates_point
  refine (hparts.map _).reindex
    (fun s => ⟨s.1.1.1, .block s.1.1.2.1 s.1.1.2.2 s.2.1 s.2.2⟩) ?_ ?_ fun _ => rfl
  · intro r t rest
    constructor
    · rcases r with ⟨f, _ | ⟨l, c, l', c'⟩⟩
      · rintro ⟨hblock, -⟩
        exact absurd rfl hblock
      · rintro ⟨-, hfits⟩
        obtain ⟨ht, hl, hc, hl', hc'⟩ := Reading.fits_block_iff.mp hfits
        have hf := (optional_before_iff hfollow (startsPlace_of_parenthesis _)).mpr ht
        exact ⟨(((f, l, c), ()), l', c'), rfl, _, ⟨_, ⟨_, hf, rfl, hl, hc⟩, rfl⟩, rfl, hl', hc'⟩
    · rintro ⟨⟨⟨⟨f, l, c⟩, _⟩, l', c'⟩, rfl, _, ⟨_, ⟨_, hf, rfl, hl, hc⟩, rfl⟩, rfl, hl', hc'⟩
      have ht := (optional_before_iff hfollow (startsPlace_of_parenthesis _)).mp hf
      exact ⟨Bool.false_ne_true, Reading.fits_block_iff.mpr ⟨ht, hl, hc, hl', hc'⟩⟩
  · intro _ s s' _ _ _ _ h
    simp only [Prod.lex_def, or_false, and_false] at h
    exact .file rfl h

/-- Spans after a file, whatever is asked of a colon that places meet. -/
theorem enumerates_located (hfollow : ∀ t, StartsPlace t → Reader.allows follow t) :
    (located ((Reader.upTo ':' follow).optional [])).Enumerates Reading.Fits Reading.Before
      Reading.span := by
  refine ((enumerates_onLine hfollow).either (enumerates_onLines hfollow)).reindex
    (Sum.elim id id) ?_ ?_ ?_
  · intro r t rest
    rw [Sum.exists]
    simp only [Sum.elim_inl, Sum.elim_inr, id, exists_eq_left, Grammar.orElse]
    rw [← or_and_right]
    exact (and_iff_right (em _)).symm
  · rintro t s s' rest rest' hs hs' (h | h | ⟨r, r'⟩)
    · exact h
    · exact h
    · exact .kind hs.1 hs'.1
  · rintro (r | r) <;> rfl

/-! ### Reading spans -/

/-- Wherever `read` answers, its answers are the readings of the text in their order. -/
theorem exists_readings_of_read {t : Text} {as : List (Span × Text)} (h : read t = .ok as) :
    ∃ ds : List (Reading × Text), as = ds.map (fun d => (d.1.span, d.2)) ∧
      (∀ r rest, (r, rest) ∈ ds ↔ r.Fits t rest) ∧ ds.Pairwise fun d e => d.1.Before e.1 := by
  have hfollow : ∀ t, StartsPlace t → Reader.allows (some opensPlace) t := fun _ ht => ht
  obtain ⟨ds, hl⟩ := enumerates_located hfollow h
  exact ⟨ds, Except.ok.inj (h.symm.trans hl.run_eq), hl.mem_iff, hl.ordered⟩

/-- The readings of a text, in the order in which they are answered. -/
theorem exists_readings {t : Text} (h : DigitRunsWithin maxDigits t) :
    ∃ ds : List (Reading × Text), read t = .ok (ds.map fun d => (d.1.span, d.2)) ∧
      (∀ r rest, (r, rest) ∈ ds ↔ r.Fits t rest) ∧ ds.Pairwise fun d e => d.1.Before e.1 := by
  obtain ⟨as, hread⟩ := exists_read_eq_ok h
  obtain ⟨ds, rfl, hmem, hord⟩ := exists_readings_of_read hread
  exact ⟨ds, hread, hmem, hord⟩

/-- What `read` answers is exactly what the grammar allows: every reading that fits the text, none
twice, in the order of readings, and no answer twice. -/
theorem read_lists_readings (t : Text) (h : DigitRunsWithin maxDigits t) :
    ∃ ds : List (Reading × Text), read t = .ok (ds.map fun d => (d.1.span, d.2)) ∧
      (∀ r rest, (r, rest) ∈ ds ↔ r.Fits t rest) ∧ (ds.Pairwise fun d e => d.1.Before e.1) ∧
      (ds.map fun d => (d.1.span, d.2)).Nodup := by
  obtain ⟨ds, hread, hmem, hord⟩ := exists_readings h
  have hnodup : ds.Nodup := hord.imp fun hde he => hde.ne (congrArg Prod.fst he)
  refine ⟨ds, hread, hmem, hord, hnodup.map_on ?_⟩
  intro d hd e he hde
  exact ((hmem _ _).mp hd).eq_of_answer_eq ((hmem _ _).mp he) hde

/-- A text whose file could end at any of three colons. -/
theorem read_lists_readings_of_colons :
    DigitRunsWithin maxDigits "a:1:2:3-4" ∧
      ∃ ds : List (Reading × Text), read "a:1:2:3-4" = .ok (ds.map fun d => (d.1.span, d.2)) ∧
        (∀ r rest, (r, rest) ∈ ds ↔ r.Fits "a:1:2:3-4" rest) ∧
        (ds.Pairwise fun d e => d.1.Before e.1) ∧ (ds.map fun d => (d.1.span, d.2)).Nodup :=
  have h := Text.digitRunsWithin_of_length_le (by decide)
  ⟨h, read_lists_readings _ h⟩

end Locus.Span
