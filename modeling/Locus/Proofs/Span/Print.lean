import Locus.Proofs.Span.Grammar

/-!
Spans that are printed read back. The text of a span is that of a reading which takes in all of it,
and there is at most one such reading, so what the file looks like makes no difference.
-/

namespace Locus

/-- Both numbers are natural and can be printed within the limit of digits. -/
structure Loc.IsPrintable (l : Loc) : Prop where
  line_nonneg : 0 ≤ l.line
  line_lt : l.line < 10 ^ Decimal.maxDigits
  column_nonneg : 0 ≤ l.column
  column_lt : l.column < 10 ^ Decimal.maxDigits

namespace Span

open Decimal (IsNumeral number digits maxDigits)
open Text (DigitRunsWithin)

/-! ### The span that the whole text spells -/

/-- A reading that takes in the whole text is the one that is found, if reading answers at all. -/
theorem find?_of_read_of_fits {t : Text} {as : List (Span × Text)} {r : Reading}
    (has : read t = .ok as) (hr : r.Fits t []) : find? t = .ok (some r.span) := by
  obtain ⟨ds, rfl, hmem, -⟩ := exists_readings_of_read has
  -- whatever else is read leaves something over
  have hwhole : ∀ s, s ∈ Reader.whole (ds.map fun d => (d.1.span, d.2)) ↔ s = r.span := by
    intro s
    simp only [Reader.whole, List.mem_map, List.mem_filter, decide_eq_true_eq]
    constructor
    · rintro ⟨_, ⟨⟨⟨r', rest⟩, hd, rfl⟩, rfl⟩, rfl⟩
      rw [((hmem _ _).mp hd).eq_of_rest_nil hr]
    · rintro rfl
      exact ⟨(r.span, []), ⟨⟨(r, []), (hmem _ _).mpr hr, rfl⟩, rfl⟩, rfl⟩
  have hhead : (Reader.whole (ds.map fun d => (d.1.span, d.2))).head? = some r.span := by
    obtain ⟨s, l, hl⟩ := List.exists_cons_of_ne_nil (List.ne_nil_of_mem ((hwhole _).mpr rfl))
    have hs : s = r.span := (hwhole s).mp (hl ▸ List.mem_cons_self)
    rw [hl, hs]
    rfl
  rw [find?_of_read_eq_ok has, hhead]

/-- A span that is found is that of such a reading. -/
theorem exists_fits_of_find? {t : Text} {as : List (Span × Text)} {s : Span}
    (has : read t = .ok as) (h : find? t = .ok (some s)) :
    ∃ r : Reading, r.Fits t [] ∧ r.span = s := by
  obtain ⟨ds, rfl, hmem, -⟩ := exists_readings_of_read has
  rw [find?_of_read_eq_ok has] at h
  have hwhole := List.mem_of_head? (Except.ok.inj h)
  obtain ⟨⟨_, rest⟩, ha, rfl⟩ := List.mem_map.mp hwhole
  obtain ⟨ha, hnil⟩ := List.mem_filter.mp ha
  obtain rfl : rest = [] := decide_eq_true_eq.mp hnil
  obtain ⟨⟨r, _⟩, hd, he⟩ := List.mem_map.mp ha
  obtain ⟨rfl, rfl⟩ := Prod.mk.inj he
  exact ⟨r, (hmem r []).mp hd, rfl⟩

theorem find?_of_fits {t : Text} {r : Reading} (ht : DigitRunsWithin maxDigits t)
    (hr : r.Fits t []) : find? t = .ok (some r.span) := by
  obtain ⟨as, has⟩ := exists_read_eq_ok ht
  exact find?_of_read_of_fits has hr

/-! ### The reading of a printed span -/

/-- The place of a span as it is printed. -/
def place (s : Span) : Place :=
  if s.isOnOneLine then
    .line (digits s.start.line.natAbs) (digits s.start.column.natAbs)
      (if s.stop.column = s.start.column then none else some (digits s.stop.column.natAbs))
  else
    .block (digits s.start.line.natAbs) (digits s.start.column.natAbs) (digits s.stop.line.natAbs)
      (digits s.stop.column.natAbs)

/-- The reading of a span as it is printed. -/
def reading (s : Span) : Reading := ⟨if s.file = [] then none else some s.file, s.place⟩

variable {s : Span}

theorem opening_reading (s : Span) (place : Text) :
    (if s.file = [] then place else s.file ++ ":" ++ place) =
      Reading.opening s.reading.file ++ place := by
  rw [reading]
  split <;> rfl

/-- A span with printable numbers is printed as its reading says. -/
theorem print_eq_ok (hstart : s.start.IsPrintable) (hstop : s.stop.IsPrintable) :
    s.print = .ok (Reading.opening s.reading.file ++ s.place.text) := by
  have hl := Decimal.print_eq_ok hstart.line_nonneg hstart.line_lt
  have hc := Decimal.print_eq_ok hstart.column_nonneg hstart.column_lt
  have hl' := Decimal.print_eq_ok hstop.line_nonneg hstop.line_lt
  have hc' := Decimal.print_eq_ok hstop.column_nonneg hstop.column_lt
  rw [← opening_reading, print, place]
  cases hone : s.isOnOneLine with
  | false =>
    rw [printBlock, hl, hc, hl', hc']
    rfl
  | true =>
    rw [printLine, hl, hc, hc']
    by_cases heq : s.stop.column = s.start.column
    · simp [heq, Place.text, Place.lastText, bind, Except.bind, pure, Except.pure]
    · simp [heq, Place.text, Place.lastText, bind, Except.bind, pure, Except.pure]

theorem span_reading (hstart : s.start.IsPrintable) (hstop : s.stop.IsPrintable) :
    s.reading.span = s := by
  have hnum : ∀ i : Int, 0 ≤ i → (number (digits i.natAbs) : Int) = i := by
    intro i hi
    rw [Decimal.number_digits, Int.natAbs_of_nonneg hi]
  have hl := hnum _ hstart.line_nonneg
  have hc := hnum _ hstart.column_nonneg
  have hl' := hnum _ hstop.line_nonneg
  have hc' := hnum _ hstop.column_nonneg
  obtain ⟨file, ⟨l, c⟩, ⟨l', c'⟩⟩ := s
  have hfile : (if file = [] then none else some file).getD [] = file := by
    split
    · next h => exact h.symm
    · rfl
  rw [reading, Reading.span, place, hfile]
  cases hone : isOnOneLine ⟨file, ⟨l, c⟩, ⟨l', c'⟩⟩ with
  | false => simp_all [Place.start, Place.stop]
  | true =>
    obtain rfl : l = l' := of_decide_eq_true hone
    by_cases heq : c' = c
    · simp_all [Place.start, Place.stop]
    · simp_all [Place.start, Place.stop]

theorem fits_place (s : Span) (f : Option Text) :
    Reading.Fits ⟨f, s.place⟩ (Reading.opening f ++ s.place.text) [] := by
  have hdigits : ∀ (n : Nat) (c : Char) (t : Text), ¬(CodePoint.ofChar c).isDigit →
      IsNumeral (digits n) (CodePoint.ofChar c :: t) :=
    fun n c t hc => Decimal.isNumeral_digits n fun a ha => Option.some.inj ha ▸ hc
  have hend : ∀ n : Nat, IsNumeral (digits n) [] := fun n => Decimal.isNumeral_digits n nofun
  rw [place]
  split
  · refine Reading.fits_line_iff.mpr ⟨by simp [Place.text], hdigits _ ':' _ (by decide), ?_, ?_⟩
    · split
      · exact hend _
      · exact hdigits _ '-' _ (by decide)
    · intro e he
      split at he
      · cases he
      · obtain rfl := Option.some.inj he
        exact hend _
  · refine Reading.fits_block_iff.mpr ⟨by simp [Place.text, Reading.blockEnd, Text.ofString],
      hdigits _ ',' _ (by decide), hdigits _ ')' _ (by decide), hdigits _ ',' _ (by decide),
      hdigits _ ')' _ (by decide)⟩

/-! ### The digits of a printed span -/

theorem digitRunsWithin_line {limit : Nat} {l c : Text} {d : Option Text}
    (hl : DigitRunsWithin limit l) (hc : DigitRunsWithin limit c)
    (hd : ∀ e ∈ d, DigitRunsWithin limit e) :
    DigitRunsWithin limit (Place.line l c d).text := by
  have hlast : DigitRunsWithin limit (c ++ Place.lastText d) := by
    cases d with
    | none => rwa [Place.lastText, List.append_nil]
    | some e => exact hc.append_cons (by decide) (hd e rfl)
  have htext : (Place.line l c d).text = l ++ CodePoint.ofChar ':' :: (c ++ Place.lastText d) := by
    simp [Place.text, Text.ofString]
  rw [htext]
  exact hl.append_cons (by decide) hlast

theorem digitRunsWithin_block {limit : Nat} {l c l' c' : Text} (hl : DigitRunsWithin limit l)
    (hc : DigitRunsWithin limit c) (hl' : DigitRunsWithin limit l')
    (hc' : DigitRunsWithin limit c') : DigitRunsWithin limit (Place.block l c l' c').text := by
  have hnil : DigitRunsWithin limit [] := Text.digitRunsWithin_of_length_le (Nat.zero_le _)
  have htext : (Place.block l c l' c').text =
      [] ++ CodePoint.ofChar '(' :: (l ++ CodePoint.ofChar ',' :: (c ++ CodePoint.ofChar ')' ::
        ([] ++ CodePoint.ofChar '-' :: ([] ++ CodePoint.ofChar '(' ::
          (l' ++ CodePoint.ofChar ',' :: (c' ++ CodePoint.ofChar ')' :: [])))))) := by
    simp [Place.text, Text.ofString]
  rw [htext]
  have h₂ := hl'.append_cons (c := CodePoint.ofChar ',') (by decide)
    (hc'.append_cons (c := CodePoint.ofChar ')') (by decide) hnil)
  have h₁ := hnil.append_cons (c := CodePoint.ofChar '-') (by decide)
    (hnil.append_cons (c := CodePoint.ofChar '(') (by decide) h₂)
  exact hnil.append_cons (by decide) (hl.append_cons (by decide) (hc.append_cons (by decide) h₁))

theorem digitRunsWithin_place (hstart : s.start.IsPrintable) (hstop : s.stop.IsPrintable) :
    DigitRunsWithin maxDigits s.place.text := by
  have hdigits : ∀ i : Int, 0 ≤ i → i < 10 ^ maxDigits →
      DigitRunsWithin maxDigits (digits i.natAbs) := by
    intro i h0 h
    exact Text.digitRunsWithin_of_length_le (Decimal.length_digits_natAbs_le h0 h)
  have hl := hdigits _ hstart.line_nonneg hstart.line_lt
  have hc := hdigits _ hstart.column_nonneg hstart.column_lt
  have hl' := hdigits _ hstop.line_nonneg hstop.line_lt
  have hc' := hdigits _ hstop.column_nonneg hstop.column_lt
  rw [place]
  split
  · refine digitRunsWithin_line hl hc ?_
    intro e he
    split at he
    · cases he
    · rwa [← Option.some.inj he]
  · exact digitRunsWithin_block hl hc hl' hc'

theorem digitRunsWithin_reading (hstart : s.start.IsPrintable) (hstop : s.stop.IsPrintable)
    (hfile : DigitRunsWithin maxDigits s.file) :
    DigitRunsWithin maxDigits (Reading.opening s.reading.file ++ s.place.text) := by
  have hplace := digitRunsWithin_place hstart hstop
  rw [← opening_reading]
  split
  · exact hplace
  · rw [show s.file ++ ":" ++ s.place.text = s.file ++ CodePoint.ofChar ':' :: s.place.text from
      Reading.opening_some _ _]
    exact hfile.append_cons (by decide) hplace

/-- The text of the reading is read as the span. -/
theorem find?_reading (hstart : s.start.IsPrintable) (hstop : s.stop.IsPrintable)
    (hfile : DigitRunsWithin maxDigits s.file) :
    find? (Reading.opening s.reading.file ++ s.place.text) = .ok (some s) := by
  have hfits : s.reading.Fits (Reading.opening s.reading.file ++ s.place.text) [] := s.fits_place _
  rw [find?_of_fits (digitRunsWithin_reading hstart hstop hfile) hfits, span_reading hstart hstop]

/-- A printed span reads back, whatever its file looks like. -/
theorem find?_print (s : Span) (hstart : s.start.IsPrintable) (hstop : s.stop.IsPrintable)
    (hfile : DigitRunsWithin maxDigits s.file) : ∃ t, s.print = .ok t ∧ find? t = .ok (some s) := by
  refine ⟨_, print_eq_ok hstart hstop, ?_⟩
  exact find?_reading hstart hstop hfile

/-- A file that looks like a place, and a last column before the first. -/
theorem find?_print_of_file_like_place :
    let s : Span := ⟨"(1,2)-(3,4):5:6-", ⟨7, 12⟩, ⟨7, 9⟩⟩
    (s.start.IsPrintable ∧ s.stop.IsPrintable ∧ DigitRunsWithin maxDigits s.file) ∧
      ∃ t, s.print = .ok t ∧ find? t = .ok (some s) := by
  have hstart : Loc.IsPrintable ⟨7, 12⟩ :=
    ⟨by decide, Decimal.lt_limit_of_lt (by decide), by decide, Decimal.lt_limit_of_lt (by decide)⟩
  have hstop : Loc.IsPrintable ⟨7, 9⟩ :=
    ⟨by decide, Decimal.lt_limit_of_lt (by decide), by decide, Decimal.lt_limit_of_lt (by decide)⟩
  have hfile : DigitRunsWithin maxDigits (Text.ofString "(1,2)-(3,4):5:6-") :=
    Text.digitRunsWithin_of_length_le (by decide)
  exact ⟨⟨hstart, hstop, hfile⟩, find?_print _ hstart hstop hfile⟩

end Span

end Locus
