import Locus.Proofs.Span.Approach
import Locus.Proofs.Span.Print
import Locus.Request

/-!
Spans that are read, printed and read again. Printing may change the shape of a text: zeros in front
of a numeral go, a block on one line becomes a line, a colon without a file goes. Yet the new text
parses whenever the old one does, and to the same span: its numerals are within the limit, and a
numeral of the file that is approached in the new text is approached in the old one, since the file
ends at the same colon in both.
-/

namespace Locus.Span

open Decimal (IsNumeral number maxDigits)
open Text (DigitRunsWithin)

variable {f p p' t : Text} {s : Span} {r : Reading}

/-! ### Texts that do not stumble -/

theorem not_reaches (h : DigitRunsWithin maxDigits t) : ¬Reaches t := by
  rintro ⟨pre, _, rfl, -, ds, rest, ⟨rfl, hds⟩, hlen⟩
  exact not_longNumeral h ⟨pre, ds, rest, rfl, hds, hlen, rfl⟩

theorem not_stumbles (h : DigitRunsWithin maxDigits t) : ¬Stumbles t := by
  rintro ⟨f, u, rfl, hu⟩
  exact not_reaches (h.of_infix (List.suffix_append _ u).isInfix) hu

theorem find?_of_parse_eq_ok (h : parse t = .ok s) : find? t = .ok (some s) := by
  rw [parse] at h
  cases hf : find? t with
  | error e => rw [hf] at h; cases h
  | ok o =>
    rw [hf] at h
    cases o with
    | none => cases h
    | some s' => rw [Except.ok.inj h]

/-- A text that does not stumble parses to the span of the reading that takes in all of it. -/
theorem parse_eq_ok_iff :
    parse t = .ok s ↔ ¬Stumbles t ∧ ∃ r : Reading, r.Fits t [] ∧ r.span = s := by
  rw [← exists_read_iff_not_stumbles]
  constructor
  · intro h
    have hfind := find?_of_parse_eq_ok h
    cases hr : read t with
    | error e => cases (find?_of_read_eq_error hr).symm.trans hfind
    | ok as => exact ⟨⟨as, rfl⟩, exists_fits_of_find? hr hfind⟩
  · rintro ⟨⟨as, has⟩, r, hr, rfl⟩
    rw [parse, find?_of_read_of_fits has hr]
    rfl

/-! ### The numerals of a text that does not stumble -/

/-- Every numeral of the place is within the limit. -/
def Place.IsReadable : Place → Prop
  | .line l c d => Readable l ∧ Readable c ∧ ∀ e ∈ d, Readable e
  | .block l c l' c' => Readable l ∧ Readable c ∧ Readable l' ∧ Readable c'

theorem Readable.number_lt {ds : Text} (h : Readable ds) : (number ds : Int) < 10 ^ maxDigits := by
  have hlt : number ds < 10 ^ maxDigits :=
    (Decimal.number_lt h.digits).trans_le (Nat.pow_le_pow_right (by decide) h.length_le)
  exact_mod_cast hlt

theorem isPrintable_of_readable {l c : Text} (hl : Readable l) (hc : Readable c) :
    Loc.IsPrintable ⟨number l, number c⟩ :=
  ⟨Int.natCast_nonneg _, hl.number_lt, Int.natCast_nonneg _, hc.number_lt⟩

theorem Place.IsReadable.isPrintable {q : Place} (h : q.IsReadable) :
    q.start.IsPrintable ∧ q.stop.IsPrintable := by
  cases q with
  | line l c d =>
    obtain ⟨hl, hc, hd⟩ := h
    refine ⟨isPrintable_of_readable hl hc, ?_⟩
    cases d with
    | none => exact isPrintable_of_readable hl hc
    | some e => exact isPrintable_of_readable hl (hd e rfl)
  | block l c l' c' =>
    obtain ⟨hl, hc, hl', hc'⟩ := h
    exact ⟨isPrintable_of_readable hl hc, isPrintable_of_readable hl' hc'⟩

/-- Each numeral of a reading is approached, so it is within the limit where the text does not
stumble. -/
theorem Reading.Fits.isReadable {rest : Text} (h : r.Fits t rest) (ht : ¬Stumbles t) :
    r.place.IsReadable := by
  have hread : ∀ (pre : Text) {ds u : Text}, t = opening r.file ++ (pre ++ (ds ++ u)) →
      Approach pre → IsNumeral ds u → Readable ds := by
    intro pre ds u htext hpre hds
    refine ⟨hds.ne_nil, hds.digits, Nat.not_lt.mp fun hlen => ht ?_⟩
    exact ⟨r.file, _, htext, pre, _, rfl, hpre, ds, u, ⟨rfl, hds⟩, hlen⟩
  rcases r with ⟨f, ⟨l, c, d⟩ | ⟨l, c, l', c'⟩⟩
  · obtain ⟨rfl, hnl, hnc, hnd⟩ := fits_line_iff.mp h
    have hl := hread [] rfl .line hnl
    have hc := hread (l ++ ":") (by simp) (.column hl) hnc
    refine ⟨hl, hc, ?_⟩
    rintro e rfl
    exact hread (l ++ ":" ++ c ++ "-") (by simp [Place.lastText]) (.last hl hc) (hnd e rfl)
  · obtain ⟨rfl, hnl, hnc, hnl', hnc'⟩ := fits_block_iff.mp h
    have hl := hread "(" rfl .blockLine hnl
    have hc := hread ("(" ++ l ++ ",") (by simp) (.blockColumn hl) hnc
    have hl' := hread ("(" ++ l ++ "," ++ c ++ ")-(") (by simp [blockEnd, Text.ofString])
      (.blockLastLine hl hc) hnl'
    have hc' := hread ("(" ++ l ++ "," ++ c ++ ")-(" ++ l' ++ ",")
      (by simp [blockEnd, Text.ofString]) (.blockLastColumn hl hc hl') hnc'
    exact ⟨hl, hc, hl', hc'⟩

/-! ### Another place behind the file -/

/-- Behind a file, a place whose numerals are within the limit makes no text stumble: if the text
does, it is over the file, and then with any other place behind it too. -/
theorem Stumbles.of_file (h : Stumbles (Reading.opening (some f) ++ p))
    (hp : DigitRunsWithin maxDigits p) (p' : Text) : Stumbles (Reading.opening (some f) ++ p') := by
  obtain ⟨g, _, htext, pre, _, rfl, hpre, ds, rest, ⟨rfl, hds⟩, hlen⟩ := h
  rw [Reading.opening_some, ← List.append_assoc] at htext
  rcases hds.eq_append_cons (by decide) htext with ⟨e, rfl, rfl⟩ | ⟨y, rfl⟩
  · refine ⟨g, _, ?_, pre, _, rfl, hpre, ds, _, ⟨rfl, hds.of_append_cons p'⟩, hlen⟩
    rw [Reading.opening_some]
    simp only [List.append_assoc]
  · have hinfix : ds <:+: y ++ (ds ++ rest) := ⟨y, rest, List.append_assoc y ds rest⟩
    exact absurd (hp ds hinfix hds.digits) (Nat.not_le.mpr hlen)

/-- A file without colons that no place can start is not stumbled over, whatever digits it holds. -/
theorem not_stumbles_of_plain_file (hcolon : CodePoint.ofChar ':' ∉ f) (hstart : ¬StartsPlace f)
    (hp : DigitRunsWithin maxDigits p) : ¬Stumbles (Reading.opening (some f) ++ p) := by
  rintro ⟨g, u, htext, hu⟩
  rw [Reading.opening_some] at htext
  cases g with
  | none =>
    obtain rfl : f ++ CodePoint.ofChar ':' :: p = u := htext
    cases f with
    | nil => exact absurd hu.startsPlace (by simp [StartsPlace]; decide)
    | cons d f => exact hstart hu.startsPlace
  | some g =>
    rw [Reading.opening_some] at htext
    have hsuffix : u <:+ p := by
      rcases List.append_eq_append_iff.mp htext with ⟨e, rfl, he⟩ | ⟨e, rfl, he⟩
      · cases e with
        | nil => exact (List.cons.inj he).2 ▸ List.suffix_rfl
        | cons d e => exact ⟨e ++ [CodePoint.ofChar ':'], by simp [(List.cons.inj he).2]⟩
      · cases e with
        | nil => exact (List.cons.inj he).2 ▸ List.suffix_rfl
        | cons d e =>
          obtain ⟨rfl, -⟩ := List.cons.inj he
          exact absurd (List.mem_append_right g List.mem_cons_self) hcolon
    exact not_reaches (hp.of_infix hsuffix.isInfix) hu

/-- The text does not come to stumble if the place is printed anew, nor if an empty file goes. -/
theorem not_stumbles_reading (hr : r.Fits t []) (ht : ¬Stumbles t) :
    ¬Stumbles (Reading.opening r.span.reading.file ++ r.span.place.text) := by
  have hplace := hr.isReadable ht
  obtain ⟨hstart, hstop⟩ := hplace.isPrintable
  have hprinted : DigitRunsWithin maxDigits r.span.place.text := digitRunsWithin_place hstart hstop
  by_cases hnil : r.span.file = []
  · rw [← opening_reading, if_pos hnil]
    exact not_stumbles hprinted
  · -- the file is not empty, so it is named in the text that was read
    have hfile : r.file = some r.span.file := by
      obtain ⟨_ | f, q⟩ := r
      · exact absurd rfl hnil
      · rfl
    have hopen : r.span.reading.file = r.file := by rw [hfile, reading, if_neg hnil]
    rw [hopen, hfile]
    intro h
    rw [hr.text_eq, List.append_nil, hfile] at ht
    exact ht (h.of_file hprinted _)

/-! ### Reading, printing and reading again -/

theorem exists_print_of_parse (h : parse t = .ok s) :
    ∃ u, s.print = .ok u ∧ parse u = .ok s := by
  obtain ⟨ht, r, hr, rfl⟩ := parse_eq_ok_iff.mp h
  obtain ⟨hstart, hstop⟩ := (hr.isReadable ht).isPrintable
  refine ⟨_, print_eq_ok hstart hstop, parse_eq_ok_iff.mpr ?_⟩
  exact ⟨not_stumbles_reading hr ht, r.span.reading, fits_place _ _, span_reading hstart hstop⟩

theorem reformat_of_parse {u : Text} (h : parse t = .ok s) (hu : s.print = .ok u) :
    Request.reformat t = ⟨[], .ok u⟩ := by
  have hread : Request.readSpan t = ⟨[], .ok (some s)⟩ := by
    rw [Request.readSpan, find?_of_parse_eq_ok h]
    rfl
  have hdemand : Request.demandSpan t = ⟨[], .ok s⟩ := by
    rw [Request.demandSpan, hread, h]
    rfl
  rw [Request.reformat, hdemand]
  change (⟨[], s.print⟩ : Noted Text) = ⟨[], .ok u⟩
  rw [hu]

/-- A span that is read from a text can be printed; the text in print parses to it, and reformatting
leaves it as it is. Of spans that are read, just the equal ones print alike. -/
theorem parse_print_of_parsed (h : parse t = .ok s) :
    (∃ u, s.print = .ok u ∧ parse u = .ok s ∧
      Request.reformat t = ⟨[], .ok u⟩ ∧ Request.reformat u = ⟨[], .ok u⟩) ∧
    ∀ t' s', parse t' = .ok s' → (s = s' ↔ s.print = s'.print) := by
  obtain ⟨u, hu, hparse⟩ := exists_print_of_parse h
  refine ⟨⟨u, hu, hparse, reformat_of_parse h hu, reformat_of_parse hparse hu⟩, ?_⟩
  intro t' s' h'
  refine ⟨congrArg print, fun hprint => ?_⟩
  obtain ⟨u', hu', hparse'⟩ := exists_print_of_parse h'
  obtain rfl : u = u' := Except.ok.inj (hu.symm.trans (hprint.trans hu'))
  exact Except.ok.inj (hparse.symm.trans hparse')

/-- A file with more digits than can be read, and a place with a zero in front and a last column that
are not printed. -/
theorem parse_print_of_parsed_of_long_file :
    let t : Text := Reading.opening (some ("x" ++ List.replicate 4301 (CodePoint.ofChar '1')))
      ++ ("07:2-2" : Text)
    let s : Span := ⟨"x" ++ List.replicate 4301 (CodePoint.ofChar '1'), ⟨7, 2⟩, ⟨7, 2⟩⟩
    parse t = .ok s ∧
      (∃ u, s.print = .ok u ∧ parse u = .ok s ∧
        Request.reformat t = ⟨[], .ok u⟩ ∧ Request.reformat u = ⟨[], .ok u⟩) ∧
      ∀ t' s', parse t' = .ok s' → (s = s' ↔ s.print = s'.print) := by
  intro t s
  have hcolon : CodePoint.ofChar ':' ∉ "x" ++ List.replicate 4301 (CodePoint.ofChar '1') := by
    intro h
    rcases List.mem_append.mp h with h | h
    · exact absurd h (by decide)
    · exact absurd (List.eq_of_mem_replicate h) (by decide)
  have hx : ¬opensPlace (CodePoint.ofChar 'x') := by decide
  have hplain : ¬Stumbles t :=
    not_stumbles_of_plain_file hcolon hx (Text.digitRunsWithin_of_length_le (by decide))
  have hnum : ∀ ds rest : Text, ds ≠ [] ∧ (∀ c ∈ ds, c.isDigit) ∧ (∀ c ∈ rest.head?, ¬c.isDigit) →
      IsNumeral ds rest := fun _ _ h => ⟨h.1, h.2.1, h.2.2⟩
  have hfits : Reading.Fits ⟨some ("x" ++ List.replicate 4301 (CodePoint.ofChar '1')),
      .line "07" "2" (some "2")⟩ t [] := by
    refine Reading.fits_line_iff.mpr ⟨rfl, hnum _ _ (by decide), hnum _ _ (by decide), ?_⟩
    intro e he
    obtain rfl := Option.some.inj he
    exact hnum _ _ (by decide)
  have hparse : parse t = .ok s := parse_eq_ok_iff.mpr ⟨hplain, _, hfits, rfl⟩
  exact ⟨hparse, parse_print_of_parsed hparse⟩

end Locus.Span
