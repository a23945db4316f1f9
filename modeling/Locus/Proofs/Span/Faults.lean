import Locus.Proofs.Span.Reading

/-!
The faults of reading spans. A numeral is turned into a number as soon as it is read, before what
follows it is looked at, and behind every colon that may end the file; so a numeral beyond the limit
ends everything, even where it belongs to no span. Nothing else does: where no run of digits is
beyond the limit, reading answers, and parsing fails only because the text spells no span.
-/

namespace Locus.Span

open Decimal (IsNumeral maxDigits)
open Text (DigitRunsWithin)
open Reader (Tame Fails)

variable {t ds rest : Text} {e : Fault} {file : Reader Text} {f : Option Text}

/-! ### Where faults come from -/

/-- The text holds a numeral beyond the limit, and the fault tells how long it is. -/
def LongNumeral (t : Text) (e : Fault) : Prop :=
  ∃ before ds rest, t = before ++ (ds ++ rest) ∧ IsNumeral ds rest ∧ maxDigits < ds.length ∧
    e = .numeralTooLong ds.length

theorem inherited_longNumeral : Reader.Inherited LongNumeral := by
  rintro _ _ _ ⟨u, rfl⟩ ⟨before, ds, rest, rfl, hds, hlen, he⟩
  exact ⟨u ++ before, ds, rest, (List.append_assoc _ _ _).symm, hds, hlen, he⟩

theorem not_longNumeral (h : DigitRunsWithin maxDigits t) : ¬LongNumeral t e := by
  rintro ⟨before, ds, rest, rfl, hds, hlen, -⟩
  have hinfix : ds <:+: before ++ (ds ++ rest) :=
    ⟨before, rest, List.append_assoc before ds rest⟩
  exact absurd (h ds hinfix hds.digits) (Nat.not_le.mpr hlen)

theorem tame_natural : Tame LongNumeral natural := by
  refine ((Reader.tame_run1 CodePoint.isDigit).tryMap ?_).map _
  intro t as has a ha e he
  rw [Reader.run_run1] at has
  cases has
  split at ha
  · cases ha
  · next hne =>
    obtain rfl := List.mem_singleton.mp ha
    obtain ⟨hlen, rfl⟩ := Decimal.read_eq_error_iff.mp he
    obtain ⟨ht, hds⟩ := Decimal.isNumeral_iff.mpr ⟨hne, rfl, rfl⟩
    exact ⟨[], _, _, ht, hds, hlen, rfl⟩

theorem tame_char (c : CodePoint) : Tame LongNumeral (Reader.char c) := Reader.tame_satisfy _

theorem tame_point : Tame LongNumeral point := by
  have hc := inherited_longNumeral
  have hinner := (tame_natural.keepLeft hc (tame_char ',')).pair hc tame_natural
  exact ((tame_char '(').keepRight hc (hinner.map _)).keepLeft hc (tame_char ')')

theorem tame_onLine (h : Tame LongNumeral file) : Tame LongNumeral (onLine file) := by
  have hc := inherited_longNumeral
  have hlast := ((tame_char '-').keepRight hc (tame_natural.map some)).optional none
  have hline := h.pair hc (tame_natural.keepLeft hc (tame_char ':'))
  exact ((hline.pair hc tame_natural).pair hc hlast).map _

theorem tame_onLines (h : Tame LongNumeral file) : Tame LongNumeral (onLines file) := by
  have hc := inherited_longNumeral
  exact (((h.pair hc tame_point).pair hc (tame_char '-')).pair hc tame_point).map _

theorem tame_located (h : Tame LongNumeral file) : Tame LongNumeral (located file) :=
  (tame_onLine h).either (tame_onLines h)

theorem longNumeral_of_read_eq_error (h : read t = .error e) : LongNumeral t e :=
  (tame_located ((Reader.tame_upTo ':' (some opensPlace)).optional [])).cause_of_error h

theorem exists_read_eq_ok (h : DigitRunsWithin maxDigits t) : ∃ as, read t = .ok as := by
  cases hr : read t with
  | ok as => exact ⟨as, rfl⟩
  | error e => exact absurd (longNumeral_of_read_eq_error hr) (not_longNumeral h)

/-! ### Numerals that end everything -/

theorem fails_natural (h : IsNumeral ds rest) (hlen : maxDigits < ds.length) :
    natural.Fails (ds ++ rest) := by
  obtain ⟨hne, htake, hdrop⟩ := Decimal.isNumeral_iff.mp ⟨rfl, h⟩
  have hrun : (Reader.run1 CodePoint.isDigit).run (ds ++ rest) = .ok [(ds, rest)] := by
    rw [Reader.run_run1, htake, hdrop, if_neg hne]
  exact (Reader.fails_tryMap_of_mem hrun List.mem_cons_self
    (Decimal.read_eq_error_iff.mpr ⟨hlen, rfl⟩)).map _

/-- A file and the colon behind it are read wherever a place may follow. -/
theorem exists_run_fileName (f : Option Text) (h : StartsPlace rest) :
    ∃ as, fileName.run (Reading.opening f ++ rest) = .ok as ∧ (f.getD [], rest) ∈ as := by
  refine ⟨_, rfl, ?_⟩
  cases f with
  | none => exact List.mem_append_right _ List.mem_cons_self
  | some f =>
    refine List.mem_append_left _ (Reader.mem_cuts.mpr ⟨?_, h⟩)
    rw [Reading.opening, List.append_assoc]
    rfl

/-- A numeral beyond the limit that stands where a line may stand ends everything, whatever comes
behind it. -/
theorem fails_read (h : IsNumeral ds rest) (hlen : maxDigits < ds.length) (f : Option Text) :
    (located fileName).Fails (Reading.opening f ++ (ds ++ rest)) := by
  obtain ⟨as, has, hmem⟩ := exists_run_fileName f (startsPlace_of_isNumeral h rest)
  have hline := Reader.fails_pair_of_mem has hmem ((fails_natural h hlen).keepLeft (.char ':'))
  exact (((hline.pair natural).pair _).map _).either _

/-! ### The three requests -/

theorem find?_of_read_eq_error (h : read t = .error e) : find? t = .error e := by
  rw [find?, h]
  rfl

theorem parse_of_read_eq_error (h : read t = .error e) : parse t = .error e := by
  rw [parse, find?_of_read_eq_error h]
  rfl

theorem find?_of_read_eq_ok {as : List (Span × Text)} (h : read t = .ok as) :
    find? t = .ok (Reader.whole as).head? := by
  rw [find?, h]
  rfl

/-- Where reading answers, parsing gives a span, or there is none and it says so. -/
theorem parse_of_read_eq_ok {as : List (Span × Text)} (h : read t = .ok as) :
    (∃ s, find? t = .ok (some s) ∧ parse t = .ok s) ∨
      find? t = .ok none ∧ parse t = .error (.notSpan (.ofText t)) := by
  have hfind := find?_of_read_eq_ok h
  rw [parse, hfind]
  cases (Reader.whole as).head? with
  | none => exact .inr ⟨rfl, rfl⟩
  | some s => exact .inl ⟨s, rfl, rfl⟩

/-- Reading fails only on a numeral beyond the limit that the text holds, and finding and parsing
fail in the same way; otherwise finding answers, and parsing gives the span that is found or says
that the text spells none. So where no run of digits is beyond the limit, nothing else can happen.
But a numeral beyond the limit ends all three wherever a line could be read, whatever comes behind. -/
theorem read_fails_only_on_long_numerals (t : Text) :
    ((∃ as, read t = .ok as ∧ find? t = .ok (Reader.whole as).head? ∧
          ((∃ s, find? t = .ok (some s) ∧ parse t = .ok s) ∨
            find? t = .ok none ∧ parse t = .error (.notSpan (.ofText t)))) ∨
        ∃ e, LongNumeral t e ∧ read t = .error e ∧ find? t = .error e ∧ parse t = .error e) ∧
      (DigitRunsWithin maxDigits t → ∃ as, read t = .ok as) ∧
      ∀ f ds rest, t = Reading.opening f ++ (ds ++ rest) → IsNumeral ds rest →
        maxDigits < ds.length →
          ∃ e, read t = .error e ∧ find? t = .error e ∧ parse t = .error e := by
  refine ⟨?_, exists_read_eq_ok, ?_⟩
  · cases hr : read t with
    | ok as => exact .inl ⟨as, rfl, find?_of_read_eq_ok hr, parse_of_read_eq_ok hr⟩
    | error e =>
      exact .inr ⟨e, longNumeral_of_read_eq_error hr, rfl, find?_of_read_eq_error hr,
        parse_of_read_eq_error hr⟩
  · rintro f ds rest rfl hds hlen
    obtain ⟨e, he⟩ := fails_read hds hlen f
    exact ⟨e, he, find?_of_read_eq_error he, parse_of_read_eq_error he⟩

theorem isNumeral_replicate {n : Nat} (hn : n ≠ 0) (h : ∀ c ∈ rest.head?, ¬c.isDigit) :
    IsNumeral (List.replicate n (CodePoint.ofChar '1')) rest where
  ne_nil := (List.replicate_eq_nil_iff _).not.mpr hn
  digits c hc := by
    rw [List.eq_of_mem_replicate hc]
    decide
  ends := h

/-- A numeral beyond the limit behind a file, of which no span could come. -/
theorem read_fails_only_on_long_numerals_of_file :
    (∃ as, read "a:1:2-" = .ok as) ∧ ∃ e,
      read ("a:" ++ (List.replicate 4301 (CodePoint.ofChar '1') ++ "x")) = .error e ∧
      find? ("a:" ++ (List.replicate 4301 (CodePoint.ofChar '1') ++ "x")) = .error e ∧
      parse ("a:" ++ (List.replicate 4301 (CodePoint.ofChar '1') ++ "x")) = .error e := by
  have hlen : maxDigits < (List.replicate 4301 (CodePoint.ofChar '1')).length := by
    rw [List.length_replicate]
    decide
  obtain ⟨-, hanswers, -⟩ := read_fails_only_on_long_numerals "a:1:2-"
  obtain ⟨-, -, hfails⟩ := read_fails_only_on_long_numerals
    ("a:" ++ (List.replicate 4301 (CodePoint.ofChar '1') ++ "x"))
  exact ⟨hanswers (Text.digitRunsWithin_of_length_le (by decide)),
    hfails (some "a") _ "x" rfl (isNumeral_replicate (by decide) (by decide)) hlen⟩

/-- A text of digits alone, which spells no span, is not said to spell none. -/
theorem parse_fails_on_long_numeral :
    read (List.replicate 4301 (CodePoint.ofChar '1')) = .error (.numeralTooLong 4301) ∧
      find? (List.replicate 4301 (CodePoint.ofChar '1')) = .error (.numeralTooLong 4301) ∧
      parse (List.replicate 4301 (CodePoint.ofChar '1')) = .error (.numeralTooLong 4301) := by
  have hlen : maxDigits < (List.replicate 4301 (CodePoint.ofChar '1')).length := by
    rw [List.length_replicate]
    decide
  have hones : IsNumeral (List.replicate 4301 (CodePoint.ofChar '1')) [] :=
    isNumeral_replicate (by decide) nofun
  obtain ⟨e, he⟩ := fails_read hones hlen none
  rw [Reading.opening, List.nil_append, List.append_nil] at he
  obtain ⟨before, ds, rest, ht, -, hds, rfl⟩ := longNumeral_of_read_eq_error he
  have hlength := congrArg List.length ht
  rw [List.length_replicate, List.length_append, List.length_append] at hlength
  have hmax : maxDigits = 4300 := rfl
  have hread : read (List.replicate 4301 (CodePoint.ofChar '1')) =
      .error (.numeralTooLong 4301) := by
    rw [show ds.length = 4301 by omega] at he
    exact he
  exact ⟨hread, find?_of_read_eq_error hread, parse_of_read_eq_error hread⟩

end Locus.Span
