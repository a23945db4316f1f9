import Mathlib.Tactic.MkIffOfInductiveProp
import Locus.Proofs.Reader.Enumeration
import Locus.Proofs.Text.Decimal
import Locus.Span.Grammar

/-!
Readings of a text as a span: what file and which numerals it starts with. A text has many readings,
since any colon may end the file, but they are told apart by file and leftover, and at most one of
them takes in the whole text.
-/

namespace Locus.Span

open Decimal (IsNumeral number)

/-! ### Places -/

/-- A place as it is written: `LINE:COL`, `LINE:COL-COL` or `(LINE,COL)-(LINE,COL)`. -/
inductive Place where
  | line (line column : Text) (last : Option Text)
  | block (line column lastLine lastColumn : Text)

namespace Place

/-- Whether the place is on one line. -/
def isLine : Place → Bool
  | .line .. => true
  | .block .. => false

/-- The last column and the dash before it, or nothing. -/
def lastText : Option Text → Text
  | none => []
  | some d => "-" ++ d

theorem lastText_injective : Function.Injective lastText := by
  rintro (_ | d) (_ | d') h
  · rfl
  · simp [lastText, Text.ofString] at h
  · simp [lastText, Text.ofString] at h
  · exact congrArg some (List.append_cancel_left h)

/-- The place in writing. -/
def text : Place → Text
  | .line l c d => l ++ ":" ++ c ++ lastText d
  | .block l c l' c' => "(" ++ l ++ "," ++ c ++ ")-(" ++ l' ++ "," ++ c' ++ ")"

/-- The numerals of a place in front of `rest`, each with the text that follows it. -/
def numerals (rest : Text) : Place → List (Text × Text)
  | .line l c d =>
    (l, ":" ++ c ++ lastText d ++ rest) :: (c, lastText d ++ rest) :: d.toList.map (·, rest)
  | .block l c l' c' =>
    [(l, "," ++ c ++ ")-(" ++ l' ++ "," ++ c' ++ ")" ++ rest),
      (c, ")-(" ++ l' ++ "," ++ c' ++ ")" ++ rest), (l', "," ++ c' ++ ")" ++ rest),
      (c', ")" ++ rest)]

/-- Where the place starts. -/
def start : Place → Loc
  | .line l c _ => ⟨number l, number c⟩
  | .block l c _ _ => ⟨number l, number c⟩

/-- Where the place ends: without a last column, where it starts. -/
def stop : Place → Loc
  | .line l c d => ⟨number l, number (d.getD c)⟩
  | .block _ _ l' c' => ⟨number l', number c'⟩

end Place

/-- A text that a place can start. -/
def StartsPlace (t : Text) : Prop := t.head?.any opensPlace

theorem startsPlace_of_isNumeral {ds s : Text} (h : IsNumeral ds s) (t : Text) :
    StartsPlace (ds ++ t) := by
  obtain ⟨d, ds, rfl⟩ := List.exists_cons_of_ne_nil h.ne_nil
  have hd : d.isDigit := h.digits d List.mem_cons_self
  simp [StartsPlace, opensPlace, hd]

theorem startsPlace_of_parenthesis (t : Text) : StartsPlace ("(" ++ t) := rfl

/-! ### Readings -/

/-- How the front of a text reads as a span: the file, if one is named, and the place. -/
structure Reading where
  file : Option Text
  place : Place

namespace Reading

/-- A file and the colon behind it, or nothing. -/
def opening : Option Text → Text
  | none => []
  | some f => f ++ ":"

theorem opening_some (f s : Text) : opening (some f) ++ s = f ++ CodePoint.ofChar ':' :: s := by
  rw [opening, List.append_assoc]
  rfl

/-- The span that is read. -/
def span (r : Reading) : Span := ⟨r.file.getD [], r.place.start, r.place.stop⟩

/-- The text starts as the reading says and goes on with `rest`. Numerals take in all digits. -/
@[mk_iff] structure Fits (r : Reading) (t rest : Text) : Prop where
  text_eq : t = opening r.file ++ r.place.text ++ rest
  numerals : ∀ n ∈ r.place.numerals rest, IsNumeral n.1 n.2

/-- Shorter files come first and no file comes last. -/
abbrev FileBefore : Option Text → Option Text → Prop :=
  missingLast fun f g => f.length < g.length

/-- The order of the readings of one text. -/
inductive Before : Reading → Reading → Prop where
  /-- A place on one line comes before a place over several. -/
  | kind {r s : Reading} : r.place.isLine → ¬s.place.isLine → Before r s
  /-- Places of one kind come in the order of their files. -/
  | file {r s : Reading} : r.place.isLine = s.place.isLine → FileBefore r.file s.file → Before r s
  /-- After the same file, the place with a last column comes before the place without one. -/
  | last (f : Option Text) (l c d : Text) : Before ⟨f, .line l c (some d)⟩ ⟨f, .line l c none⟩

/-! ### The numerals of each shape -/

variable {f d : Option Text} {l c l' c' t rest : Text}

theorem fits_line_iff : Fits ⟨f, .line l c d⟩ t rest ↔
    t = opening f ++ (l ++ (":" ++ (c ++ (Place.lastText d ++ rest)))) ∧
      IsNumeral l (":" ++ (c ++ (Place.lastText d ++ rest))) ∧
      IsNumeral c (Place.lastText d ++ rest) ∧ ∀ e ∈ d, IsNumeral e rest := by
  simp [fits_iff, Place.text, Place.numerals]

/-- The end of a block, from its second point on. -/
abbrev blockEnd (l' c' rest : Text) : Text := "(" ++ (l' ++ ("," ++ (c' ++ (")" ++ rest))))

theorem fits_block_iff : Fits ⟨f, .block l c l' c'⟩ t rest ↔
    t = opening f ++ ("(" ++ (l ++ ("," ++ (c ++ (")" ++ ("-" ++ blockEnd l' c' rest)))))) ∧
      IsNumeral l ("," ++ (c ++ (")" ++ ("-" ++ blockEnd l' c' rest)))) ∧
      IsNumeral c (")" ++ ("-" ++ blockEnd l' c' rest)) ∧
      IsNumeral l' ("," ++ (c' ++ (")" ++ rest))) ∧ IsNumeral c' (")" ++ rest) := by
  have hsep : (")-(" : Text) = ")" ++ ("-" ++ "(") := by simp [Text.ofString]
  simp [fits_iff, Place.text, Place.numerals, hsep]

/-! ### Telling readings apart -/

/-- Readings of one text that name the same file and leave over the same are the same. -/
theorem Fits.eq_of_file_eq {r r' : Reading} (h : r.Fits t rest) (h' : r'.Fits t rest)
    (hfile : r.file = r'.file) : r = r' := by
  have hparen : ¬(CodePoint.ofChar '(').isDigit := by decide
  rcases r with ⟨f, ⟨l, c, d⟩ | ⟨l, c, m, e⟩⟩ <;>
    rcases r' with ⟨f', ⟨l', c', d'⟩ | ⟨l', c', m', e'⟩⟩ <;>
    obtain rfl : f = f' := hfile
  · obtain ⟨rfl, hl, hc, -⟩ := fits_line_iff.mp h
    obtain ⟨ht, hl', hc', -⟩ := fits_line_iff.mp h'
    obtain ⟨rfl, hcol⟩ := hl.append_inj hl' (List.append_cancel_left ht)
    obtain ⟨rfl, hlast⟩ := hc.append_inj hc' (List.append_cancel_left hcol)
    rw [Place.lastText_injective (List.append_cancel_right hlast)]
  · obtain ⟨rfl, hl, -⟩ := fits_line_iff.mp h
    obtain ⟨ht, -⟩ := fits_block_iff.mp h'
    exact absurd (List.append_cancel_left ht) (hl.append_ne_cons hparen)
  · obtain ⟨rfl, -⟩ := fits_block_iff.mp h
    obtain ⟨ht, hl', -⟩ := fits_line_iff.mp h'
    exact absurd (List.append_cancel_left ht).symm (hl'.append_ne_cons hparen)
  · obtain ⟨rfl, hl, hc, hm, he⟩ := fits_block_iff.mp h
    obtain ⟨ht, hl', hc', hm', he'⟩ := fits_block_iff.mp h'
    obtain ⟨rfl, hcol⟩ := hl.append_inj hl' (List.append_cancel_left (List.append_cancel_left ht))
    obtain ⟨rfl, hend⟩ := hc.append_inj hc' (List.append_cancel_left hcol)
    obtain ⟨rfl, hcol'⟩ := hm.append_inj hm' (List.append_cancel_left (List.append_cancel_left
      (List.append_cancel_left hend)))
    obtain ⟨rfl, -⟩ := he.append_inj he' (List.append_cancel_left hcol')
    rfl

theorem opening_injective : Function.Injective opening := by
  rintro (_ | f) (_ | f') h
  · rfl
  · simp [opening, Text.ofString] at h
  · simp [opening, Text.ofString] at h
  · exact congrArg some (List.append_cancel_right h)

/-- What stands behind the last colon. -/
theorem afterLast_opening {s : Text} (hs : CodePoint.ofChar ':' ∉ s) (f : Option Text) :
    (opening f ++ s).afterLast ':' = s := by
  have hrev : ∀ c ∈ s.reverse, decide (c ≠ CodePoint.ofChar ':') := fun c hc =>
    decide_eq_true fun he => hs (he ▸ List.mem_reverse.mp hc)
  have hstop : (opening f).reverse.takeWhile (· ≠ CodePoint.ofChar ':') = [] := by
    cases f with
    | none => rfl
    | some f =>
      rw [opening, List.reverse_append]
      exact List.takeWhile_cons_of_neg (by decide)
  rw [Text.afterLast, List.reverse_append, List.takeWhile_append_of_pos hrev, hstop,
    List.append_nil, List.reverse_reverse]

theorem opening_append_inj {f f' : Option Text} {s s' : Text} (hs : CodePoint.ofChar ':' ∉ s)
    (hs' : CodePoint.ofChar ':' ∉ s') (h : opening f ++ s = opening f' ++ s') :
    f = f' ∧ s = s' := by
  have htail : s = s' := by rw [← afterLast_opening hs f, h, afterLast_opening hs' f']
  subst htail
  exact ⟨opening_injective (List.append_cancel_right h), rfl⟩

theorem not_mem_lastText (h : ∀ e ∈ d, IsNumeral e rest) :
    CodePoint.ofChar ':' ∉ Place.lastText d := by
  cases d with
  | none => exact List.not_mem_nil
  | some e =>
    rw [Place.lastText, List.mem_append, not_or]
    exact ⟨by decide, (h e rfl).not_mem (by decide)⟩

/-- On one line, the last colon of the text stands before the column. -/
theorem Fits.line_behind_colon (h : Fits ⟨f, .line l c d⟩ t []) :
    t = opening (some (opening f ++ l)) ++ (c ++ Place.lastText d) ∧
      CodePoint.ofChar ':' ∉ c ++ Place.lastText d := by
  obtain ⟨rfl, -, hc, hd⟩ := fits_line_iff.mp h
  refine ⟨by simp [opening], ?_⟩
  rw [List.mem_append, not_or]
  exact ⟨hc.not_mem (by decide), not_mem_lastText hd⟩

/-- Over several lines, the last colon of the text stands behind the file. -/
theorem Fits.block_behind_colon (h : Fits ⟨f, .block l c l' c'⟩ t []) :
    ∃ s, t = opening f ++ ("(" ++ s) ∧ CodePoint.ofChar ':' ∉ "(" ++ s := by
  obtain ⟨rfl, hl, hc, hl', hc'⟩ := fits_block_iff.mp h
  have hcolon : ¬(CodePoint.ofChar ':').isDigit := by decide
  refine ⟨_, rfl, ?_⟩
  simp only [blockEnd, List.mem_append, not_or]
  exact ⟨by decide, hl.not_mem hcolon, by decide, hc.not_mem hcolon, by decide, by decide,
    by decide, hl'.not_mem hcolon, by decide, hc'.not_mem hcolon, by decide, List.not_mem_nil⟩

/-- The place behind a colon is on one line or over several, and not both. -/
theorem Fits.not_line_and_block {f' : Option Text} {m e : Text} (h : Fits ⟨f, .line l c d⟩ t [])
    (h' : Fits ⟨f', .block l' c' m e⟩ t []) : False := by
  obtain ⟨ht, hs⟩ := h.line_behind_colon
  obtain ⟨s', ht', hs'⟩ := h'.block_behind_colon
  obtain ⟨-, -, hc, -⟩ := fits_line_iff.mp h
  exact hc.append_ne_cons (by decide) (opening_append_inj hs hs' (ht.symm.trans ht')).2

/-- At most one reading takes in the whole text: its last colon shows where the place is. -/
theorem Fits.eq_of_rest_nil {r r' : Reading} (h : r.Fits t []) (h' : r'.Fits t []) : r = r' := by
  refine h.eq_of_file_eq h' ?_
  rcases r with ⟨f, ⟨l, c, d⟩ | _⟩ <;> rcases r' with ⟨f', ⟨l', c', d'⟩ | _⟩
  · obtain ⟨ht, hs⟩ := h.line_behind_colon
    obtain ⟨ht', hs'⟩ := h'.line_behind_colon
    obtain ⟨hfile, -⟩ := opening_append_inj hs hs' (ht.symm.trans ht')
    have hl := (fits_line_iff.mp h).2.1.not_mem (c := CodePoint.ofChar ':') (by decide)
    have hl' := (fits_line_iff.mp h').2.1.not_mem (c := CodePoint.ofChar ':') (by decide)
    exact (opening_append_inj hl hl' (Option.some.inj hfile)).1
  · exact (h.not_line_and_block h').elim
  · exact (h'.not_line_and_block h).elim
  · obtain ⟨s, ht, hs⟩ := h.block_behind_colon
    obtain ⟨s', ht', hs'⟩ := h'.block_behind_colon
    exact (opening_append_inj hs hs' (ht.symm.trans ht')).1

/-! ### Answers -/

theorem Fits.startsPlace {p : Place} (h : Fits ⟨none, p⟩ t rest) : StartsPlace t := by
  cases p with
  | line l c d =>
    obtain ⟨rfl, hl, -⟩ := fits_line_iff.mp h
    exact startsPlace_of_isNumeral hl _
  | block l c l' c' =>
    obtain ⟨rfl, -⟩ := fits_block_iff.mp h
    exact startsPlace_of_parenthesis _

/-- A file without a name shows by its colon. -/
theorem Fits.file_ne_some_nil {p p' : Place} {rest' : Text} (h : Fits ⟨none, p⟩ t rest) :
    ¬Fits ⟨some [], p'⟩ t rest' := by
  intro h'
  have hstart := h.startsPlace
  rw [h'.text_eq] at hstart
  exact absurd hstart (by simp [StartsPlace, opening, Text.ofString]; decide)

/-- The file and the leftover of an answer show which reading it is. -/
theorem Fits.eq_of_answer_eq {r r' : Reading} {rest' : Text} (h : r.Fits t rest)
    (h' : r'.Fits t rest') (he : (r.span, rest) = (r'.span, rest')) : (r, rest) = (r', rest') := by
  obtain ⟨hspan, rfl⟩ := Prod.mk.inj he
  have hname : r.file.getD [] = r'.file.getD [] := congrArg Span.file hspan
  rcases r with ⟨_ | f, p⟩ <;> rcases r' with ⟨_ | f', p'⟩
  · rw [h.eq_of_file_eq h' rfl]
  · obtain rfl : [] = f' := hname
    exact absurd h' h.file_ne_some_nil
  · obtain rfl : f = [] := hname
    exact absurd h h'.file_ne_some_nil
  · rw [h.eq_of_file_eq h' (congrArg some hname)]

theorem Before.ne {r r' : Reading} (h : r.Before r') : r ≠ r' := by
  rintro rfl
  obtain ⟨f, p⟩ := r
  cases h with
  | kind hr hr' => exact hr' hr
  | file _ hf =>
    cases f with
    | none => exact hf
    | some f => exact lt_irrefl _ hf

end Reading

end Locus.Span
