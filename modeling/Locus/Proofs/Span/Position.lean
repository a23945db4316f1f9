import Locus.Proofs.Span.Print

/-!
Points of compiler output and positions of an editor. A point becomes the position one line and one
column before it, and what lies before the first line or column counts as the first. Line and column
are held back each by itself, but the order looks at the line first; so lines zero and one fall
together, and a point on the one may come to lie behind a point on the other. A span that starts
no later than it ends becomes a range that does not in this case and in no other. A position that is
displayed, behind any file, is read as the point that it was displayed as, and this becomes the position.
-/

namespace Locus

open Decimal (maxDigits)
open Text (DigitRunsWithin)

/-! ### The order of points and of positions -/

theorem isLE_compare_then_iff {a b c d : Int} :
    ((compare a b).then (compare c d)).isLE ↔ a < b ∨ a = b ∧ c ≤ d := by
  rw [Ordering.isLE_then_iff_or, Int.compare_eq_lt, Int.compare_eq_eq, Int.isLE_compare]

theorem Loc.isLE_compare_iff {a b : Loc} :
    (compare a b).isLE ↔ a.line < b.line ∨ a.line = b.line ∧ a.column ≤ b.column :=
  isLE_compare_then_iff

theorem Position.isLE_compare_iff {p q : Position} :
    (compare p q).isLE ↔ p.line < q.line ∨ p.line = q.line ∧ p.character ≤ q.character :=
  isLE_compare_then_iff

/-- Points in order become positions in order, unless their lines differ and fall together, and the
later point lies further to the left. -/
theorem Loc.isLE_toPosition_iff {a b : Loc} (h : (compare a b).isLE) :
    (compare a.toPosition b.toPosition).isLE ↔
      ¬(a.line < b.line ∧ b.line ≤ 1 ∧ 1 < a.column ∧ b.column < a.column) := by
  rw [isLE_compare_iff] at h
  rw [Position.isLE_compare_iff]
  simp only [toPosition]
  omega

namespace Span

variable {rest t : Text} {s : Span} {as : List (Span × Text)}

/-- Lines that are read are natural numbers. -/
theorem start_line_nonneg (has : read t = .ok as) (hs : (s, rest) ∈ as) : 0 ≤ s.start.line := by
  obtain ⟨ds, rfl, -, -⟩ := exists_readings_of_read has
  obtain ⟨⟨⟨file, place⟩, _⟩, -, he⟩ := List.mem_map.mp hs
  obtain ⟨rfl, -⟩ := Prod.mk.inj he
  cases place <;> simp [Reading.span, Place.start]

/-- A span that is read and starts no later than it ends becomes such a range, unless it goes from a
column beyond the first on line zero to an earlier column on line one. -/
theorem toRange_ordered_iff (has : read t = .ok as) (hs : (s, rest) ∈ as)
    (h : (compare s.start s.stop).isLE) :
    (compare (toRange (some s)).start (toRange (some s)).stop).isLE ↔
      ¬(s.start.line = 0 ∧ s.stop.line = 1 ∧ 1 < s.start.column ∧
        s.stop.column < s.start.column) := by
  have hline := start_line_nonneg has hs
  simp only [toRange, Loc.isLE_toPosition_iff h]
  omega

/-- A span from line zero to line one that is in order, with the columns in order too. -/
theorem toRange_ordered_iff_of_line_zero :
    let s : Span := ⟨"a", ⟨0, 5⟩, ⟨1, 9⟩⟩
    read "a:(0,5)-(1,9)" = .ok [(s, [])] ∧ (compare s.start s.stop).isLE ∧
      (compare (toRange (some s)).start (toRange (some s)).stop).isLE := by
  intro s
  have has : read "a:(0,5)-(1,9)" = .ok [(s, [])] := by decide
  have h : (compare s.start s.stop).isLE := by decide
  exact ⟨has, h, (toRange_ordered_iff has List.mem_cons_self h).mpr (by decide)⟩

/-- The point at column two of line zero comes before the first point of line one, but its position
comes behind that of the other. -/
theorem toRange_inverts_of_line_zero :
    let s : Span := ⟨[], ⟨0, 2⟩, ⟨1, 1⟩⟩
    read "(0,2)-(1,1)" = .ok [(s, [])] ∧ (compare s.start s.stop).isLE ∧
      ¬(compare (toRange (some s)).start (toRange (some s)).stop).isLE := by
  decide

end Span

/-! ### Displayed positions -/

namespace Position

variable {p : Position}

/-- The point of a position, counted from one. -/
def toLoc (p : Position) : Loc := ⟨p.line + 1, p.character + 1⟩

/-- Both numbers are natural, and counted from one they can be printed within the limit of digits. -/
structure IsDisplayable (p : Position) : Prop where
  line_nonneg : 0 ≤ p.line
  line_lt : p.line + 1 < 10 ^ maxDigits
  character_nonneg : 0 ≤ p.character
  character_lt : p.character + 1 < 10 ^ maxDigits

theorem IsDisplayable.isPrintable (h : p.IsDisplayable) : p.toLoc.IsPrintable :=
  ⟨Int.le_add_one h.line_nonneg, h.line_lt, Int.le_add_one h.character_nonneg, h.character_lt⟩

theorem IsDisplayable.toPosition_toLoc (h : p.IsDisplayable) : p.toLoc.toPosition = p := by
  simp [Loc.toPosition, toLoc, h.line_nonneg, h.character_nonneg]

end Position

namespace Span

variable {f : Text} {p : Position}

/-- A span of a single point is printed as the position of the point is displayed. -/
theorem print_toLoc (f : Text) (p : Position) : print ⟨f, p.toLoc, p.toLoc⟩ =
    p.display.map fun shown => if f = [] then shown else f ++ ":" ++ shown := by
  simp only [print, isOnOneLine, printLine, Position.toLoc, Position.display, decide_true, if_true]
  cases Decimal.print (p.line + 1) with
  | error e => rfl
  | ok line => cases Decimal.print (p.character + 1) <;> rfl

/-- A position that is displayed, alone or behind a file of any look, is found as a span of a single
point, and the range of this span is the position. -/
theorem find?_display (hp : p.IsDisplayable) (hf : DigitRunsWithin maxDigits f) :
    ∃ shown, p.display = .ok shown ∧
      find? (if f = [] then shown else f ++ ":" ++ shown) = .ok (some ⟨f, p.toLoc, p.toLoc⟩) ∧
      toRange (some ⟨f, p.toLoc, p.toLoc⟩) = ⟨p, p⟩ := by
  have hloc := hp.isPrintable
  have hprint := print_eq_ok (s := ⟨f, p.toLoc, p.toLoc⟩) hloc hloc
  have hfind := find?_reading (s := ⟨f, p.toLoc, p.toLoc⟩) hloc hloc hf
  rw [print_toLoc] at hprint
  obtain ⟨shown, hshown, htext⟩ := map_eq_ok_iff.mp hprint
  rw [← htext] at hfind
  refine ⟨shown, hshown, hfind, ?_⟩
  simp only [toRange, hp.toPosition_toLoc]

/-- The first position of a document, behind a file that ends like a place. -/
theorem find?_display_of_first :
    let p : Position := ⟨0, 0⟩
    let f : Text := "(3,4)-(5,6):7"
    p.IsDisplayable ∧ DigitRunsWithin maxDigits f ∧
      ∃ shown, p.display = .ok shown ∧
        find? (f ++ ":" ++ shown) = .ok (some ⟨f, ⟨1, 1⟩, ⟨1, 1⟩⟩) ∧
        toRange (some ⟨f, ⟨1, 1⟩, ⟨1, 1⟩⟩) = ⟨p, p⟩ := by
  intro p f
  have hp : p.IsDisplayable :=
    ⟨by decide, Decimal.lt_limit_of_lt (by decide), by decide, Decimal.lt_limit_of_lt (by decide)⟩
  have hf : DigitRunsWithin maxDigits f := Text.digitRunsWithin_of_length_le (by decide)
  obtain ⟨shown, hshown, hfind, hrange⟩ := find?_display hp hf
  rw [if_neg (by decide)] at hfind
  exact ⟨hp, hf, shown, hshown, hfind, hrange⟩

end Span

end Locus
