import Locus.Proofs.Reader.Laws
import Locus.Reader.Term
import Locus.Span.Grammar

/-!
Spans as rows of values. The readers of a span are put together pair by pair, each value in its own
type; the values of a row are all of one type, as those of a term are. A span on one line, a point and
a span over several lines are rows of readers whose values are put together at the end, with the same
answers in the same order and with the same faults.
-/

namespace Locus

namespace Reader

variable {α β γ δ ε : Type}

theorem keepLeft_map (p : Reader α) (q : Reader β) (k : α → γ) :
    (p.keepLeft q).map k = (p.map k).keepLeft q := by
  rw [keepLeft, keepLeft, bind_map, map_bind]
  simp only [map_map]

theorem enclosed_map (p : Reader α) (q : Reader β) (r : Reader γ) (k : γ → δ) :
    (p.enclosed q r).map k = p.enclosed q (r.map k) := by
  rw [enclosed, enclosed, keepLeft_map, keepRight, keepRight, bind_map]

/-- Two readers and their values. -/
theorem pair_row (p : Reader α) (q : Reader β) (k : α → ε) (l : β → ε) :
    ((p.pair q).map fun a => [k a.1, l a.2]) = inTurn [p.map k, q.map l] := by
  have hone : (p.map fun a => [k a]) = inTurn [p.map k] := by rw [inTurn_singleton, map_map]
  exact pair_inTurn hone q l

/-- Four readers and their values. -/
theorem pairs_row (p : Reader α) (q : Reader β) (r : Reader γ) (s : Reader δ) (i : α → ε)
    (j : β → ε) (k : γ → ε) (l : δ → ε) :
    ((((p.pair q).pair r).pair s).map fun a => [i a.1.1.1, j a.1.1.2, k a.1.2, l a.2]) =
      inTurn [p.map i, q.map j, r.map k, s.map l] :=
  pair_inTurn (pair_inTurn (pair_row p q i j) r k) s l

end Reader

namespace Span

open Reader (inTurn pair_row pairs_row map_map enclosed_map)

/-- A point as a value. -/
def pointValue (l : Loc) : Value := .list [.int l.line, .int l.column]

/-- A last column as a value. -/
def lastValue (d : Option Int) : Value := (d.map .int).getD .null

/-- The span of a file, a line, a column and a last column. -/
def ofLineRow? : List Value → Option Span
  | [.text f, .int l, .int c, .int d] => some ⟨f, ⟨l, c⟩, ⟨l, d⟩⟩
  | [.text f, .int l, .int c, .null] => some ⟨f, ⟨l, c⟩, ⟨l, c⟩⟩
  | _ => none

/-- The span of a file and two points, whatever stands between these. -/
def ofPointsRow? : List Value → Option Span
  | [.text f, .list [.int l, .int c], _, .list [.int l', .int c']] => some ⟨f, ⟨l, c⟩, ⟨l', c'⟩⟩
  | _ => none

/-- A point is a row of two numerals between parentheses. -/
theorem point_row : point.map pointValue = Reader.enclosed (.char '(') (.char ')')
    ((inTurn [(natural.keepLeft (.char ',')).map .int, natural.map .int]).map .list) := by
  rw [point, enclosed_map, map_map, ← pair_row, map_map]
  rfl

/-- A span on one line is a row of its file and its numerals. -/
theorem onLine_row (file : Reader Text) : (onLine file).map some =
    (inTurn [file.map .text, (natural.keepLeft (.char ':')).map .int, natural.map .int,
      (((Reader.char '-').keepRight (natural.map some)).optional none).map lastValue]).map
        ofLineRow? := by
  rw [onLine, map_map, ← pairs_row, map_map]
  congr
  funext ⟨⟨⟨f, l⟩, c⟩, d⟩
  cases d with
  | none => rfl
  | some d => rfl

/-- A span over several lines is a row of its file and its points. -/
theorem onLines_row (file : Reader Text) : (onLines file).map some =
    (inTurn [file.map .text, point.map pointValue, (Reader.char '-').map fun c => .text [c],
      point.map pointValue]).map ofPointsRow? := by
  rw [onLines, map_map, ← pairs_row, map_map]
  rfl

end Span

end Locus
