import Locus.Proofs.Reader.Pruning
import Locus.Proofs.Span.Reading

/-!
Where a file may end. Only colons that a place can follow are tried. Behind any other colon neither
kind of place has an answer, nor has it a fault, so nothing is lost: trying every colon comes to the
same answers in the same order, and to the same fault.
-/

namespace Locus.Span

open Reader (AnswersOnly AgreeOn allows)

/-! ### What places open with -/

theorem answersOnly_natural : AnswersOnly (allows (some opensPlace)) natural := by
  have hdigits := ((Reader.answersOnly_run1 CodePoint.isDigit).tryMap Decimal.read).map Int.ofNat
  refine hdigits.mono ?_
  intro t ht
  cases t with
  | nil => cases ht
  | cons c t => exact Bool.or_eq_true_iff.mpr (.inl ht)

theorem answersOnly_point : AnswersOnly (allows (some opensPlace)) point := by
  have hopen : AnswersOnly (allows (some (· = CodePoint.ofChar '('))) point :=
    ((Reader.answersOnly_satisfy _).keepRight _).keepLeft _
  refine hopen.mono ?_
  intro t ht
  cases t with
  | nil => cases ht
  | cons c t => exact Bool.or_eq_true_iff.mpr (.inr ht)

/-! ### Files that differ at other colons -/

variable {file file' : Reader Text} {follow : Option (CodePoint → Bool)}

theorem onLine_congr (h : AgreeOn (allows (some opensPlace)) file file') :
    onLine file = onLine file' := by
  have hline := h.pair_eq (answersOnly_natural.keepLeft (.char ':'))
  rw [onLine, onLine, hline]

theorem onLines_congr (h : AgreeOn (allows (some opensPlace)) file file') :
    onLines file = onLines file' := by
  have hpoint := h.pair_eq answersOnly_point
  rw [onLines, onLines, hpoint]

/-- Files that are the same wherever a place can follow make the same spans. -/
theorem located_congr (h : AgreeOn (allows (some opensPlace)) file file') :
    located file = located file' := by
  rw [located, located, onLine_congr h, onLines_congr h]

/-- Whatever is asked of the colon behind a file, if only a place can follow where one opens. -/
theorem located_eq_anyFileName (h : ∀ t, StartsPlace t → allows follow t) :
    located ((Reader.upTo ':' follow).optional []) = located anyFileName :=
  located_congr ((Reader.agreeOn_upTo ':' h).optional [])

/-- Trying every colon as the end of the file, the outcome is the same as with those colons only that
a place can follow: the same spans with the same leftovers in the same order, or the same fault. -/
theorem run_located_anyFileName (t : Text) : (located anyFileName).run t = read t := by
  have hfollow : ∀ t, StartsPlace t → allows (some opensPlace) t := fun _ ht => ht
  rw [read, fileName, located_eq_anyFileName hfollow]

/-- Three of four colons lead nowhere, and so does the start of the text. -/
example : (located anyFileName).run "C:\\a::x:(1,2)-(3,4)" =
    .ok [(⟨"C:\\a::x", ⟨1, 2⟩, ⟨3, 4⟩⟩, [])] := by
  decide

end Locus.Span
