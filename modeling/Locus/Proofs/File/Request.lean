import Locus.Request

/-!
Requests beside the functions that they stand for. Once a path style is chosen, a request about a path
or a URI has no fault: it answers what the normal form of the path, the path of the URI or the identity
is, and it makes a note where the URI names no file, and only there.
-/

namespace Locus

/-- Going on from an answer without notes. -/
theorem Noted.ofExcept_bind {α β : Type} (a : α) (f : α → Noted β) :
    ((.ofExcept (.ok a) : Noted α) >>= f) = f a := rfl

namespace Request

/-- What is answered to a URI: the path that it names, or none and a note why. -/
def answer (u : Uri) : Except Uri.Rejection Text → Noted (Option Text)
  | .ok p => .ofExcept (.ok (some p))
  | .error reason => ⟨[.uriRejected u.text reason], .ok none⟩

variable (c : PathStyle) (s : Text) (u : Uri)

theorem normal_chosen : normal (.ok c) s = .ok (Path.normal c s) := by
  rw [normal]
  split
  · next hs =>
    subst hs
    rfl
  · rfl

theorem identify_chosen : identify (.ok c) s = .ok (FileId.ofRaw c s) := by
  rw [identify]
  split
  · next hs =>
    subst hs
    rfl
  · rfl

theorem pathOfUri_chosen : pathOfUri (.ok c) u = answer u (u.toPath c) := by
  rw [pathOfUri]
  refine (Noted.ofExcept_bind c _).trans ?_
  cases u.toPath c with
  | ok p => rfl
  | error reason => rfl

theorem pathOrEmpty_chosen : pathOrEmpty (.ok c) u = answer u (FileId.pathOf c u) := by
  rw [pathOrEmpty, FileId.pathOf]
  split
  · rfl
  · exact pathOfUri_chosen c u

/-- A URI that names no file has an identity, and what is noted about its path is noted still. -/
theorem fileOfUri_chosen (u : CanonicalUri) : fileOfUri (.ok c) u =
    ⟨(answer u.toUri (FileId.pathOf c u.toUri)).notes, .ok (FileId.ofUri c u)⟩ := by
  rw [fileOfUri, pathOrEmpty_chosen, FileId.ofUri]
  simp only [identify_chosen]
  cases FileId.pathOf c u.toUri with
  | ok p => rfl
  | error reason => rfl

end Request

end Locus
