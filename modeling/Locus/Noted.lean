import Locus.Fault.Message
import Locus.Uri.File

/-!
Notes for debugging. A URI that names no file and a text that spells no span are answers, not faults,
but they are noted. A request answers or fails, and its notes stay either way.
-/

namespace Locus

/-- What is noted. -/
inductive Note where
  | uriRejected (uri : Text) (reason : Uri.Rejection)
  | noSpan (text : Text)
deriving DecidableEq

/-- The text of a note. -/
def Note.message : Note → Text
  | .uriRejected uri (.cannotSplit e) => "cannot split uri " ++ uri.quoted ++ ": " ++ e.message
  | .uriRejected uri .notFile => "not a file uri: " ++ uri.quoted
  | .noSpan t => "no source span in " ++ t.quoted

/-- The outcome of a request, with the notes made on the way. -/
structure Noted (α : Type) where
  notes : List Note
  outcome : Except Fault α

namespace Noted

variable {α β : Type}

/-- An outcome without notes. -/
def ofExcept (outcome : Except Fault α) : Noted α := ⟨[], outcome⟩

/-- Makes a note. -/
def note (n : Note) : Noted Unit := ⟨[n], .ok ()⟩

/-- Answers with the notes and the outcome of `x`. The notes are read and not taken away: they are also
notes of the request that asked for them. -/
def listen (x : Noted α) : Noted (List Note × Except Fault α) := ⟨x.notes, .ok (x.notes, x.outcome)⟩

/-- Goes on with the answer of `x`, unless it failed. -/
def bind (x : Noted α) (f : α → Noted β) : Noted β :=
  match x.outcome with
  | .error e => ⟨x.notes, .error e⟩
  | .ok a =>
    let y := f a
    ⟨x.notes ++ y.notes, y.outcome⟩

instance : Monad Noted where
  pure a := ofExcept (.ok a)
  bind := bind

instance : MonadLift (Except Fault) Noted := ⟨ofExcept⟩

end Noted

end Locus
