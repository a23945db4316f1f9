import Locus.File.Identity
import Locus.Noted
import Locus.Span.Grammar

/-!
Requests. The path style of a request may have failed to be chosen, and that is a fault only where the
answer depends on it: the empty path and the URI that stands for it need no style.
-/

namespace Locus

/-- The path style that a request is to follow, if there is one of the name given. -/
abbrev Choice := Except Fault PathStyle

namespace Request

/-- The normal form of a path. -/
def normal (choice : Choice) (path : Text) : Except Fault Text :=
  if path = [] then .ok [] else do return Path.normal (← choice) path

/-- The identity of a path. -/
def identify (choice : Choice) (path : Text) : Except Fault FileId :=
  if path = [] then .ok .empty else do return FileId.ofRaw (← choice) path

/-- The URI of a path that is taken to be in normal form. -/
def uriOfPath (choice : Choice) (path : Text) : Except Fault CanonicalUri := do
  return Uri.ofPath (← choice) path

/-- The URI of the file that a path names. -/
def fileUri (choice : Choice) (path : Text) : Except Fault Uri := do
  return (← identify choice path).uri.toUri

/-- The path that a file URI names; another URI is noted. -/
def pathOfUri (choice : Choice) (u : Uri) : Noted (Option Text) := do
  match u.toPath (← choice) with
  | .ok path => return some path
  | .error reason =>
    Noted.note (.uriRejected u.text reason)
    return none

/-- The path that a file URI names, where the URI of the empty path names that. -/
def pathOrEmpty (choice : Choice) (u : Uri) : Noted (Option Text) :=
  if u.text = FileId.emptyUri.text then return some [] else pathOfUri choice u

/-- The identity of the file that a URI names. -/
def fileOfUri (choice : Choice) (u : CanonicalUri) : Noted FileId := do
  let path ← pathOrEmpty choice u.toUri
  identify choice (path.getD FileId.unknownPath)

/-- The span that a text spells; if there is none, that is noted. -/
def readSpan (t : Text) : Noted (Option Span) := do
  match ← Span.find? t with
  | some s => return some s
  | none =>
    Noted.note (.noSpan t)
    return none

/-- The span that a text spells; if there is none, that is noted and is a fault. -/
def demandSpan (t : Text) : Noted Span := do
  let _ ← readSpan t
  Span.parse t

/-- The text as it would be printed if read as a span. -/
def reformat (t : Text) : Noted Text := do
  let s ← demandSpan t
  s.print

end Request

end Locus
