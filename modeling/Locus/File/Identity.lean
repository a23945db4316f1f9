import Locus.Uri.File

/-!
The identity of a file: the normal form of its path, with the text that is hashed for it and its
canonical URI beside it. Two identities are equal when their paths are, whatever text is hashed. The
empty path has an identity of its own, in either style, and its URI is that of no other path.
-/

namespace Locus

/-- A file, known by the normal form of its path, with the text from which its hash is taken. -/
structure FileId where
  path : Text
  hashKey : Text
  uri : CanonicalUri
deriving DecidableEq

/-- Identities are equal when their paths are. -/
instance : BEq FileId := ⟨fun a b => a.path == b.path⟩

instance : Ord FileId := ⟨fun a b => compare a.path b.path⟩

/-- However texts are hashed, the hash of an identity was taken from its `hashKey` when it was made. -/
instance [Hashable Text] : Hashable FileId := ⟨fun n => hash n.hashKey⟩

namespace FileId

/-- The path of a diagnostic that belongs to no file. -/
def unknownPath : Text := "<unknown>"

/-- The URI of the empty path. -/
def emptyUri : CanonicalUri := (Uri.mk Uri.filePrefix).canonical

/-- The identity of the empty path. -/
def empty : FileId := ⟨[], [], emptyUri⟩

/-- The identity of a path, however it is spelled. -/
def ofRaw (c : PathStyle) (raw : Text) : FileId :=
  if raw = [] then empty
  else
    let path := Path.normal c raw
    ⟨path, path, Uri.ofPath c path⟩

/-- The path that a file URI names, where the URI of the empty path names that. -/
def pathOf (c : PathStyle) (u : Uri) : Except Uri.Rejection Text :=
  if u.text = emptyUri.text then .ok [] else u.toPath c

/-- The identity of the file that a URI names; one that names no file counts as the unknown path. -/
def ofUri (c : PathStyle) (u : CanonicalUri) : FileId :=
  match pathOf c u.toUri with
  | .ok p => ofRaw c p
  | .error _ => ofRaw c unknownPath

/-! ### Storage -/

/-- What is stored of an identity: its path and the text of its URI, not what is derived from them. -/
def stored (n : FileId) : Text × Text := (n.path, n.uri.text)

/-- The identity that was stored. What is hashed is told again from the path and from the URI. -/
def ofStored (path uriText : Text) : FileId := ⟨path, path, (Uri.mk uriText).canonical⟩

end FileId

end Locus
