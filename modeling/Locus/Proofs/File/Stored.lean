import Locus.Proofs.File.Key

/-!
Stored identities. Of an identity its path and the text of its URI are stored; the two texts that are
hashed are not, and are made anew, one from the path and one from the text of the URI. What is hashed
for an identity is its path, whatever spelling the path came from. The text of the URI spells bytes,
and so does the one that is hashed for it, with fewer characters written out; reading it gives these
bytes back, whatever characters or surrogates they came from. So what is made again is what was
stored, in every part.
-/

namespace Locus

/-- A canonical URI stays as it is, and so does the text that is hashed. -/
theorem Uri.canonical_toUri_canonical (u : Uri) : u.canonical.toUri.canonical = u.canonical :=
  canonical_spellAll _

namespace FileId

/-- The URI of an identity is made canonical from the path, whatever the path. -/
theorem exists_uri_ofRaw_eq_canonical (c : PathStyle) (raw : Text) :
    ∃ u : Uri, (ofRaw c raw).uri = u.canonical := by
  unfold ofRaw
  split
  · exact ⟨_, rfl⟩
  · exact ⟨_, rfl⟩

/-- An identity that is hashed by its path and has a canonical URI comes back whole. -/
theorem ofStored_of_uri_eq_canonical {n : FileId} {u : Uri} (hn : n.HashedByPath)
    (hu : n.uri = u.canonical) : ofStored n.stored.1 n.stored.2 = n := by
  obtain ⟨path, hashKey, uri⟩ := n
  obtain rfl : hashKey = path := hn
  obtain rfl : uri = u.canonical := hu
  exact congrArg (FileId.mk hashKey hashKey) (Uri.canonical_toUri_canonical u)

/-- Storing an identity loses nothing: what comes back is equal to it, with the same text for its URI,
and the texts that are hashed for it and for its URI are the same. -/
theorem ofStored_stored (c : PathStyle) (raw : Text) :
    let n := ofRaw c raw
    let m := ofStored n.stored.1 n.stored.2
    m == n ∧ m.uri.text = n.uri.text ∧ m.hashKey = n.hashKey ∧ m.uri.hashKey = n.uri.hashKey := by
  intro n m
  obtain ⟨u, hu⟩ := exists_uri_ofRaw_eq_canonical c raw
  have hm : m = n := ofStored_of_uri_eq_canonical (hashedByPath_ofRaw c raw) hu
  rw [hm]
  exact ⟨beq_self_eq_true n.path, rfl, rfl, rfl⟩

/-- A surrogate that is no byte in one component, and one that is a byte in the next. -/
example :
    let n := ofRaw .windows ("C:/" ++ ⟨0xD800, by decide⟩ :: ("/%41?" : Text) ++ [Utf8.stray 0xFF])
    n.stored.2 = "file:///C:/%ED%A0%80/%2541%3F%FF" ∧ ofStored n.stored.1 n.stored.2 = n := by
  decide

end FileId

end Locus
