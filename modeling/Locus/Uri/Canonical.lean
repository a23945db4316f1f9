import Locus.Uri.Percent

/-!
URIs and their canonical spelling. Two URIs that differ only in how they escape characters have the
same canonical URI. Which characters stay written out is settled once, by `pathSafe`; the question
mark and the number sign are escaped, so that a file name opens neither a query nor a fragment.
-/

namespace Locus

/-- A URI, as it was given. -/
structure Uri where
  text : Text
deriving DecidableEq

/-- A URI in canonical spelling, with the text from which its hash is taken. -/
structure CanonicalUri where
  text : Text
  hashKey : Text
deriving DecidableEq

/-- Canonical URIs are equal when their texts are. -/
instance : BEq CanonicalUri := ⟨fun a b => a.text == b.text⟩

namespace Uri

/-- The characters besides the unreserved that the path of a URI may hold. -/
def pathSafe : Text := "/:@!$&'()*+,;="

/-- The canonical spelling of a URI. -/
def canonical (u : Uri) : CanonicalUri :=
  let meaning := Percent.decode u.text
  { text := Percent.encode pathSafe meaning
    hashKey := Percent.encode "/" meaning }

end Uri

/-- A canonical URI as a plain one. -/
def CanonicalUri.toUri (u : CanonicalUri) : Uri := ⟨u.text⟩

end Locus
