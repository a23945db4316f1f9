import Locus.Proofs.Path.Posix
import Locus.Proofs.Path.Walk

/-!
The places of POSIX paths. Two paths mean the same place, whatever the file system holds, when they
start at the same root and their components walk to the same stack of names. The normal form of a
path means what the path means, and no other normal form does; so paths mean the same exactly when
their normal forms are equal.
-/

namespace Locus.Path.Posix

variable {a b p : Text}

/-- The paths start alike and walk to the same stack: from the empty one if they are rooted, and from
every base if they are relative. -/
def SamePlace (a b : Text) : Prop :=
  root a = root b ∧ ∀ base : List Text, (root a ≠ .none → base = []) →
    walk base (components isSlash a) = walk base (components isSlash b)

theorem samePlace_normal (p : Text) : SamePlace (normal p) p := by
  refine ⟨root_normal p, ?_⟩
  intro base hbase
  rw [root_normal] at hbase
  rw [components_normal, walk_resolve fun h => hbase (decide_eq_true_eq.mp h)]

theorem normal_eq_normal_iff : normal a = normal b ↔ SamePlace a b := by
  constructor
  · intro h
    obtain ⟨hroot, hwalk⟩ := samePlace_normal a
    obtain ⟨hroot', hwalk'⟩ := samePlace_normal b
    rw [h] at hroot hwalk
    refine ⟨hroot.symm.trans hroot', ?_⟩
    intro base hbase
    rw [← hroot] at hbase
    rw [← hwalk base hbase, hwalk' base hbase]
  · rintro ⟨hroot, hwalk⟩
    have hresolve : resolve (root a ≠ .none) (components isSlash a) =
        resolve (root a ≠ .none) (components isSlash b) := by
      refine resolve_eq_resolve_iff.mpr ?_
      intro base hbase
      exact hwalk base fun h => hbase (decide_eq_true h)
    rw [normal_eq, normal_eq, ← hroot, hresolve]

/-- The normal form of a path means the same place as the path, two paths have the same normal form
if and only if they mean the same place, and the normal form is its own. -/
theorem normal_posix_decides_samePlace :
    (∀ p : Text, p ≠ [] → SamePlace (Path.normal .posix p) p) ∧
      (∀ a b : Text, a ≠ [] → b ≠ [] →
        (Path.normal .posix a = Path.normal .posix b ↔ SamePlace a b)) ∧
      ∀ s : Text, Path.normal .posix (Path.normal .posix s) = Path.normal .posix s := by
  refine ⟨?_, ?_, ?_⟩
  · intro p hp
    rw [normal_posix hp]
    exact samePlace_normal p
  · intro a b ha hb
    rw [normal_posix ha, normal_posix hb, normal_eq_normal_iff]
  · intro s
    by_cases hs : s = []
    · subst hs
      rfl
    · rw [normal_posix hs, normal_posix (normal_ne_nil s), normal_normal]

/-- What a detour or a doubled slash adds is not told apart, the root of two slashes is. -/
theorem normal_posix_decides_samePlace_of_detour :
    SamePlace (Path.normal .posix "a/../../b//./c") "a/../../b//./c" ∧
      SamePlace "a/../../b//./c" "../b/c" ∧ ¬SamePlace "//a" "///a" := by
  obtain ⟨hplace, hiff, -⟩ := normal_posix_decides_samePlace
  refine ⟨hplace _ (by decide), (hiff _ _ (by decide) (by decide)).mp (by decide), ?_⟩
  intro h
  exact absurd ((hiff _ _ (by decide) (by decide)).mpr h) (by decide)

end Locus.Path.Posix
