import Locus.Path.Normal
import Locus.Proofs.Path.Components
import Locus.Proofs.Text.Utf8

/-!
The normal form of POSIX paths. A path is written from its root and its components, and both can be
read off what was written; so the normal form keeps the root, its components are what resolving
leaves, and it is its own normal form. It is made of parts of the path, so it has bytes if that has.
-/

namespace Locus.Path.Posix

variable {r : Root} {c p : Text} {cs : List Text}

/-! ### Writing a path -/

/-- The path with this root and these components, `.` if there are neither. -/
def write (r : Root) (cs : List Text) : Text :=
  match r.text ++ List.intercalate "/" cs with
  | [] => here
  | n => n

theorem normal_eq (p : Text) :
    normal p = write (root p) (resolve (root p ≠ .none) (components isSlash p)) := rfl

theorem isSlash_slash : isSlash '/' := by decide

theorem isSlash_of_mem_text : ∀ x ∈ r.text, isSlash x := by
  cases r <;> decide

theorem isSegment_here : here.IsSegment isSlash := by
  unfold Text.IsSegment
  decide

/-- What is written is the root and segments, which are the components or the single `.`. -/
theorem exists_segments (h : ∀ c ∈ cs, IsComponent isSlash c) :
    ∃ ds : List Text, (∀ d ∈ ds, d.IsSegment isSlash) ∧ ds.filter (· ≠ here) = cs ∧
      write r cs = r.text ++ List.intercalate "/" ds := by
  unfold write
  split
  · next he =>
    obtain ⟨hr, hcs⟩ := List.append_eq_nil_iff.mp he
    refine ⟨[here], ?_, ?_, ?_⟩
    · intro d hd
      rw [List.mem_singleton.mp hd]
      exact isSegment_here
    · cases cs with
      | nil => rfl
      | cons c cs =>
        obtain ⟨x, c, rfl⟩ := List.exists_cons_of_ne_nil (h c List.mem_cons_self).1.1
        rw [List.intercalate_cons_cons_left] at hcs
        cases hcs
    · rw [hr, List.intercalate_singleton]
      rfl
  · exact ⟨cs, fun c hc => (h c hc).1, filter_ne_here h, rfl⟩

/-! ### Reading off what was written -/

theorem takeWhile_intercalate (h : ∀ c ∈ cs, c.IsSegment isSlash) :
    (List.intercalate "/" cs).takeWhile isSlash = [] ∧
      (List.intercalate "/" cs).dropWhile isSlash = List.intercalate "/" cs := by
  cases cs with
  | nil => exact ⟨rfl, rfl⟩
  | cons c cs =>
    obtain ⟨hne, hsep⟩ := h c List.mem_cons_self
    obtain ⟨x, c, rfl⟩ := List.exists_cons_of_ne_nil hne
    have hx : ¬isSlash x := by
      rw [hsep x List.mem_cons_self]
      decide
    rw [List.intercalate_cons_cons_left]
    exact ⟨List.takeWhile_cons_of_neg hx, List.dropWhile_cons_of_neg hx⟩

theorem takeWhile_text_append (h : ∀ c ∈ cs, c.IsSegment isSlash) :
    (r.text ++ List.intercalate "/" cs).takeWhile isSlash = r.text := by
  rw [List.takeWhile_append_of_pos isSlash_of_mem_text, (takeWhile_intercalate h).1,
    List.append_nil]

theorem dropWhile_text_append (h : ∀ c ∈ cs, c.IsSegment isSlash) :
    (r.text ++ List.intercalate "/" cs).dropWhile isSlash = List.intercalate "/" cs := by
  rw [List.dropWhile_append_of_pos isSlash_of_mem_text, (takeWhile_intercalate h).2]

@[simp] theorem components_text_append (r : Root) (t : Text) :
    components isSlash (r.text ++ t) = components isSlash t := by
  cases r with
  | none => rfl
  | single => exact components_cons_sep isSlash_slash t
  | double =>
    exact (components_cons_sep isSlash_slash _).trans (components_cons_sep isSlash_slash t)

theorem root_write (h : ∀ c ∈ cs, IsComponent isSlash c) : root (write r cs) = r := by
  obtain ⟨ds, hds, -, hw⟩ := exists_segments (r := r) h
  rw [hw, root, takeWhile_text_append hds]
  cases r <;> rfl

theorem components_write (h : ∀ c ∈ cs, IsComponent isSlash c) :
    components isSlash (write r cs) = cs := by
  obtain ⟨ds, hds, hcs, hw⟩ := exists_segments (r := r) h
  rw [hw, components_text_append, components_eq, ← hcs]
  exact congrArg _ (Text.words_intercalate isSlash_slash hds)

/-! ### The normal form -/

theorem isComponent_of_mem_resolve {rooted : Bool} (h : c ∈ resolve rooted (components isSlash p)) :
    IsComponent isSlash c :=
  isComponent_of_mem_components (resolve_subset rooted _ h)

@[simp] theorem root_normal (p : Text) : root (normal p) = root p :=
  root_write fun _ => isComponent_of_mem_resolve

@[simp] theorem components_normal (p : Text) :
    components isSlash (normal p) = resolve (root p ≠ .none) (components isSlash p) :=
  components_write fun _ => isComponent_of_mem_resolve

/-- The normal form is its own normal form. -/
@[simp] theorem normal_normal (p : Text) : normal (normal p) = normal p := by
  rw [normal_eq (normal p), root_normal, components_normal, resolve_resolve, ← normal_eq]

theorem normal_posix (h : p ≠ []) : Path.normal .posix p = normal p := by
  cases p with
  | nil => exact absurd rfl h
  | cons c p => rfl

theorem normal_ne_nil (p : Text) : normal p ≠ [] := by
  rw [normal_eq, write]
  split
  · decide
  · assumption

theorem root_eq_none_iff : root p = .none ↔ p.head? ≠ some (CodePoint.ofChar '/') := by
  cases p with
  | nil => decide
  | cons c p =>
    rw [root, List.head?_cons, Option.some_inj.ne]
    by_cases h : c = '/'
    · subst h
      rw [List.takeWhile_cons_of_pos isSlash_slash, List.length_cons]
      refine iff_of_false ?_ fun hne => hne rfl
      unfold Root.ofSlashes
      split <;> simp_all
    · have hc : ¬isSlash c := mt decide_eq_true_eq.mp h
      rw [List.takeWhile_cons_of_neg hc]
      exact iff_of_true rfl h

/-- The normal form of an absolute path is absolute. -/
theorem head?_normal (h : p.head? = some (CodePoint.ofChar '/')) :
    (normal p).head? = some (CodePoint.ofChar '/') := by
  by_contra hn
  rw [← Ne, ← root_eq_none_iff, root_normal, root_eq_none_iff] at hn
  exact hn h

/-! ### Paths of bytes -/

open Utf8 (OfBytes)

theorem ofBytes_text_append {t : Text} (h : OfBytes t) : OfBytes (r.text ++ t) := by
  cases r with
  | none => exact h
  | single => exact Utf8.ofBytes_nil.append_cons (by decide) h
  | double =>
    exact Utf8.ofBytes_nil.append_cons (by decide) (Utf8.ofBytes_nil.append_cons (by decide) h)

theorem ofBytes_here : OfBytes here := Utf8.ofBytes_of_forall_not_isSurrogate (by decide)

/-- The normal form of a path of bytes is a path of bytes. -/
theorem ofBytes_normal (h : OfBytes p) : OfBytes (normal p) := by
  have hcs : ∀ c ∈ resolve (root p ≠ .none) (components isSlash p), OfBytes c := by
    intro c hc
    have hmem := (List.mem_filter.mp (resolve_subset _ _ hc)).1
    exact h.of_infix (Text.isInfix_of_mem_splitOnP hmem)
  rw [normal_eq, write]
  split
  · exact ofBytes_here
  · exact ofBytes_text_append (Utf8.ofBytes_intercalate (by decide) hcs)

end Locus.Path.Posix
