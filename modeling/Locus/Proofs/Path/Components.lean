import Mathlib.Data.List.TakeWhile
import Locus.Path.Components

/-!
Components and the walk they describe. Joining pieces and taking them apart are inverse as long as
no piece is empty or holds a separator. What `step` keeps is settled: `..` stands only where nothing
is left that it could take back. A settled walk is kept, so resolving twice is resolving once.
-/

namespace Locus

variable {isSep : CodePoint → Bool} {sep : CodePoint} {c t : Text} {cs : List Text} {rooted : Bool}

namespace Text

/-! ### Taking apart what was joined -/

/-- A text that is not empty and holds no separator. -/
def IsSegment (isSep : CodePoint → Bool) (t : Text) : Prop := t ≠ [] ∧ ∀ x ∈ t, isSep x = false

theorem splitOnP_intercalate (hsep : isSep sep) : ∀ {cs : List Text}, cs ≠ [] →
    (∀ c ∈ cs, IsSegment isSep c) → (List.intercalate [sep] cs).splitOnP isSep = cs
  | [], hne, _ => absurd rfl hne
  | [c], _, h => by
    rw [List.intercalate_singleton, List.splitOnP_eq_singleton (h c List.mem_cons_self).2]
  | c :: d :: cs, _, h => by
    have ih := splitOnP_intercalate hsep (List.cons_ne_nil d cs)
      fun e he => h e (List.mem_cons_of_mem c he)
    rw [List.intercalate_cons_cons, List.append_assoc, List.singleton_append,
      List.splitOnP_append_cons_of_forall_mem (h c List.mem_cons_self).2 sep hsep, ih]

/-- The words of what was joined are the parts that were joined. -/
theorem words_intercalate (hsep : isSep sep) (h : ∀ c ∈ cs, IsSegment isSep c) :
    words isSep (List.intercalate [sep] cs) = cs := by
  cases cs with
  | nil => rfl
  | cons c cs =>
    rw [words, splitOnP_intercalate hsep (List.cons_ne_nil c cs) h, List.filter_eq_self]
    intro d hd
    exact decide_eq_true_eq.mpr (h d hd).1

theorem words_append_sep (hsep : isSep sep) (s t : Text) :
    words isSep (s ++ sep :: t) = words isSep s ++ words isSep t := by
  rw [words, List.splitOnP_append_cons s t hsep, List.filter_append]
  rfl

theorem exists_splitOnP_eq (isSep : CodePoint → Bool) (t : Text) :
    ∃ ds, t.splitOnP isSep = t.takeWhile (!isSep ·) :: ds := by
  induction t with
  | nil => exact ⟨[], rfl⟩
  | cons x t ih =>
    rw [List.splitOnP_cons_eq_if_modifyHead]
    cases hx : isSep x with
    | true =>
      rw [List.takeWhile_cons_of_neg (by simp [hx])]
      exact ⟨_, rfl⟩
    | false =>
      obtain ⟨ds, hds⟩ := ih
      rw [hds, List.takeWhile_cons_of_pos (by simp [hx])]
      exact ⟨ds, rfl⟩

/-- A piece goes from some place of the text up to the next separator. -/
theorem exists_suffix_of_mem_splitOnP (hc : c ∈ t.splitOnP isSep) :
    ∃ s, s <:+ t ∧ c = s.takeWhile (!isSep ·) := by
  induction t with
  | nil => exact ⟨[], List.suffix_refl _, List.mem_singleton.mp hc⟩
  | cons y t ih =>
    obtain ⟨ds, hds⟩ := exists_splitOnP_eq isSep (y :: t)
    have htail : c ∈ ds → c ∈ t.splitOnP isSep := by
      obtain ⟨es, hes⟩ := exists_splitOnP_eq isSep t
      rw [List.splitOnP_cons_eq_if_modifyHead] at hds
      split at hds
      · rw [(List.cons.inj hds).2]
        exact id
      · rw [hes] at hds ⊢
        rw [← (List.cons.inj hds).2]
        exact List.mem_cons_of_mem _
    rw [hds] at hc
    rcases List.mem_cons.mp hc with rfl | hc
    · exact ⟨y :: t, List.suffix_refl _, rfl⟩
    · obtain ⟨s, hs, rfl⟩ := ih (htail hc)
      exact ⟨s, hs.trans (List.suffix_cons y t), rfl⟩

theorem isInfix_of_mem_splitOnP (h : c ∈ t.splitOnP isSep) : c <:+: t := by
  obtain ⟨s, hs, rfl⟩ := exists_suffix_of_mem_splitOnP h
  exact (List.takeWhile_prefix _).isInfix.trans hs.isInfix

theorem isSep_eq_false_of_mem_splitOnP (h : c ∈ t.splitOnP isSep) : ∀ x ∈ c, isSep x = false := by
  obtain ⟨s, -, rfl⟩ := exists_suffix_of_mem_splitOnP h
  intro x hx
  have := List.mem_takeWhile_imp hx
  rwa [Bool.not_eq_true'] at this

theorem isSegment_of_mem_words (h : c ∈ words isSep t) : IsSegment isSep c := by
  obtain ⟨hc, hne⟩ := List.mem_filter.mp h
  exact ⟨decide_eq_true_eq.mp hne, isSep_eq_false_of_mem_splitOnP hc⟩

end Text

namespace Path

/-! ### Components -/

/-- A segment that goes somewhere. -/
def IsComponent (isSep : CodePoint → Bool) (t : Text) : Prop := t.IsSegment isSep ∧ t ≠ here

theorem components_eq (isSep : CodePoint → Bool) (t : Text) :
    components isSep t = (Text.words isSep t).filter (· ≠ here) := by
  rw [components, Text.words, List.filter_filter]
  refine List.filter_congr ?_
  intro c _
  rw [Bool.decide_and, Bool.and_comm]

theorem isComponent_of_mem_components (h : c ∈ components isSep t) : IsComponent isSep c := by
  rw [components_eq, List.mem_filter, decide_eq_true_eq] at h
  exact ⟨Text.isSegment_of_mem_words h.1, h.2⟩

theorem filter_ne_here (h : ∀ c ∈ cs, IsComponent isSep c) : cs.filter (· ≠ here) = cs := by
  rw [List.filter_eq_self]
  intro c hc
  exact decide_eq_true_eq.mpr (h c hc).2

/-- A separator in front adds no component. -/
theorem components_cons_sep (hsep : isSep sep) (t : Text) :
    components isSep (sep :: t) = components isSep t := by
  rw [components_eq, components_eq]
  exact congrArg _ (Text.words_append_sep hsep [] t)

/-! ### The walk -/

variable {kept : List Text} {last : Text}

@[simp] theorem step_of_ne (h : c ≠ up) (rooted : Bool) (kept : List Text) :
    step rooted kept c = c :: kept := if_neg h

@[simp] theorem step_up_nil (rooted : Bool) :
    step rooted [] up = if rooted then [] else [up] := rfl

@[simp] theorem step_up_up (rooted : Bool) (kept : List Text) :
    step rooted (up :: kept) up = up :: up :: kept := rfl

@[simp] theorem step_up_cons_of_ne (h : last ≠ up) (rooted : Bool) (kept : List Text) :
    step rooted (last :: kept) up = kept := by
  rw [step, if_pos rfl]
  exact if_neg h

/-- Of the components kept, latest first, each `..` stands where nothing is left to take back. -/
def Settled (rooted : Bool) : List Text → Prop
  | [] => True
  | c :: kept => (c = up → rooted = false ∧ ∀ d ∈ kept, d = up) ∧ Settled rooted kept

/-- Each component leaves a settled walk settled. -/
theorem Settled.step (h : Settled rooted kept) (c : Text) :
    Settled rooted (step rooted kept c) := by
  by_cases hc : c = up
  · subst hc
    cases kept with
    | nil =>
      rw [step_up_nil]
      cases rooted with
      | true => trivial
      | false => exact ⟨fun _ => ⟨rfl, fun _ hd => nomatch hd⟩, trivial⟩
    | cons last earlier =>
      by_cases hlast : last = up
      · subst hlast
        rw [step_up_up]
        obtain ⟨hr, hall⟩ := h.1 rfl
        refine ⟨fun _ => ⟨hr, ?_⟩, h⟩
        intro d hd
        rcases List.mem_cons.mp hd with rfl | hd
        · rfl
        · exact hall d hd
      · rw [step_up_cons_of_ne hlast]
        exact h.2
  · rw [step_of_ne hc]
    exact ⟨fun he => absurd he hc, h⟩

theorem Settled.foldl (h : Settled rooted kept) :
    Settled rooted (cs.foldl (Path.step rooted) kept) := by
  induction cs generalizing kept with
  | nil => exact h
  | cons c cs ih => exact ih (h.step c)

/-- A component that fits on a settled walk is kept. -/
theorem step_of_settled (h : Settled rooted (c :: kept)) : step rooted kept c = c :: kept := by
  by_cases hc : c = up
  · subst hc
    obtain ⟨rfl, hall⟩ := h.1 rfl
    cases kept with
    | nil => rfl
    | cons last earlier =>
      rw [hall last List.mem_cons_self, step_up_up]
  · exact step_of_ne hc rooted kept

/-- Walking a settled walk once more keeps all of it. -/
theorem foldl_reverse_of_settled (h : Settled rooted kept) :
    kept.reverse.foldl (step rooted) [] = kept := by
  induction kept with
  | nil => rfl
  | cons c kept ih =>
    rw [List.reverse_cons, List.foldl_append, ih h.2, List.foldl_cons, step_of_settled h]
    rfl

theorem settled_reverse_resolve (rooted : Bool) (cs : List Text) :
    Settled rooted (resolve rooted cs).reverse := by
  rw [resolve, List.reverse_reverse]
  exact Settled.foldl trivial

@[simp] theorem resolve_resolve (rooted : Bool) (cs : List Text) :
    resolve rooted (resolve rooted cs) = resolve rooted cs := by
  have h := foldl_reverse_of_settled (settled_reverse_resolve rooted cs)
  rw [List.reverse_reverse] at h
  rw [resolve, h, List.reverse_reverse]

theorem step_subset (rooted : Bool) (kept : List Text) (c : Text) :
    step rooted kept c ⊆ c :: kept := by
  by_cases hc : c = up
  · subst hc
    cases kept with
    | nil => cases rooted <;> simp
    | cons last earlier =>
      by_cases hlast : last = up
      · rw [hlast, step_up_up]
        exact List.Subset.refl _
      · rw [step_up_cons_of_ne hlast]
        exact fun d hd => List.mem_cons_of_mem up (List.mem_cons_of_mem last hd)
  · rw [step_of_ne hc]
    exact List.Subset.refl _

theorem foldl_step_subset (cs kept : List Text) : cs.foldl (step rooted) kept ⊆ cs ++ kept := by
  induction cs generalizing kept with
  | nil => exact List.Subset.refl _
  | cons c cs ih =>
    intro d hd
    rcases List.mem_append.mp (ih (step rooted kept c) hd) with hd | hd
    · exact List.mem_append_left kept (List.mem_cons_of_mem c hd)
    · rcases List.mem_cons.mp (step_subset rooted kept c hd) with rfl | hd
      · exact List.mem_cons_self
      · exact List.mem_append_right (c :: cs) hd

/-- Resolving adds no component. -/
theorem resolve_subset (rooted : Bool) (cs : List Text) : resolve rooted cs ⊆ cs := by
  intro d hd
  have h := foldl_step_subset cs [] (List.mem_reverse.mp hd)
  rwa [List.append_nil] at h

/-! ### Walks without `..` -/

theorem foldl_step_of_names (h : ∀ d ∈ cs, d ≠ up) (rooted : Bool) (kept : List Text) :
    cs.foldl (step rooted) kept = cs.reverse ++ kept := by
  induction cs generalizing kept with
  | nil => rfl
  | cons c cs ih =>
    rw [List.foldl_cons, step_of_ne (h c List.mem_cons_self),
      ih fun d hd => h d (List.mem_cons_of_mem c hd), List.reverse_cons, List.append_assoc,
      List.singleton_append]

/-- Names are left as they are. -/
theorem resolve_of_names (h : ∀ d ∈ cs, d ≠ up) (rooted : Bool) : resolve rooted cs = cs := by
  rw [resolve, foldl_step_of_names h, List.append_nil, List.reverse_reverse]

/-- At the start of a relative walk, `..` is left too. -/
theorem resolve_cons_of_names (h : ∀ d ∈ cs, d ≠ up) (c : Text) :
    resolve false (c :: cs) = c :: cs := by
  have hstep : step false [] c = [c] := by
    by_cases hc : c = up
    · rw [hc]
      rfl
    · exact step_of_ne hc false []
  rw [resolve, List.foldl_cons, hstep, foldl_step_of_names h, List.reverse_append,
    List.reverse_reverse, List.reverse_singleton, List.singleton_append]

/-- Behind a name that resolving leaves, it leaves names. -/
theorem Settled.forall_ne_up (h : Settled rooted (kept ++ [c])) (hc : c ≠ up) :
    ∀ d ∈ kept ++ [c], d ≠ up := by
  induction kept with
  | nil =>
    intro d hd
    rwa [List.mem_singleton.mp hd]
  | cons e kept ih =>
    intro d hd
    rcases List.mem_cons.mp hd with rfl | hd
    · intro hup
      exact hc ((h.1 hup).2 c (List.mem_append_right kept List.mem_cons_self))
    · exact ih h.2 d hd

theorem forall_ne_up_of_resolve_eq_cons {ds : List Text} (h : resolve rooted cs = c :: ds)
    (hc : c ≠ up) : ∀ d ∈ ds, d ≠ up := by
  have hsettled := settled_reverse_resolve rooted cs
  rw [h, List.reverse_cons] at hsettled
  intro d hd
  exact hsettled.forall_ne_up hc d (List.mem_append_left _ (List.mem_reverse.mpr hd))

end Path

end Locus
