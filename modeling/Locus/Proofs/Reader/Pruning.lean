import Locus.Proofs.Reader.Outcome

/-!
Answers that lead nowhere. Where the next reader has no answer on what an answer leaves over, that
answer adds nothing to those of the whole. So readers that differ only in such answers may stand for
each other: what comes of the whole is the same, the answers in their order and the fault alike.
-/

namespace Locus

variable {α β : Type}

/-- Elements to which the answer is empty may be left out. -/
theorem collect_filter {f : α → Except Fault (List β)} {keep : α → Bool} {l : List α}
    (h : ∀ a ∈ l, ¬keep a → f a = .ok []) : collect f (l.filter keep) = collect f l := by
  induction l with
  | nil => rfl
  | cons a l ih =>
    have hl := ih fun b hb => h b (List.mem_cons_of_mem a hb)
    by_cases ha : keep a
    · rw [List.filter_cons_of_pos ha, collect, collect, hl]
    · rw [List.filter_cons_of_neg ha, hl, collect, h a List.mem_cons_self ha]
      cases collect f l <;> rfl

namespace Reader

variable {p q p' q' : Reader α} {f : α → Reader β} {C D : Text → Bool} {t : Text}

/-! ### Readers that answer on the texts of a class only -/

/-- On a text that is not of the class the reader has no answer, and no fault. -/
def AnswersOnly (C : Text → Bool) (p : Reader α) : Prop := ∀ t, ¬C t → p.run t = .ok []

theorem AnswersOnly.mono (h : AnswersOnly C p) (hCD : ∀ t, C t → D t) : AnswersOnly D p :=
  fun t ht => h t (mt (hCD t) ht)

theorem AnswersOnly.bind (h : AnswersOnly C p) (f : α → Reader β) : AnswersOnly C (p.bind f) := by
  intro t ht
  rw [run, Reader.bind, h t ht]
  rfl

theorem AnswersOnly.tryMap (h : AnswersOnly C p) (g : α → Except Fault β) :
    AnswersOnly C (p.tryMap g) := by
  rw [tryMap_eq_bind]
  exact h.bind _

theorem AnswersOnly.map (h : AnswersOnly C p) (g : α → β) : AnswersOnly C (p.map g) := h.tryMap _

theorem AnswersOnly.keepLeft (h : AnswersOnly C p) (r : Reader β) : AnswersOnly C (p.keepLeft r) :=
  h.bind _

theorem AnswersOnly.keepRight (h : AnswersOnly C p) (r : Reader β) :
    AnswersOnly C (p.keepRight r) :=
  h.bind _

theorem answersOnly_satisfy (g : CodePoint → Bool) : AnswersOnly (allows (some g)) (satisfy g) := by
  intro t ht
  cases t with
  | nil => rfl
  | cons c t => exact congrArg Except.ok (if_neg ht)

theorem answersOnly_run1 (g : CodePoint → Bool) : AnswersOnly (allows (some g)) (run1 g) := by
  intro t ht
  rw [run_run1]
  cases t with
  | nil => rfl
  | cons c t =>
    have hc : ¬g c := ht
    rw [List.takeWhile_cons_of_neg hc, if_pos rfl]

/-! ### Readers that agree on a class -/

/-- Both readers answer on every text, with the same answers in the same order as far as these leave
over a text of the class. -/
def AgreeOn (C : Text → Bool) (p q : Reader α) : Prop :=
  ∀ t, ∃ as bs, p.run t = .ok as ∧ q.run t = .ok bs ∧ as.filter (C ·.2) = bs.filter (C ·.2)

/-- In front of readers that answer on the class only, it makes no difference which of the two runs. -/
theorem AgreeOn.bind_eq (h : AgreeOn C p q) (hf : ∀ a, AnswersOnly C (f a)) :
    p.bind f = q.bind f := by
  funext t
  obtain ⟨as, bs, has, hbs, hfilter⟩ := h t
  have hcollect : ∀ l : List (α × Text),
      collect (fun a => (f a.1).run a.2) (l.filter (C ·.2)) =
        collect (fun a => (f a.1).run a.2) l :=
    fun l => collect_filter fun a _ ha => hf a.1 a.2 ha
  calc (p.bind f).run t
    _ = collect (fun a => (f a.1).run a.2) as := by rw [run, Reader.bind, has]; rfl
    _ = collect (fun a => (f a.1).run a.2) bs := by rw [← hcollect as, hfilter, hcollect bs]
    _ = (q.bind f).run t := by rw [run, Reader.bind, hbs]; rfl

theorem AgreeOn.pair_eq {r : Reader β} (h : AgreeOn C p q) (hr : AnswersOnly C r) :
    p.pair r = q.pair r :=
  h.bind_eq fun _ => hr.map _

theorem AgreeOn.either (h : AgreeOn C p q) (h' : AgreeOn C p' q') :
    AgreeOn C (p.either p') (q.either q') := by
  intro t
  obtain ⟨as, bs, has, hbs, hfilter⟩ := h t
  obtain ⟨as', bs', has', hbs', hfilter'⟩ := h' t
  refine ⟨as ++ as', bs ++ bs', ?_, ?_, ?_⟩
  · exact run_either_eq_ok_iff.mpr ⟨as, has, as', has', rfl⟩
  · exact run_either_eq_ok_iff.mpr ⟨bs, hbs, bs', hbs', rfl⟩
  · rw [List.filter_append, List.filter_append, hfilter, hfilter']

theorem agreeOn_unit (C : Text → Bool) (a : α) : AgreeOn C (unit a) (unit a) :=
  fun t => ⟨[(a, t)], [(a, t)], rfl, rfl, rfl⟩

theorem AgreeOn.optional (h : AgreeOn C p q) (a : α) : AgreeOn C (p.optional a) (q.optional a) :=
  h.either (agreeOn_unit C a)

/-! ### Separators -/

/-- Asking what follows a separator leaves out the separators that are followed otherwise. -/
theorem cuts_eq_filter (sep : CodePoint) (follow : Option (CodePoint → Bool)) (t : Text) :
    cuts sep follow t = (cuts sep none t).filter fun d => allows follow d.2 := by
  induction t with
  | nil => rfl
  | cons c t ih =>
    have hlater : (cuts sep follow t).map (fun d => (c :: d.1, d.2)) =
        ((cuts sep none t).map fun d => (c :: d.1, d.2)).filter fun d => allows follow d.2 := by
      rw [ih, List.filter_map]
      rfl
    rw [cuts, cuts]
    by_cases hc : c = sep
    · by_cases ht : allows follow t
      · rw [if_pos ⟨hc, ht⟩, if_pos ⟨hc, rfl⟩, List.filter_cons, if_pos ht, ← hlater]
      · rw [if_neg fun h => ht h.2, if_pos ⟨hc, rfl⟩, List.filter_cons, if_neg ht, ← hlater]
    · rw [if_neg fun h => hc h.1, if_neg fun h => hc h.1, ← hlater]

/-- What is asked of a separator does not matter where it lets all texts of the class pass. -/
theorem agreeOn_upTo (sep : CodePoint) {follow : Option (CodePoint → Bool)}
    (h : ∀ t, C t → allows follow t) : AgreeOn C (upTo sep follow) (upTo sep none) := by
  intro t
  refine ⟨cuts sep follow t, cuts sep none t, rfl, rfl, ?_⟩
  rw [cuts_eq_filter sep follow, List.filter_filter]
  refine List.filter_congr ?_
  intro d _
  rw [Bool.and_eq_left_iff_imp]
  exact h d.2

end Reader

end Locus
