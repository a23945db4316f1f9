import Locus.Proofs.Reader.Outcome

/-!
Readers that give the same answers in another order. The order of the parts shows only in the order
of the answers: of two alternatives either may come first, and where the answers of a part come in
another order, so do those of the whole.
-/

namespace Locus.Reader

variable {α β : Type} {p p' q q' : Reader α}

/-- Wherever `p` answers, `q` gives the same answers, in any order. -/
def Reorders (q p : Reader α) : Prop :=
  ∀ ⦃t : Text⦄ ⦃as : List (α × Text)⦄, p.run t = .ok as → ∃ bs, q.run t = .ok bs ∧ bs.Perm as

/-- The answers of `p`, the last one first. -/
def reversed (p : Reader α) : Reader α := fun t => (p.run t).map List.reverse

theorem reorders_refl (p : Reader α) : p.Reorders p :=
  fun _ as h => ⟨as, h, List.Perm.refl as⟩

theorem reversed_reorders (p : Reader α) : p.reversed.Reorders p := by
  intro t as h
  refine ⟨as.reverse, ?_, as.reverse_perm⟩
  rw [run, reversed, h]
  rfl

theorem Reorders.bind (h : q.Reorders p) (f : α → Reader β) : (q.bind f).Reorders (p.bind f) := by
  intro t cs hcs
  obtain ⟨as, has, g, hg, rfl⟩ := run_bind_eq_ok_iff.mp hcs
  obtain ⟨bs, hbs, hperm⟩ := h has
  have hg' : ∀ b ∈ bs, (f b.1).run b.2 = .ok (g b) := fun b hb => hg b (hperm.mem_iff.mp hb)
  exact ⟨_, run_bind_eq_ok_iff.mpr ⟨bs, hbs, g, hg', rfl⟩, hperm.flatMap_right g⟩

theorem Reorders.map (h : q.Reorders p) (f : α → β) : (q.map f).Reorders (p.map f) := by
  rw [Reader.map, Reader.map, tryMap_eq_bind, tryMap_eq_bind]
  exact h.bind _

theorem Reorders.pair (h : q.Reorders p) (r : Reader β) : (q.pair r).Reorders (p.pair r) :=
  h.bind _

theorem Reorders.either (hp : p'.Reorders p) (hq : q'.Reorders q) :
    (p'.either q').Reorders (p.either q) := by
  intro t cs hcs
  obtain ⟨as, has, bs, hbs, rfl⟩ := run_either_eq_ok_iff.mp hcs
  obtain ⟨as', has', hperm⟩ := hp has
  obtain ⟨bs', hbs', hperm'⟩ := hq hbs
  exact ⟨_, run_either_eq_ok_iff.mpr ⟨as', has', bs', hbs', rfl⟩, hperm.append hperm'⟩

theorem Reorders.optional (h : q.Reorders p) (a : α) : (q.optional a).Reorders (p.optional a) :=
  h.either (reorders_refl _)

/-- Either of two alternatives may come first. -/
theorem Reorders.either_comm (hp : p'.Reorders p) (hq : q'.Reorders q) :
    (q'.either p').Reorders (p.either q) := by
  intro t cs hcs
  obtain ⟨as, has, bs, hbs, rfl⟩ := run_either_eq_ok_iff.mp hcs
  obtain ⟨as', has', hperm⟩ := hp has
  obtain ⟨bs', hbs', hperm'⟩ := hq hbs
  refine ⟨_, run_either_eq_ok_iff.mpr ⟨bs', hbs', as', has', rfl⟩, ?_⟩
  exact List.perm_append_comm.trans (hperm.append hperm')

/-- Where at most one answer leaves nothing over, it is the first such answer in every order. -/
theorem head?_whole_eq_of_perm {as bs : List (α × Text)} (h : bs.Perm as)
    (hlen : (whole as).length ≤ 1) : (whole bs).head? = (whole as).head? := by
  have hperm : (whole bs).Perm (whole as) := (h.filter _).map _
  match hw : whole as, hlen with
  | [], _ =>
    rw [hw] at hperm
    rw [List.perm_nil.mp hperm]
  | [a], _ =>
    rw [hw] at hperm
    rw [List.perm_singleton.mp hperm]

end Locus.Reader
