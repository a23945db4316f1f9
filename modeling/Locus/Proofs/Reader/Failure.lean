import Locus.Proofs.Reader.Enumeration

/-!
On which texts readers fail. A reader runs behind every answer of the one before it, so a joined
reader fails where its first part fails, or where the second fails behind some phrase of the first.
The class of texts on which it fails is so put together from the grammars of its parts and from the
classes on which they fail.
-/

namespace Locus

namespace Grammar

variable {σ τ : Type} {G : Grammar σ} {H : Grammar τ} {C D : Text → Prop} {t : Text}

/-- A phrase of `G` comes first, and what follows it is of the class. -/
def leadsTo (G : Grammar σ) (C : Text → Prop) : Text → Prop :=
  fun t => ∃ s rest, G s t rest ∧ C rest

theorem leadsTo_or : (G.leadsTo fun r => C r ∨ D r) = fun t => G.leadsTo C t ∨ G.leadsTo D t := by
  funext t
  simp only [leadsTo, and_or_left, exists_or]

theorem leadsTo_followedBy : (G.followedBy H).leadsTo C = G.leadsTo (H.leadsTo C) := by
  funext t
  refine propext ⟨?_, ?_⟩
  · rintro ⟨⟨s, u⟩, rest, ⟨middle, hs, hu⟩, hC⟩
    exact ⟨s, middle, hs, u, rest, hu, hC⟩
  · rintro ⟨s, middle, hs, u, rest, hu, hC⟩
    exact ⟨(s, u), rest, ⟨middle, hs, hu⟩, hC⟩

theorem leadsTo_single {c : CodePoint} : (single c).leadsTo C t ↔ ∃ r, t = c :: r ∧ C r :=
  ⟨fun ⟨_, r, h⟩ => ⟨r, h⟩, fun ⟨r, h⟩ => ⟨(), r, h⟩⟩

end Grammar

namespace Reader

variable {α β σ τ : Type} {p q : Reader α} {r : Reader β} {f : α → Reader β} {G : Grammar σ}
  {R : σ → σ → Prop} {v : σ → α} {B C : Text → Prop} {t : Text}

/-- The reader fails on the texts of the class and on no others. -/
def FailsOn (p : Reader α) (B : Text → Prop) : Prop := ∀ t, p.Fails t ↔ B t

theorem FailsOn.congr (h : p.FailsOn B) (hBC : ∀ t, B t ↔ C t) : p.FailsOn C :=
  fun t => (h t).trans (hBC t)

/-- A reader that answers on every text fails on none. -/
theorem failsOn_of_answers (h : ∀ t, ∃ as, p.run t = .ok as) : p.FailsOn fun _ => False := by
  intro t
  obtain ⟨as, has⟩ := h t
  refine iff_false_intro ?_
  rintro ⟨e, he⟩
  cases has.symm.trans he

theorem failsOn_unit (a : α) : (unit a).FailsOn fun _ => False :=
  failsOn_of_answers fun _ => ⟨_, rfl⟩

theorem failsOn_upTo (sep : CodePoint) (follow : Option (CodePoint → Bool)) :
    (upTo sep follow).FailsOn fun _ => False :=
  failsOn_of_answers fun _ => ⟨_, rfl⟩

theorem failsOn_char (c : CodePoint) : (char c).FailsOn fun _ => False :=
  failsOn_of_answers fun t => by cases t <;> exact ⟨_, rfl⟩

theorem failsOn_run1 (g : CodePoint → Bool) : (run1 g).FailsOn fun _ => False :=
  failsOn_of_answers fun _ => ⟨_, run_run1 g _⟩

/-- The second reader may depend on the phrase that the first one has read. -/
theorem FailsOn.bind {C : σ → Text → Prop} (hp : p.FailsOn B) (hG : p.Enumerates G R v)
    (hf : ∀ s, (f (v s)).FailsOn (C s)) :
    (p.bind f).FailsOn fun t => B t ∨ ∃ s rest, G s t rest ∧ C s rest := by
  intro t
  constructor
  · rintro ⟨e, he⟩
    rcases of_run_bind_eq_error he with he | ⟨as, has, a, ha, he⟩
    · exact .inl ((hp t).mp ⟨e, he⟩)
    · obtain ⟨phrases, hl⟩ := hG has
      obtain rfl := Except.ok.inj (has.symm.trans hl.run_eq)
      obtain ⟨d, hd, rfl⟩ := List.mem_map.mp ha
      exact .inr ⟨d.1, d.2, (hl.mem_iff _ _).mp hd, (hf _ _).mp ⟨e, he⟩⟩
  · rintro (h | ⟨s, rest, hs, hrest⟩)
    · exact ((hp t).mpr h).bind f
    · -- the phrase is among the answers, unless there is a fault already
      cases hrun : p.run t with
      | error e => exact Fails.bind ⟨e, hrun⟩ f
      | ok as =>
        obtain ⟨phrases, hl⟩ := hG hrun
        obtain rfl := Except.ok.inj (hrun.symm.trans hl.run_eq)
        have hmem := List.mem_map_of_mem (f := fun d => (v d.1, d.2)) ((hl.mem_iff _ _).mpr hs)
        exact fails_bind_of_mem hrun hmem ((hf _ _).mpr hrest)

theorem FailsOn.tryMap {g : α → Except Fault β} {D : σ → Prop} (hp : p.FailsOn B)
    (hG : p.Enumerates G R v) (hg : ∀ s, (∃ e, g (v s) = .error e) ↔ D s) :
    (p.tryMap g).FailsOn fun t => B t ∨ ∃ s rest, G s t rest ∧ D s := by
  rw [tryMap_eq_bind]
  refine hp.bind hG (C := fun s _ => D s) ?_
  intro s rest
  rw [← hg s]
  exact exists_congr fun _ => map_eq_error_iff

theorem FailsOn.map (hp : p.FailsOn B) (g : α → β) : (p.map g).FailsOn B := by
  intro t
  constructor
  · rintro ⟨e, he⟩
    rw [Reader.map, tryMap_eq_bind] at he
    rcases of_run_bind_eq_error he with he | ⟨_, _, _, _, he⟩
    · exact (hp t).mp ⟨e, he⟩
    · cases he
  · intro h
    exact ((hp t).mpr h).map g

theorem FailsOn.either (hp : p.FailsOn B) (hq : q.FailsOn C) :
    (p.either q).FailsOn fun t => B t ∨ C t := by
  intro t
  constructor
  · rintro ⟨e, he⟩
    exact (of_run_either_eq_error he).imp (fun h => (hp t).mp ⟨e, h⟩) fun h => (hq t).mp ⟨e, h⟩
  · rintro (h | h)
    · exact ((hp t).mpr h).either q
    · exact Fails.either_right ((hq t).mpr h) p

theorem FailsOn.optional (hp : p.FailsOn B) (a : α) : (p.optional a).FailsOn B :=
  (hp.either (failsOn_unit a)).congr fun _ => or_iff_left id

/-- A second reader that never fails makes no difference. -/
theorem FailsOn.bind_of_never (hp : p.FailsOn B) (hf : ∀ a, (f a).FailsOn fun _ => False) :
    (p.bind f).FailsOn B := by
  intro t
  constructor
  · rintro ⟨e, he⟩
    rcases of_run_bind_eq_error he with he | ⟨_, _, a, _, he⟩
    · exact (hp t).mp ⟨e, he⟩
    · exact ((hf _ _).mp ⟨e, he⟩).elim
  · intro h
    exact ((hp t).mpr h).bind f

theorem FailsOn.pair_of_never (hp : p.FailsOn B) (hr : r.FailsOn fun _ => False) :
    (p.pair r).FailsOn B :=
  hp.bind_of_never fun _ => hr.map _

theorem FailsOn.keepLeft_of_never (hp : p.FailsOn B) (hr : r.FailsOn fun _ => False) :
    (p.keepLeft r).FailsOn B :=
  hp.bind_of_never fun _ => hr.map _

section
variable (hp : p.FailsOn B) (hG : p.Enumerates G R v) (hr : r.FailsOn C)
include hp hG hr

theorem FailsOn.pair : (p.pair r).FailsOn fun t => B t ∨ G.leadsTo C t :=
  hp.bind hG fun _ => hr.map _

theorem FailsOn.keepRight : (p.keepRight r).FailsOn fun t => B t ∨ G.leadsTo C t :=
  hp.bind hG fun _ => hr

end

end Reader

end Locus
