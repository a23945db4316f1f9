import Mathlib.Data.List.Basic
import Mathlib.Tactic.Choose
import Locus.Proofs.Reader.Outcome

/-!
Readers and grammars. A reader enumerates a grammar when its answers, wherever it has no fault, are
the phrases that a text can start with: each phrase once, nothing else, and in a given order. Readers
that are joined enumerate their grammars joined, so that the answers of a large reader follow from
those of its parts.
-/

namespace Locus

/-- `G s t rest`: the text `t` starts with the phrase `s` and goes on with `rest`. -/
abbrev Grammar (σ : Type) := σ → Text → Text → Prop

namespace Grammar

variable {σ τ : Type}

/-- A phrase of `G` with a phrase of `H` behind it. -/
def followedBy (G : Grammar σ) (H : Grammar τ) : Grammar (σ × τ) :=
  fun s t rest => ∃ middle, G s.1 t middle ∧ H s.2 middle rest

/-- A phrase of either grammar. -/
def orElse (G : Grammar σ) (H : Grammar τ) : Grammar (σ ⊕ τ)
  | .inl s => G s
  | .inr s => H s

/-- The empty phrase. -/
def empty : Grammar Unit := fun _ t rest => t = rest

/-- The one code point `c`. -/
def single (c : CodePoint) : Grammar Unit := fun _ t rest => t = c :: rest

/-- The longest run of code points of a class, if there is one. -/
def longest (f : CodePoint → Bool) : Grammar Text :=
  fun s t rest => s ≠ [] ∧ t.takeWhile f = s ∧ t.dropWhile f = rest

/-- Whatever stands before a separator that is followed as asked. -/
def before (sep : CodePoint) (follow : Option (CodePoint → Bool)) : Grammar Text :=
  fun s t rest => t = s ++ sep :: rest ∧ Reader.allows follow rest

/-- A phrase of `G`, or nothing at all. -/
def optional (G : Grammar σ) : Grammar (Option σ)
  | some s => G s
  | none => fun t rest => t = rest

end Grammar

/-- The order of optional phrases: as `R` has them, and a missing one last. -/
def missingLast {σ : Type} (R : σ → σ → Prop) : Option σ → Option σ → Prop
  | some s, some s' => R s s'
  | some _, none => True
  | none, _ => False

namespace Reader

variable {α β σ τ : Type}

/-! ### Enumerating a grammar -/

/-- On `t` the reader answers with the values of `phrases`, which are all the phrases of the grammar
with which `t` starts, in the order `R`. -/
structure Lists (p : Reader α) (G : Grammar σ) (R : σ → σ → Prop) (val : σ → α) (t : Text)
    (phrases : List (σ × Text)) : Prop where
  run_eq : p.run t = .ok (phrases.map fun d => (val d.1, d.2))
  mem_iff : ∀ s rest, (s, rest) ∈ phrases ↔ G s t rest
  ordered : phrases.Pairwise fun d e => R d.1 e.1

/-- Wherever the reader has no fault, it answers with the phrases of the grammar. -/
def Enumerates (p : Reader α) (G : Grammar σ) (R : σ → σ → Prop) (val : σ → α) : Prop :=
  ∀ ⦃t : Text⦄ ⦃as : List (α × Text)⦄, p.run t = .ok as → ∃ phrases, Lists p G R val t phrases

variable {p : Reader α} {G : Grammar σ} {R : σ → σ → Prop} {v : σ → α}

/-- A value that is not refused is known. -/
theorem Enumerates.tryMap {f : α → Except Fault β} {w : σ → β} (h : Enumerates p G R v)
    (hf : ∀ {s t rest b}, G s t rest → f (v s) = .ok b → b = w s) :
    Enumerates (p.tryMap f) G R w := by
  intro t bs hbs
  rw [tryMap_eq_bind] at hbs
  obtain ⟨as, has, g, hg, rfl⟩ := run_bind_eq_ok_iff.mp hbs
  obtain ⟨phrases, hl⟩ := h has
  obtain rfl := Except.ok.inj (has.symm.trans hl.run_eq)
  refine ⟨phrases, ?_, hl.mem_iff, hl.ordered⟩
  rw [tryMap_eq_bind, hbs, List.flatMap_map, List.map_eq_flatMap]
  refine congrArg _ (List.flatMap_congr fun d hd => ?_)
  obtain ⟨b, hb, hval⟩ := map_eq_ok_iff.mp (hg _ (List.mem_map_of_mem hd))
  rw [← hval, hf ((hl.mem_iff _ _).mp hd) hb]

theorem Enumerates.map (f : α → β) (h : Enumerates p G R v) :
    Enumerates (p.map f) G R fun s => f (v s) :=
  h.tryMap fun _ hb => (Except.ok.inj hb).symm

/-- The same phrases in other terms. -/
theorem Enumerates.reindex {H : Grammar τ} {S : τ → τ → Prop} {w : τ → α} (f : σ → τ)
    (h : Enumerates p G R v) (hG : ∀ u t rest, H u t rest ↔ ∃ s, f s = u ∧ G s t rest)
    (hR : ∀ {t s s' rest rest'}, G s t rest → G s' t rest' → R s s' → S (f s) (f s'))
    (hv : ∀ s, w (f s) = v s) : Enumerates p H S w := by
  intro t as has
  obtain ⟨phrases, hl⟩ := h has
  refine ⟨phrases.map fun d => (f d.1, d.2), ?_, ?_, ?_⟩
  · simp only [hl.run_eq, List.map_map, Function.comp_def, hv]
  · intro u rest
    rw [hG, List.mem_map]
    constructor
    · rintro ⟨⟨s, rest'⟩, hd, he⟩
      obtain ⟨rfl, rfl⟩ := Prod.mk.inj he
      exact ⟨s, rfl, (hl.mem_iff s rest').mp hd⟩
    · rintro ⟨s, rfl, hs⟩
      exact ⟨(s, rest), (hl.mem_iff s rest).mpr hs, rfl⟩
  · rw [List.pairwise_map]
    refine hl.ordered.imp_of_mem fun hd he => ?_
    exact hR ((hl.mem_iff _ _).mp hd) ((hl.mem_iff _ _).mp he)

theorem enumerates_unit (a : α) :
    Enumerates (unit a) .empty (fun _ _ => False) fun _ => a := by
  intro t _ _
  refine ⟨[((), t)], rfl, ?_, List.pairwise_singleton _ _⟩
  intro s rest
  rw [List.mem_singleton, Grammar.empty, Prod.mk.injEq]
  exact ⟨fun h => h.2.symm, fun h => ⟨rfl, h.symm⟩⟩

/-- All phrases of the first reader come before those of the second. -/
theorem Enumerates.either {q : Reader α} {H : Grammar τ} {S : τ → τ → Prop} {w : τ → α}
    (hp : Enumerates p G R v) (hq : Enumerates q H S w) :
    Enumerates (p.either q) (G.orElse H) (Sum.Lex R S) (Sum.elim v w) := by
  intro t cs hcs
  obtain ⟨as, has, bs, hbs, -⟩ := run_either_eq_ok_iff.mp hcs
  obtain ⟨first, hf⟩ := hp has
  obtain ⟨second, hg⟩ := hq hbs
  refine ⟨first.map (fun d => (.inl d.1, d.2)) ++ second.map fun d => (.inr d.1, d.2), ?_, ?_, ?_⟩
  · refine run_either_eq_ok_iff.mpr ⟨_, hf.run_eq, _, hg.run_eq, ?_⟩
    rw [List.map_append, List.map_map, List.map_map]
    rfl
  · rintro (s | s) rest <;> simp [Grammar.orElse, ← hf.mem_iff, ← hg.mem_iff]
  · rw [List.pairwise_append, List.pairwise_map, List.pairwise_map]
    refine ⟨hf.ordered.imp .inl, hg.ordered.imp .inr, ?_⟩
    intro a ha b hb
    obtain ⟨d, -, rfl⟩ := List.mem_map.mp ha
    obtain ⟨e, -, rfl⟩ := List.mem_map.mp hb
    exact .sep _ _

/-- A phrase, or nothing at all; what lacks the phrase comes last. -/
theorem Enumerates.optional (a : α) (h : Enumerates p G R v) :
    Enumerates (p.optional a) G.optional (missingLast R) fun s => (s.map v).getD a := by
  refine (h.either (enumerates_unit a)).reindex Sum.getLeft? ?_ ?_ ?_
  · rintro (_ | s) t rest <;> rw [Sum.exists] <;>
      simp [Grammar.optional, Grammar.orElse, Grammar.empty]
  · intro t s s' rest rest' _ _ hs
    cases hs with
    | inl hs => exact hs
    | inr hs => exact hs
    | sep s u => trivial
  · rintro (s | s) <;> rfl

/-- The phrases of `p`, each with all phrases of the reader behind it, whose phrases do not depend
on what `p` answered. -/
theorem Enumerates.bind {f : α → Reader β} {H : Grammar τ} {S : τ → τ → Prop} {w : α → τ → β}
    (hp : Enumerates p G R v) (hf : ∀ a, Enumerates (f a) H S (w a)) :
    Enumerates (p.bind f) (G.followedBy H) (Prod.Lex R S) fun s => w (v s.1) s.2 := by
  intro t bs hbs
  obtain ⟨as, has, g, hg, rfl⟩ := run_bind_eq_ok_iff.mp hbs
  obtain ⟨first, hfirst⟩ := hp has
  obtain rfl := Except.ok.inj (has.symm.trans hfirst.run_eq)
  -- the second reader has answered behind each phrase of the first
  have hlists : ∀ d : σ × Text, ∃ l, d ∈ first → Lists (f (v d.1)) H S (w (v d.1)) d.2 l := by
    intro d
    by_cases hd : d ∈ first
    · obtain ⟨l, hl⟩ := hf (v d.1) (hg _ (List.mem_map_of_mem hd))
      exact ⟨l, fun _ => hl⟩
    · exact ⟨[], fun h => absurd h hd⟩
  choose second hsecond using hlists
  refine ⟨first.flatMap fun d => (second d).map fun e => ((d.1, e.1), e.2), ?_, ?_, ?_⟩
  · rw [hbs, List.flatMap_map, List.map_flatMap]
    refine congrArg _ (List.flatMap_congr fun d hd => ?_)
    have hrun := (hg _ (List.mem_map_of_mem hd)).symm.trans (hsecond d hd).run_eq
    rw [Except.ok.inj hrun, List.map_map]
    rfl
  · rintro ⟨s, u⟩ rest
    simp only [List.mem_flatMap, List.mem_map, Grammar.followedBy]
    constructor
    · rintro ⟨⟨s', middle⟩, hd, ⟨u', rest'⟩, he, hx⟩
      obtain ⟨⟨rfl, rfl⟩, rfl⟩ := hx
      exact ⟨middle, (hfirst.mem_iff _ _).mp hd, ((hsecond _ hd).mem_iff _ _).mp he⟩
    · rintro ⟨middle, hs, hu⟩
      have hd := (hfirst.mem_iff _ _).mpr hs
      exact ⟨(s, middle), hd, (u, rest), ((hsecond _ hd).mem_iff _ _).mpr hu, rfl⟩
  · rw [List.pairwise_flatMap]
    refine ⟨?_, hfirst.ordered.imp fun hde => ?_⟩
    · intro d hd
      rw [List.pairwise_map]
      exact (hsecond d hd).ordered.imp fun h => .right _ h
    · intro x hx y hy
      obtain ⟨_, -, rfl⟩ := List.mem_map.mp hx
      obtain ⟨_, -, rfl⟩ := List.mem_map.mp hy
      exact .left _ _ hde

section
variable {q : Reader β} {H : Grammar τ} {S : τ → τ → Prop} {w : τ → β}

theorem Enumerates.pair (hp : Enumerates p G R v) (hq : Enumerates q H S w) :
    Enumerates (p.pair q) (G.followedBy H) (Prod.Lex R S) fun s => (v s.1, w s.2) :=
  hp.bind fun a => hq.map fun b => (a, b)

theorem Enumerates.keepLeft (hp : Enumerates p G R v) (hq : Enumerates q H S w) :
    Enumerates (p.keepLeft q) (G.followedBy H) (Prod.Lex R S) fun s => v s.1 :=
  hp.bind fun a => hq.map fun _ => a

theorem Enumerates.keepRight (hp : Enumerates p G R v) (hq : Enumerates q H S w) :
    Enumerates (p.keepRight q) (G.followedBy H) (Prod.Lex R S) fun s => w s.2 :=
  hp.bind fun _ => hq

end

/-! ### Single code points, runs and separators -/

theorem enumerates_char (c : CodePoint) :
    Enumerates (char c) (.single c) (fun _ _ => False) fun _ => c := by
  intro t _ _
  refine ⟨if t.head? = some c then [((), t.tail)] else [], ?_⟩
  cases t with
  | nil => exact ⟨rfl, by simp [Grammar.single], .nil⟩
  | cons a t =>
    by_cases ha : a = c
    · subst ha
      exact ⟨by simp [run, char, satisfy], by simp [Grammar.single, eq_comm], by simp⟩
    · exact ⟨by simp [run, char, satisfy, ha], by simp [Grammar.single, ha], by simp [ha]⟩

theorem enumerates_run1 (f : CodePoint → Bool) :
    Enumerates (run1 f) (.longest f) (fun _ _ => False) id := by
  intro t _ _
  refine ⟨if t.takeWhile f = [] then [] else [(t.takeWhile f, t.dropWhile f)], ?_, ?_, ?_⟩
  · rw [run_run1]
    split <;> rfl
  · intro s rest
    rw [Grammar.longest]
    split
    · next h =>
      rw [h]
      refine iff_of_false List.not_mem_nil ?_
      rintro ⟨hne, rfl, -⟩
      exact hne rfl
    · next h =>
      rw [List.mem_singleton, Prod.mk.injEq]
      constructor
      · rintro ⟨rfl, rfl⟩
        exact ⟨h, rfl, rfl⟩
      · rintro ⟨-, rfl, rfl⟩
        exact ⟨rfl, rfl⟩
  · split
    · exact .nil
    · exact List.pairwise_singleton _ _

/-- The separator stands at once, or behind the first code point. -/
theorem before_cons_iff {sep c : CodePoint} {follow : Option (CodePoint → Bool)}
    {s t rest : Text} : Grammar.before sep follow s (c :: t) rest ↔
      (s = [] ∧ rest = t ∧ c = sep ∧ allows follow rest) ∨
        ∃ s', s = c :: s' ∧ Grammar.before sep follow s' t rest := by
  unfold Grammar.before
  cases s with
  | nil =>
    rw [List.nil_append, List.cons.injEq]
    constructor
    · rintro ⟨⟨rfl, rfl⟩, hf⟩
      exact .inl ⟨rfl, rfl, rfl, hf⟩
    · rintro (⟨-, rfl, rfl, hf⟩ | ⟨s', hs, -⟩)
      · exact ⟨⟨rfl, rfl⟩, hf⟩
      · cases hs
  | cons a s =>
    rw [List.cons_append, List.cons.injEq]
    constructor
    · rintro ⟨⟨rfl, ht⟩, hf⟩
      exact .inr ⟨s, rfl, ht, hf⟩
    · rintro (⟨hs, -⟩ | ⟨s', hs, ht, hf⟩)
      · cases hs
      · obtain ⟨rfl, rfl⟩ := List.cons.inj hs
        exact ⟨⟨rfl, ht⟩, hf⟩

theorem mem_cuts {sep : CodePoint} {follow : Option (CodePoint → Bool)} {s t rest : Text} :
    (s, rest) ∈ cuts sep follow t ↔ Grammar.before sep follow s t rest := by
  induction t generalizing s rest with
  | nil => simp [cuts, Grammar.before]
  | cons c t ih =>
    have hlater : (s, rest) ∈ (cuts sep follow t).map (fun d => (c :: d.1, d.2)) ↔
        ∃ s', s = c :: s' ∧ Grammar.before sep follow s' t rest := by
      simp only [List.mem_map, Prod.exists, ih, Prod.mk.injEq]
      constructor
      · rintro ⟨s', _, h, rfl, rfl⟩
        exact ⟨s', rfl, h⟩
      · rintro ⟨s', rfl, h⟩
        exact ⟨s', rest, h, rfl, rfl⟩
    rw [cuts, before_cons_iff]
    split
    · next h =>
      rw [List.mem_cons, hlater, Prod.mk.injEq]
      refine or_congr_left ?_
      constructor
      · rintro ⟨rfl, rfl⟩
        exact ⟨rfl, rfl, h⟩
      · rintro ⟨rfl, rfl, -⟩
        exact ⟨rfl, rfl⟩
    · next h =>
      rw [hlater]
      refine (or_iff_right ?_).symm
      rintro ⟨-, rfl, hc⟩
      exact h hc

theorem pairwise_cuts {sep : CodePoint} {follow : Option (CodePoint → Bool)} (t : Text) :
    (cuts sep follow t).Pairwise fun a b => a.1.length < b.1.length := by
  induction t with
  | nil => exact .nil
  | cons c t ih =>
    have hlater : ((cuts sep follow t).map fun d => (c :: d.1, d.2)).Pairwise
        fun a b => a.1.length < b.1.length := by
      rw [List.pairwise_map]
      exact ih.imp Nat.succ_lt_succ
    rw [cuts]
    split
    · refine List.pairwise_cons.mpr ⟨?_, hlater⟩
      intro a ha
      obtain ⟨_, -, rfl⟩ := List.mem_map.mp ha
      exact Nat.succ_pos _
    · exact hlater

theorem enumerates_upTo (sep : CodePoint) (follow : Option (CodePoint → Bool)) :
    Enumerates (upTo sep follow) (.before sep follow) (fun s s' => s.length < s'.length) id := by
  intro t _ _
  exact ⟨cuts sep follow t, by simp [run, upTo], fun _ _ => mem_cuts, pairwise_cuts t⟩

end Reader

end Locus
