import Locus.Proofs.Path.Components

/-!
Where a walk ends. A place is the stack of the names that lead to it, the latest first. What resolving
leaves leads from every base to the place that the components themselves lead to, since each step
of the resolution does; and as a settled walk is names behind a run of `..`, no two of them lead to
the same places.
-/

namespace Locus.Path

variable {rooted : Bool} {c : Text} {base cs kept kept' names : List Text} {k : Nat}

/-! ### Moving -/

/-- One component further: a name is pushed, and `..` pops one if there is any. -/
def move (place : List Text) (c : Text) : List Text :=
  if c = up then place.tail else c :: place

/-- The place that components lead to from a base. -/
def walk (base cs : List Text) : List Text := cs.foldl move base

@[simp] theorem move_up (place : List Text) : move place up = place.tail := if_pos rfl

@[simp] theorem move_of_ne (h : c ≠ up) (place : List Text) : move place c = c :: place := if_neg h

@[simp] theorem walk_nil (base : List Text) : walk base [] = base := rfl

@[simp] theorem walk_cons (base : List Text) (c : Text) (cs : List Text) :
    walk base (c :: cs) = walk (move base c) cs := rfl

@[simp] theorem walk_append (base cs ds : List Text) : walk base (cs ++ ds) = walk (walk base cs) ds :=
  List.foldl_append

/-! ### What resolving keeps -/

/-- A step of the resolution moves as its component does. Where `..` is dropped at a root, the base
has to be empty. -/
theorem walk_reverse_step (hbase : rooted → base = []) (kept : List Text) (c : Text) :
    walk base (step rooted kept c).reverse = move (walk base kept.reverse) c := by
  by_cases hc : c = up
  · subst hc
    cases kept with
    | nil =>
      cases rooted with
      | true =>
        rw [hbase rfl]
        rfl
      | false => rfl
    | cons last earlier =>
      by_cases hlast : last = up
      · rw [hlast, step_up_up, List.reverse_cons, walk_append, walk_cons, walk_nil]
      · rw [step_up_cons_of_ne hlast, List.reverse_cons, walk_append, walk_cons, walk_nil,
          move_of_ne hlast, move_up, List.tail_cons]
  · rw [step_of_ne hc, List.reverse_cons, walk_append, walk_cons, walk_nil]

theorem walk_reverse_foldl (hbase : rooted → base = []) (cs kept : List Text) :
    walk base (cs.foldl (step rooted) kept).reverse = walk (walk base kept.reverse) cs := by
  induction cs generalizing kept with
  | nil => rfl
  | cons c cs ih => rw [List.foldl_cons, ih, walk_reverse_step hbase, walk_cons]

/-- What resolving leaves leads to the same place. -/
theorem walk_resolve (hbase : rooted → base = []) (cs : List Text) :
    walk base (resolve rooted cs) = walk base cs :=
  walk_reverse_foldl hbase cs []

/-! ### Settled walks are told apart -/

theorem walk_replicate_up (base : List Text) (k : Nat) :
    walk base (List.replicate k up) = base.drop k := by
  induction k generalizing base with
  | zero => rfl
  | succ k ih => rw [List.replicate_succ, walk_cons, move_up, ih, List.drop_tail]

theorem walk_reverse_of_names (h : ∀ c ∈ names, c ≠ up) (base : List Text) :
    walk base names.reverse = names ++ base := by
  induction names with
  | nil => rfl
  | cons c names ih =>
    rw [List.reverse_cons, walk_append, ih fun d hd => h d (List.mem_cons_of_mem c hd), walk_cons,
      walk_nil, move_of_ne (h c List.mem_cons_self), List.cons_append]

/-- A settled walk is a run of `..` and then names, and a rooted one names alone. -/
theorem Settled.exists_names (h : Settled rooted kept) : ∃ names k,
    kept = names ++ List.replicate k up ∧ (∀ c ∈ names, c ≠ up) ∧ (rooted → k = 0) := by
  induction kept with
  | nil => exact ⟨[], 0, rfl, List.forall_mem_nil _, fun _ => rfl⟩
  | cons c kept ih =>
    by_cases hc : c = up
    · obtain ⟨hr, hall⟩ := h.1 hc
      refine ⟨[], kept.length + 1, ?_, List.forall_mem_nil _, ?_⟩
      · rw [List.nil_append, List.replicate_succ, hc, ← List.eq_replicate_of_mem hall]
      · rw [hr]
        intro hf
        cases hf
    · obtain ⟨names, k, rfl, hnames, hk⟩ := ih h.2
      refine ⟨c :: names, k, rfl, ?_, hk⟩
      intro d hd
      rcases List.mem_cons.mp hd with rfl | hd
      · exact hc
      · exact hnames d hd

/-- What resolving leaves is a run of `..` and then names, and names alone at a root. -/
theorem exists_resolve_eq (rooted : Bool) (cs : List Text) : ∃ k names,
    resolve rooted cs = List.replicate k up ++ names ∧ (∀ c ∈ names, c ≠ up) ∧
      (rooted → k = 0) := by
  obtain ⟨names, k, hkept, hnames, hk⟩ := (settled_reverse_resolve rooted cs).exists_names
  refine ⟨k, names.reverse, ?_, fun c hc => hnames c (List.mem_reverse.mp hc), hk⟩
  rw [← List.reverse_reverse (resolve rooted cs), hkept, List.reverse_append,
    List.reverse_replicate]

theorem walk_reverse_append_replicate (h : ∀ c ∈ names, c ≠ up) (base : List Text) (k : Nat) :
    walk base (names ++ List.replicate k up).reverse = names ++ base.drop k := by
  rw [List.reverse_append, List.reverse_replicate, walk_append, walk_replicate_up,
    walk_reverse_of_names h]

/-- Two settled walks that lead to the same place, from the empty base and, if they are not rooted,
from every base, are the same. -/
theorem Settled.eq_of_walk_eq (h : Settled rooted kept) (h' : Settled rooted kept')
    (hwalk : ∀ base, (rooted → base = []) → walk base kept.reverse = walk base kept'.reverse) :
    kept = kept' := by
  obtain ⟨names, k, rfl, hnames, hk⟩ := h.exists_names
  obtain ⟨names', k', rfl, hnames', hk'⟩ := h'.exists_names
  -- the empty base shows the names, and one that no run of `..` exhausts shows how long the run is
  have hempty := hwalk [] fun _ => rfl
  rw [walk_reverse_append_replicate hnames, walk_reverse_append_replicate hnames',
    List.drop_nil, List.drop_nil, List.append_nil, List.append_nil] at hempty
  subst hempty
  cases rooted with
  | true => rw [hk rfl, hk' rfl]
  | false =>
    have hlong := hwalk (List.replicate (k + k') here) fun hf => nomatch hf
    rw [walk_reverse_append_replicate hnames, walk_reverse_append_replicate hnames',
      List.drop_replicate, List.drop_replicate] at hlong
    have hlen := congrArg List.length (List.append_cancel_left hlong)
    rw [List.length_replicate, List.length_replicate] at hlen
    rw [show k = k' by omega]

/-- Resolved components are the same exactly when they lead to the same places. -/
theorem resolve_eq_resolve_iff {cs ds : List Text} : resolve rooted cs = resolve rooted ds ↔
    ∀ base, (rooted → base = []) → walk base cs = walk base ds := by
  constructor
  · intro h base hbase
    rw [← walk_resolve hbase cs, h, walk_resolve hbase]
  · intro h
    refine List.reverse_inj.mp ((settled_reverse_resolve rooted cs).eq_of_walk_eq
      (settled_reverse_resolve rooted ds) ?_)
    intro base hbase
    rw [List.reverse_reverse, List.reverse_reverse, walk_resolve hbase, walk_resolve hbase,
      h base hbase]

end Locus.Path
