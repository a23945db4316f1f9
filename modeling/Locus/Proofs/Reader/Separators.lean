import Locus.Proofs.Reader.Enumeration

/-!
Where a text is cut. The reader up to a separator answers once for each position at which the separator
stands and is followed as asked, from left to right. A search that starts again behind each separator it
has found meets these positions and no others, also where separators stand side by side or at an end.
-/

namespace Locus.Reader

variable {sep : CodePoint} {follow : Option (CodePoint → Bool)} {s t rest : Text} {i k : Nat}

/-! ### Positions -/

/-- At `i` stands the separator, and a code point of the class comes next if one is asked for. -/
def IsCut (sep : CodePoint) (follow : Option (CodePoint → Bool)) (t : Text) (i : Nat) : Prop :=
  t[i]? = some sep ∧ ∀ f, follow = some f → ∃ c, t[i + 1]? = some c ∧ f c

theorem allows_iff :
    allows follow t ↔ ∀ f, follow = some f → ∃ c, t.head? = some c ∧ f c := by
  cases follow <;> simp [allows, Option.any_eq_true]

theorem eq_take_append_cons_drop (h : t[i]? = some sep) : t = t.take i ++ sep :: t.drop (i + 1) := by
  obtain ⟨hi, rfl⟩ := List.getElem?_eq_some_iff.mp h
  rw [← List.drop_eq_getElem_cons hi, List.take_append_drop]

/-- The position of a cut is the length of the text before it. -/
theorem isCut_iff : IsCut sep follow t i ↔
    ∃ s rest, Grammar.before sep follow s t rest ∧ s.length = i := by
  rw [IsCut]
  constructor
  · rintro ⟨hsep, hfollow⟩
    have hi : i < t.length := (List.getElem?_eq_some_iff.mp hsep).1
    refine ⟨t.take i, t.drop (i + 1), ⟨eq_take_append_cons_drop hsep, allows_iff.mpr ?_⟩, ?_⟩
    · rwa [List.head?_drop]
    · rw [List.length_take, Nat.min_eq_left (Nat.le_of_lt hi)]
  · rintro ⟨s, rest, ⟨rfl, hallows⟩, rfl⟩
    have hsep : (s ++ sep :: rest)[s.length]? = some sep := by simp
    have hnext : (s ++ sep :: rest)[s.length + 1]? = rest.head? := by
      rw [List.getElem?_append_right (Nat.le_succ _)]
      simp [List.head?_eq_getElem?]
    rw [hsep, hnext]
    exact ⟨rfl, allows_iff.mp hallows⟩

/-- The answers are made from their positions. -/
theorem cuts_eq_map_length :
    cuts sep follow t =
      ((cuts sep follow t).map (·.1.length)).map fun i => (t.take i, t.drop (i + 1)) := by
  rw [List.map_map]
  refine (List.map_id _).symm.trans (List.map_congr_left ?_)
  rintro ⟨s, rest⟩ hd
  obtain ⟨rfl, -⟩ := mem_cuts.mp hd
  simp

theorem mem_map_length_cuts :
    i ∈ (cuts sep follow t).map (·.1.length) ↔ IsCut sep follow t i := by
  rw [isCut_iff]
  simp [mem_cuts]

theorem length_cuts_none : (cuts sep none t).length = t.count sep := by
  induction t with
  | nil => rfl
  | cons c t ih =>
    rw [cuts, List.count_cons]
    by_cases hc : c = sep <;> simp [hc, allows, ih]

/-! ### Searching -/

/-- The first position from `i` on at which the separator stands. -/
def nextSeparator? (sep : CodePoint) (t : Text) (i : Nat) : Option Nat :=
  ((t.drop i).idxOf? sep).map (i + ·)

theorem exists_of_nextSeparator? (h : nextSeparator? sep t i = some k) :
    ∃ s, sep ∉ s ∧ k = i + s.length ∧ t.drop i = s ++ sep :: t.drop (k + 1) := by
  obtain ⟨j, hj, rfl⟩ := Option.map_eq_some_iff.mp h
  obtain ⟨hlt, hsep, hbefore⟩ := List.idxOf?_eq_some_iff.mp hj
  refine ⟨(t.drop i).take j, ?_, ?_, ?_⟩
  · rw [List.mem_take_iff_getElem]
    rintro ⟨m, hm, he⟩
    exact hbefore m (by omega) he
  · rw [List.length_take, Nat.min_eq_left (Nat.le_of_lt hlt)]
  · have := eq_take_append_cons_drop (List.getElem?_eq_some_iff.mpr ⟨hlt, hsep⟩)
    rwa [List.drop_drop] at this

theorem lt_of_nextSeparator? (h : nextSeparator? sep t i = some k) : i ≤ k ∧ k < t.length := by
  obtain ⟨s, -, rfl, hs⟩ := exists_of_nextSeparator? h
  have hlength := congrArg List.length hs
  rw [List.length_drop, List.length_append, List.length_cons] at hlength
  omega

/-- The cuts at the separators that are found from position `i` on, where each search starts behind the
separator found before. -/
def cutsFrom (sep : CodePoint) (follow : Option (CodePoint → Bool)) (t : Text) (i : Nat) :
    List (Text × Text) :=
  match h : nextSeparator? sep t i with
  | none => []
  | some k =>
    have := lt_of_nextSeparator? h
    (if allows follow (t.drop (k + 1)) then [(t.take k, t.drop (k + 1))] else []) ++
      cutsFrom sep follow t (k + 1)
termination_by t.length - i

theorem cuts_of_notMem (h : sep ∉ t) : cuts sep follow t = [] := by
  refine List.eq_nil_iff_forall_not_mem.mpr ?_
  rintro ⟨s, rest⟩ hd
  obtain ⟨rfl, -⟩ := mem_cuts.mp hd
  exact h (List.mem_append_right s List.mem_cons_self)

/-- Behind the first separator the text is cut as it would be by itself. -/
theorem cuts_append_cons (h : sep ∉ s) :
    cuts sep follow (s ++ sep :: t) = (if allows follow t then [(s, t)] else []) ++
      (cuts sep follow t).map fun d => (s ++ sep :: d.1, d.2) := by
  induction s with
  | nil =>
    rw [List.nil_append, cuts]
    by_cases ht : allows follow t <;> simp [ht]
  | cons c s ih =>
    rw [List.mem_cons, not_or] at h
    rw [List.cons_append, cuts, if_neg fun he => h.1 he.1.symm, ih h.2]
    by_cases ht : allows follow t <;> simp [ht]

/-- From a position on, the search finds the cuts of the rest, each with all that was passed before it. -/
theorem cutsFrom_eq : cutsFrom sep follow t i =
    (cuts sep follow (t.drop i)).map fun d => (t.take i ++ d.1, d.2) := by
  fun_induction cutsFrom sep follow t i with
  | case1 i h =>
    have hmem : sep ∉ t.drop i := List.idxOf?_eq_none_iff.mp (Option.map_eq_none_iff.mp h)
    rw [cuts_of_notMem hmem, List.map_nil]
  | case2 i k h _ ih =>
    obtain ⟨s, hs, rfl, hdrop⟩ := exists_of_nextSeparator? h
    -- No separator stands in `s`, so the rest is cut first behind it and then as what follows is.
    have htake : t.take (i + s.length) = t.take i ++ s := by
      rw [List.take_add, hdrop, List.take_left]
    have htake' : t.take (i + s.length + 1) = t.take i ++ s ++ [sep] := by
      rw [Nat.add_assoc, List.take_add, hdrop, List.take_length_add_append]
      simp
    rw [ih, hdrop, cuts_append_cons hs, htake, htake']
    split <;> simp

theorem cutsFrom_zero : cutsFrom sep follow t 0 = cuts sep follow t := by
  rw [cutsFrom_eq]
  simp

/-! ### The answers -/

/-- The reader up to a separator always answers, for exactly the positions of cuts and from left to right,
with the text before the position and the text behind it; a search for one separator after the other
gives the same. Each answer gives the text back around the separator, the texts before it get longer, and
if nothing is asked of what follows there are as many answers as separators. -/
theorem upTo_lists_cuts (sep : CodePoint) (follow : Option (CodePoint → Bool)) (t : Text) :
    ∃ as, (upTo sep follow).run t = .ok as ∧
      (∃ positions : List Nat, positions.Pairwise (· < ·) ∧
        (∀ i, i ∈ positions ↔ IsCut sep follow t i) ∧
        as = positions.map fun i => (t.take i, t.drop (i + 1))) ∧
      as = cutsFrom sep follow t 0 ∧
      (∀ a ∈ as, a.1 ++ sep :: a.2 = t) ∧
      as.Pairwise (fun a b => a.1.length < b.1.length) ∧
      (follow = none → as.length = t.count sep) := by
  refine ⟨cuts sep follow t, rfl, ⟨_, ?_, fun _ => mem_map_length_cuts, cuts_eq_map_length⟩,
    cutsFrom_zero.symm, ?_, pairwise_cuts t, ?_⟩
  · rw [List.pairwise_map]
    exact pairwise_cuts t
  · rintro ⟨s, rest⟩ ha
    exact (mem_cuts.mp ha).1.symm
  · rintro rfl
    exact length_cuts_none

/-- Colons at both ends and side by side: all are cuts, and two of them stand before a digit. -/
example : (upTo ':' none).run ":1::2:" =
      .ok [("", "1::2:"), (":1", ":2:"), (":1:", "2:"), (":1::2", "")] ∧
    (upTo ':' (some CodePoint.isDigit)).run ":1::2:" = .ok [("", "1::2:"), (":1:", "2:")] :=
  ⟨rfl, rfl⟩

end Locus.Reader
