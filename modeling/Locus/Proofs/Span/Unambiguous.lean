import Locus.Proofs.Reader.Order
import Locus.Proofs.Span.Grammar

/-!
The span of a whole text. A text has many readings, but at most one takes in all of it; so whether
spans on one line are tried first or those over several, and which of the files, makes no difference
to the span that is found.
-/

namespace Locus.Span

variable {t : Text} {as : List (Span × Text)}

/-! ### Other orders -/

/-- The span that the whole text spells for a reader of spans. -/
def findBy (p : Reader Span) (t : Text) : Except Fault (Option Span) := do
  return (Reader.whole (← p.run t)).head?

example : findBy (located fileName) = find? := rfl

/-- Spans over several lines before those on one. -/
def blocksFirst (file : Reader Text) : Reader Span := (onLines file).either (onLine file)

/-- A file up to a colon that a place can follow, the longest first, or no file. -/
def longestFirst : Reader Text := (Reader.upTo ':' (some opensPlace)).reversed.optional []

variable {file file' : Reader Text}

theorem longestFirst_reorders : longestFirst.Reorders fileName :=
  (Reader.reversed_reorders _).optional []

theorem onLine_reorders (h : file'.Reorders file) : (onLine file').Reorders (onLine file) :=
  (((h.pair _).pair _).pair _).map _

theorem onLines_reorders (h : file'.Reorders file) : (onLines file').Reorders (onLines file) :=
  (((h.pair _).pair _).pair _).map _

theorem located_reorders (h : file'.Reorders file) : (located file').Reorders (located file) :=
  (onLine_reorders h).either (onLines_reorders h)

theorem blocksFirst_reorders (h : file'.Reorders file) :
    (blocksFirst file').Reorders (located file) :=
  (onLine_reorders h).either_comm (onLines_reorders h)

/-! ### One span -/

/-- Of readings that come one before another, at most one takes in the whole text. -/
theorem length_le_one_of_fits {ds : List (Reading × Text)} (hfits : ∀ d ∈ ds, d.1.Fits t [])
    (hord : ds.Pairwise fun d e => d.1.Before e.1) : ds.length ≤ 1 := by
  match ds with
  | [] => exact Nat.zero_le 1
  | [d] => exact Nat.le_refl 1
  | d :: e :: ds =>
    have he : e ∈ d :: e :: ds := List.mem_cons_of_mem d List.mem_cons_self
    have hbefore : d.1.Before e.1 := List.rel_of_pairwise_cons hord List.mem_cons_self
    exact absurd ((hfits d List.mem_cons_self).eq_of_rest_nil (hfits e he)) hbefore.ne

theorem length_filter_le_one (h : read t = .ok as) : (as.filter (·.2 = [])).length ≤ 1 := by
  obtain ⟨ds, rfl, hmem, hord⟩ := exists_readings_of_read h
  rw [List.filter_map, List.length_map]
  refine length_le_one_of_fits (t := t) ?_ (hord.filter _)
  intro d hd
  obtain ⟨hd, hnil⟩ := List.mem_filter.mp hd
  have hrest : d.2 = [] := decide_eq_true_eq.mp hnil
  exact hrest ▸ (hmem d.1 d.2).mp hd

theorem length_whole_le_one (h : read t = .ok as) : (Reader.whole as).length ≤ 1 := by
  rw [Reader.whole, List.length_map]
  exact length_filter_le_one h

theorem findBy_eq_find? {p : Reader Span} (h : read t = .ok as)
    (hp : p.Reorders (located fileName)) : findBy p t = find? t := by
  obtain ⟨bs, hbs, hperm⟩ := hp h
  have hhead := Reader.head?_whole_eq_of_perm hperm (length_whole_le_one h)
  rw [findBy, hbs, find?_of_read_eq_ok h, ← hhead]
  rfl

/-- Wherever reading answers, at most one answer leaves nothing over, and the span that is found is
the same in every order of the answers: with the spans over several lines first, and with the longest
files first too. -/
theorem read_unambiguous (h : read t = .ok as) :
    (as.filter (·.2 = [])).length ≤ 1 ∧ (Reader.whole as).length ≤ 1 ∧
      (∀ p : Reader Span, p.Reorders (located fileName) → findBy p t = find? t) ∧
      findBy (blocksFirst fileName) t = find? t ∧ findBy (located longestFirst) t = find? t ∧
      findBy (blocksFirst longestFirst) t = find? t :=
  ⟨length_filter_le_one h, length_whole_le_one h, fun _ hp => findBy_eq_find? h hp,
    findBy_eq_find? h (blocksFirst_reorders (Reader.reorders_refl _)),
    findBy_eq_find? h (located_reorders longestFirst_reorders),
    findBy_eq_find? h (blocksFirst_reorders longestFirst_reorders)⟩

/-- Each of three colons may end the file, or the file may be missing; one reading takes in all. -/
theorem read_unambiguous_of_colons : ∃ as, read "a:1:2:3-4" = .ok as ∧
    (as.filter (·.2 = [])).length ≤ 1 ∧ (Reader.whole as).length ≤ 1 ∧
      findBy (blocksFirst fileName) "a:1:2:3-4" = .ok (some ⟨"a:1", ⟨2, 3⟩, ⟨2, 4⟩⟩) ∧
      findBy (located longestFirst) "a:1:2:3-4" = .ok (some ⟨"a:1", ⟨2, 3⟩, ⟨2, 4⟩⟩) := by
  have hfind : find? "a:1:2:3-4" = .ok (some ⟨"a:1", ⟨2, 3⟩, ⟨2, 4⟩⟩) := by decide
  obtain ⟨as, has⟩ := exists_read_eq_ok (t := "a:1:2:3-4")
    (Text.digitRunsWithin_of_length_le (by decide))
  obtain ⟨hfilter, hwhole, -, hblocks, hlongest, -⟩ := read_unambiguous has
  exact ⟨as, has, hfilter, hwhole, hblocks.trans hfind, hlongest.trans hfind⟩

end Locus.Span
