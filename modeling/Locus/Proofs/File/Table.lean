import Mathlib.Data.List.DropRight
import Mathlib.Data.List.Find
import Mathlib.Data.List.Sort
import Locus.File.Table
import Locus.Proofs.File.Key

/-!
A table of files as a map from paths. Keys are equal when their paths are, whatever the spelling and
the style they were given in and whatever their URIs are. A table compares only keys of one hash; but
what is hashed for a key is its path, so however texts are hashed a table answers as a map from paths
does. Of each entry it also keeps the key, and with it a URI: they are those of the put that made the
entry, as a later put at the same path changes nothing but the value.
-/

namespace Locus

instance : Std.TransOrd CodePoint where
  eq_swap {a b} := Std.OrientedOrd.eq_swap (a := a.toNat) (b := b.toNat)
  isLE_trans {a b c} := Std.TransOrd.isLE_trans (a := a.toNat) (b := b.toNat) (c := c.toNat)

instance : Std.LawfulEqOrd CodePoint where
  compare_self {a} := Std.ReflOrd.compare_self (a := a.toNat)
  eq_of_compare h := CodePoint.ext (Std.LawfulEqOrd.eq_of_compare h)

namespace FileTable

open FileId (HashedByPath beq_iff hash_eq_of_beq hashedByPath_ofRaw)

variable {α : Type} {t : FileTable α} {k k' : FileId} {v : α} {n : Text} {es : List (FileId × α)}

/-! ### Entries by path -/

/-- The entry at a path. -/
def at? (t : FileTable α) (n : Text) : Option (FileId × α) := t.entries.find? (·.1.path = n)

/-- The paths of the keys, in the order in which these arrived. -/
def keyPaths (t : FileTable α) : List Text := t.entries.map (·.1.path)

/-- Every key is hashed by its path. -/
def HashedByPaths (t : FileTable α) : Prop := ∀ e ∈ t.entries, e.1.HashedByPath

theorem isSome_at?_iff : (t.at? n).isSome ↔ n ∈ t.keyPaths := by
  simp only [at?, keyPaths, List.find?_isSome, List.mem_map, decide_eq_true_eq]

section Hashing

variable [Hashable Text]

/-- Of keys that are hashed by their paths, the search passes none of the same path over. -/
theorem finds_iff (hk : k.HashedByPath) (hk' : k'.HashedByPath) :
    finds k k' ↔ k'.path = k.path := by
  rw [finds, Bool.and_eq_true, beq_iff, beq_iff_eq]
  refine ⟨And.right, ?_⟩
  intro h
  exact ⟨hash_eq_of_beq hk' hk (beq_iff.mpr h), h⟩

theorem entry?_eq_at? (ht : t.HashedByPaths) (hk : k.HashedByPath) :
    t.entry? k = t.at? k.path := by
  refine List.find?_congr fun e he => Bool.eq_iff_iff.mpr ?_
  rw [finds_iff hk (ht e he), decide_eq_true_iff]

/-! ### Putting -/

theorem insertEntry_cons {e : FileId × α} (hk : k.HashedByPath) (he : e.1.HashedByPath) :
    insertEntry k v (e :: es) =
      if e.1.path = k.path then (e.1, v) :: es else e :: insertEntry k v es := by
  rw [insertEntry]
  exact if_congr (finds_iff hk he) rfl rfl

theorem hashedByPath_insertEntry (hk : k.HashedByPath) (hes : ∀ e ∈ es, e.1.HashedByPath) :
    ∀ e ∈ insertEntry k v es, e.1.HashedByPath := by
  induction es with
  | nil => exact List.forall_mem_singleton.mpr hk
  | cons e es ih =>
    obtain ⟨he, hes⟩ := List.forall_mem_cons.mp hes
    rw [insertEntry_cons hk he]
    split
    · exact List.forall_mem_cons.mpr ⟨he, hes⟩
    · exact List.forall_mem_cons.mpr ⟨he, ih hes⟩

theorem map_path_insertEntry (hk : k.HashedByPath) (hes : ∀ e ∈ es, e.1.HashedByPath)
    (h : k.path ∈ es.map (·.1.path)) :
    (insertEntry k v es).map (·.1.path) = es.map (·.1.path) := by
  induction es with
  | nil => cases h
  | cons e es ih =>
    obtain ⟨hhead, htail⟩ := List.forall_mem_cons.mp hes
    rw [insertEntry_cons hk hhead]
    by_cases he : e.1.path = k.path
    · rw [if_pos he]
      rfl
    · have hmem := (List.mem_cons.mp h).resolve_left (Ne.symm he)
      rw [if_neg he, List.map_cons, List.map_cons, ih htail hmem]

/-- The entry of a new key comes last. -/
theorem insertEntry_of_notMem (hk : k.HashedByPath) (hes : ∀ e ∈ es, e.1.HashedByPath)
    (h : k.path ∉ es.map (·.1.path)) : insertEntry k v es = es ++ [(k, v)] := by
  induction es with
  | nil => rfl
  | cons e es ih =>
    obtain ⟨hhead, htail⟩ := List.forall_mem_cons.mp hes
    obtain ⟨he, hmem⟩ := not_or.mp (mt List.mem_cons.mpr h)
    rw [insertEntry_cons hk hhead, if_neg (Ne.symm he), ih htail hmem, List.cons_append]

theorem find?_insertEntry (hk : k.HashedByPath) (hes : ∀ e ∈ es, e.1.HashedByPath) :
    (insertEntry k v es).find? (·.1.path = n) =
      if k.path = n then some (((es.find? (·.1.path = n)).map (·.1)).getD k, v)
      else es.find? (·.1.path = n) := by
  induction es with
  | nil => by_cases hn : k.path = n <;> simp [insertEntry, hn]
  | cons e es ih =>
    obtain ⟨hhead, htail⟩ := List.forall_mem_cons.mp hes
    rw [insertEntry_cons hk hhead]
    by_cases he : e.1.path = k.path
    · rw [if_pos he]
      by_cases hn : k.path = n <;> simp [he, hn]
    · rw [if_neg he, List.find?_cons, List.find?_cons, ih htail]
      by_cases hn : k.path = n
      · have hen : e.1.path ≠ n := hn ▸ he
        simp [hn, hen]
      · simp only [if_neg hn]

theorem HashedByPaths.insert (ht : t.HashedByPaths) (hk : k.HashedByPath) :
    (t.insert k v).HashedByPaths :=
  hashedByPath_insertEntry hk ht

theorem nodup_keyPaths_insert (ht : t.HashedByPaths) (hk : k.HashedByPath) (h : t.keyPaths.Nodup) :
    (t.insert k v).keyPaths.Nodup := by
  rw [keyPaths, insert]
  by_cases hmem : k.path ∈ t.keyPaths
  · rwa [map_path_insertEntry hk ht hmem]
  · rw [insertEntry_of_notMem hk ht hmem, List.map_append]
    exact h.append (List.nodup_singleton _) (List.disjoint_singleton.mpr hmem)

/-- Of an entry that is there already, a put changes the value and leaves the key. -/
theorem at?_insert (ht : t.HashedByPaths) (hk : k.HashedByPath) : (t.insert k v).at? n =
    if k.path = n then some (((t.at? n).map (·.1)).getD k, v) else t.at? n :=
  find?_insertEntry hk ht

/-! ### Erasing -/

theorem HashedByPaths.erase (ht : t.HashedByPaths) : (t.erase k).HashedByPaths :=
  fun e he => ht e (List.mem_filter.mp he).1

theorem entries_erase (ht : t.HashedByPaths) (hk : k.HashedByPath) :
    (t.erase k).entries = t.entries.filter (·.1.path ≠ k.path) := by
  refine List.filter_congr fun e he => Bool.eq_iff_iff.mpr ?_
  rw [Bool.not_eq_true', ← Bool.not_eq_true, finds_iff hk (ht e he), decide_eq_true_iff]

theorem nodup_keyPaths_erase (h : t.keyPaths.Nodup) : (t.erase k).keyPaths.Nodup :=
  h.sublist (List.filter_sublist.map _)

theorem at?_erase (ht : t.HashedByPaths) (hk : k.HashedByPath) :
    (t.erase k).at? n = if k.path = n then none else t.at? n := by
  rw [at?, entries_erase ht hk, List.find?_filter]
  by_cases hn : k.path = n
  · rw [if_pos hn, List.find?_eq_none]
    intro e _
    simp [hn]
  · rw [if_neg hn]
    refine List.find?_congr fun e _ => ?_
    by_cases he : e.1.path = n <;> simp [he, Ne.symm hn]

end Hashing

/-! ### The map of paths -/

/-- What is asked of a table: a path in one of its spellings, and an action at its key. -/
structure Step (α : Type) where
  style : PathStyle
  raw : Text
  action : Action α

namespace Step

/-- The key that the table is given. -/
def key (s : Step α) : FileId := .ofRaw s.style s.raw

/-- The path that the map is given. -/
def path (s : Step α) : Text := Path.normal s.style s.raw

/-- Puts a value at the path. -/
def puts (n : Text) (s : Step α) : Bool := s.path = n && s.action matches .put _

/-- Erases the entry at the path. -/
def erases (n : Text) (s : Step α) : Bool := s.path = n && s.action matches .erase

/-- The map of paths after a step. -/
def onMap (m : Std.TreeMap Text α) (s : Step α) : Std.TreeMap Text α :=
  match s.action with
  | .put v => m.insert s.path v
  | .erase => m.erase s.path
  | .get | .uri => m

theorem path_key (s : Step α) : s.key.path = s.path := FileId.path_ofRaw s.style s.raw

theorem hashedByPath_key (s : Step α) : s.key.HashedByPath := hashedByPath_ofRaw s.style s.raw

end Step

variable {s : Step α} {h : List (Step α)}

/-- The map of paths after all steps. -/
def mapAfter (h : List (Step α)) : Std.TreeMap Text α := h.foldl Step.onMap ∅

/-- The put that made the entry at a path: the first one since the entry there was last erased. -/
def maker (n : Text) (h : List (Step α)) : Option (Step α) :=
  (h.rtakeWhile (!·.erases n)).find? (·.puts n)

/-- The answer to a step after others: that of the map of paths, and the URI that was computed by
the put which made the entry. -/
def answerAfter (h : List (Step α)) (s : Step α) : Reply α :=
  match s.action with
  | .put _ => .nothing
  | .get | .erase => ((mapAfter h)[s.path]?.map .value).getD .nothing
  | .uri => ((maker s.path h).map fun o => .uri o.key.uri).getD .nothing

theorem mapAfter_concat : mapAfter (h ++ [s]) = s.onMap (mapAfter h) := by
  rw [mapAfter, List.foldl_append]
  rfl

theorem maker_concat : maker n (h ++ [s]) =
    if s.erases n then none else (maker n h).or (if s.puts n then some s else none) := by
  rw [maker, List.rtakeWhile_concat]
  cases s.erases n with
  | true => rfl
  | false =>
    rw [Bool.not_false, if_pos rfl, List.find?_append, List.find?_singleton]
    rfl

/-! ### A table and its map -/

/-- The table that steps lead to: one entry to a path, which is what its key is hashed by, with the
value that the map has there and the key of the put that made it. -/
structure Tracks (t : FileTable α) (h : List (Step α)) : Prop where
  hashed : t.HashedByPaths
  nodup : t.keyPaths.Nodup
  value : ∀ n, (t.at? n).map (·.2) = (mapAfter h)[n]?
  key : ∀ n, (t.at? n).map (·.1) = (maker n h).map Step.key

theorem tracks_nil : Tracks (⟨[]⟩ : FileTable α) [] where
  hashed := List.forall_mem_nil _
  nodup := List.nodup_nil
  value _ := rfl
  key _ := rfl

/-- A step that asks only changes nothing. -/
theorem Tracks.ask (ht : Tracks t h) (hs : s.action = .get ∨ s.action = .uri) :
    Tracks t (h ++ [s]) where
  hashed := ht.hashed
  nodup := ht.nodup
  value n := by
    rw [ht.value n, mapAfter_concat, Step.onMap]
    rcases hs with hs | hs <;> rw [hs]
  key n := by
    rw [ht.key n, maker_concat, Step.erases, Step.puts]
    rcases hs with hs | hs <;> simp [hs]

section Hashing

variable [Hashable Text]

theorem Tracks.put (ht : Tracks t h) (hs : s.action = .put v) :
    Tracks (t.insert s.key v) (h ++ [s]) where
  hashed := ht.hashed.insert s.hashedByPath_key
  nodup := nodup_keyPaths_insert ht.hashed s.hashedByPath_key ht.nodup
  value n := by
    rw [at?_insert ht.hashed s.hashedByPath_key, s.path_key, mapAfter_concat, Step.onMap, hs]
    dsimp only
    rw [Std.TreeMap.getElem?_insert, ← ht.value n]
    by_cases hn : s.path = n <;> simp [hn]
  key n := by
    rw [at?_insert ht.hashed s.hashedByPath_key, s.path_key, maker_concat, Step.erases, Step.puts,
      hs]
    by_cases hn : s.path = n
    · rw [if_pos hn, ht.key n]
      simp [hn]
    · simp [hn, ht.key n]

theorem Tracks.erase (ht : Tracks t h) (hs : s.action = .erase) :
    Tracks (t.erase s.key) (h ++ [s]) where
  hashed := ht.hashed.erase
  nodup := nodup_keyPaths_erase ht.nodup
  value n := by
    rw [at?_erase ht.hashed s.hashedByPath_key, s.path_key, mapAfter_concat, Step.onMap, hs]
    dsimp only
    rw [Std.TreeMap.getElem?_erase, ← ht.value n]
    by_cases hn : s.path = n <;> simp [hn]
  key n := by
    rw [at?_erase ht.hashed s.hashedByPath_key, s.path_key, maker_concat, Step.erases, Step.puts,
      hs]
    by_cases hn : s.path = n <;> simp [hn, ht.key n]

theorem Tracks.act (ht : Tracks t h) (s : Step α) :
    Tracks (t.act s.key s.action).2 (h ++ [s]) := by
  cases hs : s.action with
  | put v => exact ht.put hs
  | get => exact ht.ask (.inl hs)
  | erase => exact ht.erase hs
  | uri => exact ht.ask (.inr hs)

/-- The table answers as its map does. -/
theorem Tracks.reply (ht : Tracks t h) (s : Step α) :
    (t.act s.key s.action).1 = answerAfter h s := by
  have hentry : t.entry? s.key = t.at? s.path := by
    rw [entry?_eq_at? ht.hashed s.hashedByPath_key, s.path_key]
  have hvalue : t.get? s.key = (mapAfter h)[s.path]? := by
    rw [get?, hentry, ht.value]
  have huri : t.uri? s.key = ((maker s.path h).map Step.key).map (·.uri) := by
    rw [← ht.key, Option.map_map, uri?, hentry]
    rfl
  rw [answerAfter]
  cases hs : s.action with
  | put v => rfl
  | get => rw [FileTable.act, hvalue]
  | erase => rw [FileTable.act, hvalue]
  | uri =>
    rw [FileTable.act, huri, Option.map_map, Option.map_map]
    rfl

end Hashing

theorem isLE_or_isLE (a b : Text) : (compare a b).isLE ∨ (compare b a).isLE := by
  by_cases hab : (compare a b).isLE
  · exact .inl hab
  · exact .inr (Ordering.isLE_of_eq_lt (Std.OrientedCmp.lt_of_not_isLE hab))

/-- The keys in order are those of the map. -/
theorem Tracks.paths (ht : Tracks t h) : t.paths = (mapAfter h).keys := by
  have hmem : ∀ n, n ∈ t.keyPaths ↔ n ∈ (mapAfter h).keys := by
    intro n
    rw [← isSome_at?_iff, Std.TreeMap.mem_keys, Std.TreeMap.mem_iff_isSome_getElem?, ← ht.value n,
      Option.isSome_map]
  have hperm : t.paths.Perm (mapAfter h).keys :=
    (List.mergeSort_perm _ _).trans
      ((List.perm_ext_iff_of_nodup ht.nodup Std.TreeMap.nodup_keys).mpr hmem)
  have hsorted : t.paths.Pairwise fun a b => (compare a b).isLE := by
    refine List.pairwise_mergeSort ?_ ?_ _
    · intro a b c
      exact Std.TransOrd.isLE_trans
    · intro a b
      rw [Bool.or_eq_true]
      exact isLE_or_isLE a b
  have hkeys : (mapAfter h).keys.Pairwise fun a b => (compare a b).isLE :=
    (mapAfter h).ordered_keys.imp Ordering.isLE_of_eq_lt
  refine hperm.eq_of_pairwise ?_ hsorted hkeys
  intro a b _ _ hab hba
  exact Std.LawfulEqOrd.eq_of_compare (Std.OrientedCmp.isLE_antisymm hab hba)

/-! ### A run -/

section Hashing

variable [Hashable Text]

/-- The answers to the steps, each with the paths of the keys after it. -/
def runSteps (t : FileTable α) (steps : List (Step α)) : List (Reply α × List Text) :=
  t.run (steps.map fun s => (s.key, s.action))

theorem runSteps_cons (steps : List (Step α)) : t.runSteps (s :: steps) =
    ((t.act s.key s.action).1, (t.act s.key s.action).2.paths) ::
      (t.act s.key s.action).2.runSteps steps :=
  rfl

theorem length_runSteps (steps : List (Step α)) : (t.runSteps steps).length = steps.length := by
  induction steps generalizing t with
  | nil => rfl
  | cons s steps ih => rw [runSteps_cons, List.length_cons, List.length_cons, ih]

/-- What is answered to a step depends on the steps before it, not on those behind. -/
theorem Tracks.getElem?_runSteps (ht : Tracks t h) (before after : List (Step α)) (s : Step α) :
    (t.runSteps (before ++ s :: after))[before.length]? =
      some (answerAfter (h ++ before) s, (mapAfter (h ++ before ++ [s])).keys) := by
  induction before generalizing t h with
  | nil =>
    rw [List.nil_append, runSteps_cons, List.append_nil, ht.reply, (ht.act s).paths]
    rfl
  | cons o before ih =>
    rw [List.cons_append, runSteps_cons, List.length_cons, List.getElem?_cons_succ, ih (ht.act o),
      List.append_assoc h [o] before, List.singleton_append]

end Hashing

/-- Some table tracks any steps, so a path has a put that made its entry if the map holds it. -/
theorem maker_eq_none_iff (n : Text) (h : List (Step α)) : maker n h = none ↔ n ∉ mapAfter h := by
  obtain ⟨t, ht⟩ : ∃ t : FileTable α, t.Tracks h := by
    induction h using List.reverseRecOn with
    | nil => exact ⟨_, tracks_nil⟩
    | append_singleton h s ih =>
      obtain ⟨t, ht⟩ := ih
      exact ⟨_, ht.act s⟩
  have hkey : maker n h = none ↔ t.at? n = none := by
    rw [← Option.map_eq_none_iff, ← ht.key, Option.map_eq_none_iff]
  rw [hkey, Std.TreeMap.mem_iff_isSome_getElem?, ← ht.value, Option.isSome_map,
    Option.not_isSome_iff_eq_none]

/-- However texts are hashed, a table that starts empty answers each step of a run as the map of paths
does that the steps before it lead to, with the map's keys in order after it and no key twice; asked
for a URI, it answers with the one of the put that made the entry, and with none if and only if the
map lacks the path. -/
theorem run_follows_map [Hashable Text] (before after : List (Step α)) (s : Step α) :
    let answers := (⟨[]⟩ : FileTable α).runSteps (before ++ s :: after)
    let keys := (mapAfter (before ++ [s])).keys
    answers.length = (before ++ s :: after).length ∧
      answers[before.length]? = some (answerAfter before s, keys) ∧
      keys.Pairwise (fun a b => compare a b = .lt) ∧ keys.Nodup ∧
      (maker s.path before = none ↔ s.path ∉ mapAfter before) :=
  ⟨length_runSteps _, tracks_nil.getElem?_runSteps before after s, Std.TreeMap.ordered_keys,
    Std.TreeMap.nodup_keys, maker_eq_none_iff _ _⟩

/-- The entry of `a` keeps its URI when it is put again under Windows rules, until it is erased; `b` is
another key, though its hash tells its length only. -/
example :
    letI : Hashable Text := ⟨fun t => t.length.toUInt64⟩
    let steps : List (Step Nat) := [⟨.posix, "a", .put 1⟩, ⟨.windows, "b\\..\\a", .put 2⟩,
      ⟨.posix, "./a", .uri⟩, ⟨.posix, "b", .get⟩, ⟨.posix, "a", .erase⟩, ⟨.windows, "a", .put 3⟩,
      ⟨.posix, "a", .uri⟩]
    (runSteps ⟨[]⟩ steps).map (·.1) = [.nothing, .nothing, .uri (Uri.ofPath .posix "a"),
      .nothing, .value 2, .nothing, .uri (Uri.ofPath .windows "a")] := by
  rfl

end FileTable

end Locus
