import Locus.Reader.Basic

/-!
What comes of a reader: answers or a fault. Readers that are joined answer exactly when their parts
do, each on what the one before it left over, and a fault of the whole is the fault of a part. So
what is left over is an end of the text, and a fault has its cause in the text, if this holds of the
parts.
-/

namespace Locus

variable {α β : Type}

/-! ### Results and faults -/

section
variable {x : Except Fault α} {e : Fault} {b : β}

theorem bind_eq_ok_iff {f : α → Except Fault β} :
    (x >>= f) = .ok b ↔ ∃ a, x = .ok a ∧ f a = .ok b := by
  cases x <;> simp [bind, Except.bind]

theorem bind_eq_error_iff {f : α → Except Fault β} :
    (x >>= f) = .error e ↔ x = .error e ∨ ∃ a, x = .ok a ∧ f a = .error e := by
  cases x <;> simp [bind, Except.bind]

theorem map_eq_ok_iff {f : α → β} : x.map f = .ok b ↔ ∃ a, x = .ok a ∧ f a = b := by
  cases x <;> simp [Except.map]

theorem map_eq_error_iff {f : α → β} : x.map f = .error e ↔ x = .error e := by
  cases x <;> simp [Except.map]

end

/-! ### Answers in a row -/

section
variable {f : α → Except Fault (List β)} {a : α} {l : List α}

theorem collect_cons_eq_ok_iff {bs : List β} : collect f (a :: l) = .ok bs ↔
    ∃ b, f a = .ok b ∧ ∃ cs, collect f l = .ok cs ∧ b ++ cs = bs := by
  simp only [collect, bind_eq_ok_iff, pure, Except.pure, Except.ok.injEq]

/-- The answers are those to each element, and there are none if one element has a fault. -/
theorem collect_eq_ok_iff {bs : List β} :
    collect f l = .ok bs ↔ ∃ g : α → List β, (∀ a ∈ l, f a = .ok (g a)) ∧ bs = l.flatMap g := by
  constructor
  · intro h
    refine ⟨fun a => (f a).toOption.getD [], ?_⟩
    induction l generalizing bs with
    | nil =>
      cases h
      exact ⟨List.forall_mem_nil _, rfl⟩
    | cons a l ih =>
      obtain ⟨b, hb, cs, hc, rfl⟩ := collect_cons_eq_ok_iff.mp h
      obtain ⟨hall, rfl⟩ := ih hc
      refine ⟨List.forall_mem_cons.mpr ⟨?_, hall⟩, ?_⟩
      · dsimp only
        rw [hb]
        rfl
      · rw [List.flatMap_cons, hb]
        rfl
  · rintro ⟨g, hall, rfl⟩
    induction l with
    | nil => rfl
    | cons a l ih =>
      exact collect_cons_eq_ok_iff.mpr ⟨_, hall a List.mem_cons_self, _,
        ih fun b hb => hall b (List.mem_cons_of_mem a hb), rfl⟩

theorem of_collect_eq_error {e : Fault} (h : collect f l = .error e) :
    ∃ a ∈ l, f a = .error e := by
  induction l with
  | nil => cases h
  | cons a l ih =>
    rw [collect, bind_eq_error_iff] at h
    rcases h with h | ⟨b, -, h⟩
    · exact ⟨a, List.mem_cons_self, h⟩
    rw [bind_eq_error_iff] at h
    rcases h with h | ⟨cs, -, h⟩
    · obtain ⟨c, hc, he⟩ := ih h
      exact ⟨c, List.mem_cons_of_mem a hc, he⟩
    · cases h

theorem exists_collect_eq_error {e : Fault} (ha : a ∈ l) (h : f a = .error e) :
    ∃ e', collect f l = .error e' := by
  cases hc : collect f l with
  | error e' => exact ⟨e', rfl⟩
  | ok bs =>
    obtain ⟨g, hall, -⟩ := collect_eq_ok_iff.mp hc
    have hok := hall a ha
    rw [h] at hok
    cases hok

end

namespace Reader

variable {p q : Reader α} {f : α → Reader β} {t : Text} {e : Fault}

theorem tryMap_eq_bind (g : α → Except Fault β) (p : Reader α) :
    p.tryMap g = p.bind fun a rest => (g a).map fun b => [(b, rest)] := rfl

theorem run_bind_eq_ok_iff {bs : List (β × Text)} : (p.bind f).run t = .ok bs ↔
    ∃ as, p.run t = .ok as ∧ ∃ g : α × Text → List (β × Text),
      (∀ a ∈ as, (f a.1).run a.2 = .ok (g a)) ∧ bs = as.flatMap g := by
  rw [run, bind, bind_eq_ok_iff]
  exact exists_congr fun as => and_congr_right fun _ => collect_eq_ok_iff

theorem run_either_eq_ok_iff {cs : List (α × Text)} : (p.either q).run t = .ok cs ↔
    ∃ as, p.run t = .ok as ∧ ∃ bs, q.run t = .ok bs ∧ as ++ bs = cs := by
  simp only [run, either, bind_eq_ok_iff, pure, Except.pure, Except.ok.injEq]

theorem of_run_bind_eq_error (h : (p.bind f).run t = .error e) : p.run t = .error e ∨
    ∃ as, p.run t = .ok as ∧ ∃ a ∈ as, (f a.1).run a.2 = .error e := by
  rw [run, bind, bind_eq_error_iff] at h
  rcases h with h | ⟨as, has, h⟩
  · exact .inl h
  · exact .inr ⟨as, has, of_collect_eq_error h⟩

theorem of_run_either_eq_error (h : (p.either q).run t = .error e) :
    p.run t = .error e ∨ q.run t = .error e := by
  rw [run, either, bind_eq_error_iff] at h
  rcases h with h | ⟨as, -, h⟩
  · exact .inl h
  rw [bind_eq_error_iff] at h
  rcases h with h | ⟨bs, -, h⟩
  · exact .inr h
  · cases h

/-! ### Texts without answers -/

/-- The reader has a fault on the text. -/
def Fails (p : Reader α) (t : Text) : Prop := ∃ e, p.run t = .error e

theorem Fails.bind (h : p.Fails t) (f : α → Reader β) : (p.bind f).Fails t := by
  obtain ⟨e, he⟩ := h
  refine ⟨e, ?_⟩
  rw [run, Reader.bind, he]
  rfl

/-- A fault behind one answer ends everything. -/
theorem fails_bind_of_mem {as : List (α × Text)} {a : α × Text} (hp : p.run t = .ok as)
    (ha : a ∈ as) (h : (f a.1).Fails a.2) : (p.bind f).Fails t := by
  obtain ⟨e, he⟩ := h
  obtain ⟨e', he'⟩ := exists_collect_eq_error (f := fun a : α × Text => (f a.1).run a.2) ha he
  refine ⟨e', ?_⟩
  rw [run, Reader.bind, hp]
  exact he'

theorem fails_tryMap_of_mem {g : α → Except Fault β} {as : List (α × Text)} {a : α × Text}
    (hp : p.run t = .ok as) (ha : a ∈ as) (h : g a.1 = .error e) : (p.tryMap g).Fails t := by
  rw [tryMap_eq_bind]
  exact fails_bind_of_mem hp ha ⟨e, map_eq_error_iff.mpr h⟩

theorem Fails.map (h : p.Fails t) (g : α → β) : (p.map g).Fails t := by
  rw [Reader.map, tryMap_eq_bind]
  exact h.bind _

theorem Fails.pair (h : p.Fails t) (r : Reader β) : (p.pair r).Fails t := h.bind _

theorem Fails.keepLeft (h : p.Fails t) (r : Reader β) : (p.keepLeft r).Fails t := h.bind _

theorem fails_pair_of_mem {r : Reader β} {as : List (α × Text)} {a : α × Text}
    (hp : p.run t = .ok as) (ha : a ∈ as) (h : r.Fails a.2) : (p.pair r).Fails t :=
  fails_bind_of_mem hp ha (h.map _)

theorem Fails.either (h : p.Fails t) (q : Reader α) : (p.either q).Fails t := by
  obtain ⟨e, he⟩ := h
  refine ⟨e, ?_⟩
  rw [run, Reader.either, he]
  rfl

theorem Fails.either_right (h : q.Fails t) (p : Reader α) : (p.either q).Fails t := by
  obtain ⟨e, he⟩ := h
  cases hp : p.run t with
  | error e' => exact Fails.either ⟨e', hp⟩ q
  | ok as =>
    refine ⟨e, ?_⟩
    rw [run, Reader.either, hp, he]
    rfl

/-! ### What is left over, and where faults come from -/

variable {cause : Text → Fault → Prop}

/-- What causes a fault at the end of a text causes it in the text. -/
def Inherited (cause : Text → Fault → Prop) : Prop :=
  ∀ ⦃s t : Text⦄ ⦃e : Fault⦄, s <:+ t → cause s e → cause t e

/-- What is left over is an end of the text, and each fault has its cause in the text. -/
structure Tame (cause : Text → Fault → Prop) (p : Reader α) : Prop where
  suffix : ∀ {t as}, p.run t = .ok as → ∀ a ∈ as, a.2 <:+ t
  cause_of_error : ∀ {t e}, p.run t = .error e → cause t e

theorem tame_unit (a : α) : Tame cause (unit a) where
  suffix h b hb := by
    cases h
    obtain rfl := List.mem_singleton.mp hb
    exact List.suffix_refl _
  cause_of_error h := nomatch h

theorem Tame.bind (hc : Inherited cause) (hp : Tame cause p) (hf : ∀ a, Tame cause (f a)) :
    Tame cause (p.bind f) where
  suffix h b hb := by
    obtain ⟨as, has, g, hg, rfl⟩ := run_bind_eq_ok_iff.mp h
    obtain ⟨a, ha, hb⟩ := List.mem_flatMap.mp hb
    exact ((hf a.1).suffix (hg a ha) b hb).trans (hp.suffix has a ha)
  cause_of_error h := by
    rcases of_run_bind_eq_error h with h | ⟨as, has, a, ha, h⟩
    · exact hp.cause_of_error h
    · exact hc (hp.suffix has a ha) ((hf a.1).cause_of_error h)

theorem Tame.tryMap {g : α → Except Fault β} (hp : Tame cause p)
    (hg : ∀ {t as}, p.run t = .ok as → ∀ a ∈ as, ∀ e, g a.1 = .error e → cause t e) :
    Tame cause (p.tryMap g) where
  suffix h b hb := by
    rw [tryMap_eq_bind] at h
    obtain ⟨as, has, k, hk, rfl⟩ := run_bind_eq_ok_iff.mp h
    obtain ⟨a, ha, hb⟩ := List.mem_flatMap.mp hb
    obtain ⟨c, -, hc⟩ := map_eq_ok_iff.mp (hk a ha)
    rw [← hc] at hb
    obtain rfl := List.mem_singleton.mp hb
    exact hp.suffix has a ha
  cause_of_error h := by
    rw [tryMap_eq_bind] at h
    rcases of_run_bind_eq_error h with h | ⟨as, has, a, ha, h⟩
    · exact hp.cause_of_error h
    · exact hg has a ha _ (map_eq_error_iff.mp h)

theorem Tame.map (hp : Tame cause p) (g : α → β) : Tame cause (p.map g) :=
  hp.tryMap fun _ _ _ _ h => nomatch h

theorem Tame.either (hp : Tame cause p) (hq : Tame cause q) : Tame cause (p.either q) where
  suffix h a ha := by
    obtain ⟨as, has, bs, hbs, rfl⟩ := run_either_eq_ok_iff.mp h
    rcases List.mem_append.mp ha with ha | ha
    · exact hp.suffix has a ha
    · exact hq.suffix hbs a ha
  cause_of_error h := by
    rcases of_run_either_eq_error h with h | h
    · exact hp.cause_of_error h
    · exact hq.cause_of_error h

theorem Tame.optional (hp : Tame cause p) (a : α) : Tame cause (p.optional a) :=
  hp.either (tame_unit a)

theorem tame_satisfy (f : CodePoint → Bool) : Tame cause (satisfy f) where
  suffix {t as} h a ha := by
    cases t with
    | nil =>
      cases h
      cases ha
    | cons c t =>
      cases h
      split at ha
      · rw [List.mem_singleton.mp ha]
        exact List.suffix_cons c t
      · cases ha
  cause_of_error {t e} h := by cases t <;> cases h

theorem run_run1 (f : CodePoint → Bool) (t : Text) : (run1 f).run t =
    .ok (if t.takeWhile f = [] then [] else [(t.takeWhile f, t.dropWhile f)]) := by
  rw [run, run1]
  split
  · next h => rw [if_pos h]
  · next h => rw [if_neg h]

theorem tame_run1 (f : CodePoint → Bool) : Tame cause (run1 f) where
  suffix {t as} h a ha := by
    rw [run_run1] at h
    cases h
    split at ha
    · cases ha
    · rw [List.mem_singleton.mp ha]
      exact List.dropWhile_suffix f
  cause_of_error {t e} h := by
    rw [run_run1] at h
    cases h

theorem cuts_suffix {sep : CodePoint} {follow : Option (CodePoint → Bool)} {t : Text}
    {d : Text × Text} (h : d ∈ cuts sep follow t) : d.2 <:+ t := by
  induction t generalizing d with
  | nil => cases h
  | cons c t ih =>
    have hlater : d ∈ (cuts sep follow t).map (fun d => (c :: d.1, d.2)) → d.2 <:+ c :: t := by
      intro h
      obtain ⟨d', hd', rfl⟩ := List.mem_map.mp h
      exact (ih hd').trans (List.suffix_cons c t)
    rw [cuts] at h
    split at h
    · rcases List.mem_cons.mp h with rfl | h
      · exact List.suffix_cons c t
      · exact hlater h
    · exact hlater h

theorem tame_upTo (sep : CodePoint) (follow : Option (CodePoint → Bool)) :
    Tame cause (upTo sep follow) where
  suffix h a ha := by
    cases h
    exact cuts_suffix ha
  cause_of_error h := nomatch h

section
variable {r : Reader β}

theorem Tame.pair (hc : Inherited cause) (hp : Tame cause p) (hr : Tame cause r) :
    Tame cause (p.pair r) :=
  hp.bind hc fun _ => hr.map _

theorem Tame.keepLeft (hc : Inherited cause) (hp : Tame cause p) (hr : Tame cause r) :
    Tame cause (p.keepLeft r) :=
  hp.bind hc fun _ => hr.map _

theorem Tame.keepRight (hc : Inherited cause) (hp : Tame cause p) (hr : Tame cause r) :
    Tame cause (p.keepRight r) :=
  hp.bind hc fun _ => hr

end

end Reader

end Locus
