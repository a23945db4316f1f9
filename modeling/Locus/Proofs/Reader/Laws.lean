import Locus.Proofs.Reader.Failure

/-!
The laws of joined readers. A reader that follows another runs on all answers of the first before the
next one runs, so however readers are grouped, the answers are the same and in the same order, and
there are none in one grouping exactly if there are none in the other. Which fault is met first may
differ; of readers that never fail the groupings are equal. What is done to the values alone meets no
fault, so it may be moved, and pairs put together from the left are a row.
-/

namespace Locus

variable {α β γ : Type}

theorem collect_ok (h : α → β) (l : List α) : collect (fun a => .ok [h a]) l = .ok (l.map h) := by
  induction l with
  | nil => rfl
  | cons a l ih =>
    rw [collect, ih]
    rfl

theorem collect_map (f : β → Except Fault (List γ)) (h : α → β) (l : List α) :
    collect f (l.map h) = collect (fun a => f (h a)) l := by
  induction l with
  | nil => rfl
  | cons a l ih => rw [List.map_cons, collect, collect, ih]

theorem map_collect (f : α → Except Fault (List β)) (h : β → γ) (l : List α) :
    (collect f l).map (List.map h) = collect (fun a => (f a).map (List.map h)) l := by
  induction l with
  | nil => rfl
  | cons a l ih =>
    rw [collect, collect, ← ih]
    cases f a with
    | error e => rfl
    | ok bs =>
      cases collect f l with
      | error e => rfl
      | ok cs => exact congrArg Except.ok List.map_append

theorem collect_append_eq_ok_iff {f : α → Except Fault (List β)} {l m : List α} {cs : List β} :
    collect f (l ++ m) = .ok cs ↔
      ∃ as, collect f l = .ok as ∧ ∃ bs, collect f m = .ok bs ∧ as ++ bs = cs := by
  induction l generalizing cs with
  | nil => simp [collect]
  | cons a l ih =>
    rw [List.cons_append, collect_cons_eq_ok_iff]
    constructor
    · rintro ⟨b, hb, _, hlm, rfl⟩
      obtain ⟨as, has, bs, hbs, rfl⟩ := ih.mp hlm
      exact ⟨b ++ as, collect_cons_eq_ok_iff.mpr ⟨b, hb, as, has, rfl⟩, bs, hbs,
        List.append_assoc b as bs⟩
    · rintro ⟨_, hal, bs, hbs, rfl⟩
      obtain ⟨b, hb, as, has, rfl⟩ := collect_cons_eq_ok_iff.mp hal
      exact ⟨b, hb, as ++ bs, ih.mpr ⟨as, has, bs, hbs, rfl⟩, (List.append_assoc b as bs).symm⟩

/-- Two rounds over all elements, or both rounds on each element in turn. -/
theorem collect_collect_eq_ok_iff {f : α → Except Fault (List β)} {g : β → Except Fault (List γ)}
    {l : List α} {cs : List γ} : (∃ bs, collect f l = .ok bs ∧ collect g bs = .ok cs) ↔
      collect (fun a => f a >>= collect g) l = .ok cs := by
  induction l generalizing cs with
  | nil => simp [collect]
  | cons a l ih =>
    rw [collect_cons_eq_ok_iff]
    constructor
    · rintro ⟨_, hal, hcs⟩
      obtain ⟨b, hb, bs, hbs, rfl⟩ := collect_cons_eq_ok_iff.mp hal
      obtain ⟨c, hc, ds, hds, rfl⟩ := collect_append_eq_ok_iff.mp hcs
      exact ⟨c, bind_eq_ok_iff.mpr ⟨b, hb, hc⟩, ds, ih.mp ⟨bs, hbs, hds⟩, rfl⟩
    · rintro ⟨c, hac, ds, hds, rfl⟩
      obtain ⟨b, hb, hc⟩ := bind_eq_ok_iff.mp hac
      obtain ⟨bs, hbs, hds⟩ := ih.mpr hds
      exact ⟨b ++ bs, collect_cons_eq_ok_iff.mpr ⟨b, hb, bs, hbs, rfl⟩,
        collect_append_eq_ok_iff.mpr ⟨c, hc, ds, hds, rfl⟩⟩

namespace Reader

variable {p p' q r : Reader α} {f f' : α → Reader β} {g : β → Reader γ}

/-! ### The same answers -/

/-- Both readers give the same answers in the same order, and fail on the same texts. -/
def SameAnswers (p q : Reader α) : Prop := ∀ t as, p.run t = .ok as ↔ q.run t = .ok as

theorem SameAnswers.refl (p : Reader α) : p.SameAnswers p := fun _ _ => Iff.rfl

theorem SameAnswers.symm (h : p.SameAnswers q) : q.SameAnswers p := fun t as => (h t as).symm

theorem SameAnswers.trans (h : p.SameAnswers q) (h' : q.SameAnswers r) : p.SameAnswers r :=
  fun t as => (h t as).trans (h' t as)

theorem SameAnswers.bind (h : p.SameAnswers p') (hf : ∀ a, (f a).SameAnswers (f' a)) :
    (p.bind f).SameAnswers (p'.bind f') := by
  intro t bs
  rw [run_bind_eq_ok_iff, run_bind_eq_ok_iff]
  refine exists_congr fun as => and_congr (h t as) (exists_congr fun k => and_congr_left' ?_)
  exact forall₂_congr fun a _ => hf a.1 a.2 (k a)

theorem map_eq_bind (k : α → β) (p : Reader α) : p.map k = p.bind fun a => unit (k a) := rfl

theorem SameAnswers.map (h : p.SameAnswers p') (k : α → β) :
    (p.map k).SameAnswers (p'.map k) := by
  rw [map_eq_bind, map_eq_bind]
  exact h.bind fun a => .refl (unit (k a))

/-! ### Values -/

theorem run_map (k : α → β) (p : Reader α) (t : Text) :
    (p.map k).run t = (p.run t).map (List.map fun a => (k a.1, a.2)) := by
  change (p.run t >>= collect fun a => .ok [(k a.1, a.2)]) = _
  cases p.run t with
  | error e => rfl
  | ok as => exact collect_ok _ as

theorem map_bind (k : α → β) (p : Reader α) (g : β → Reader γ) :
    (p.map k).bind g = p.bind fun a => g (k a) := by
  funext t
  change ((p.map k).run t >>= collect fun b => (g b.1).run b.2) =
    (p.run t >>= collect fun a => (g (k a.1)).run a.2)
  rw [run_map]
  cases p.run t with
  | error e => rfl
  | ok as => exact collect_map _ _ as

theorem bind_map (p : Reader α) (f : α → Reader β) (k : β → γ) :
    (p.bind f).map k = p.bind fun a => (f a).map k := by
  funext t
  change ((p.bind f).map k).run t = (p.run t >>= collect fun a => ((f a.1).map k).run a.2)
  rw [run_map]
  simp only [run_map]
  change (p.run t >>= collect fun a => (f a.1).run a.2).map _ = _
  cases p.run t with
  | error e => rfl
  | ok as => exact map_collect _ _ as

theorem map_map (k : α → β) (l : β → γ) (p : Reader α) :
    (p.map k).map l = p.map fun a => l (k a) :=
  map_bind k p fun b => unit (l b)

/-! ### Laws -/

theorem unit_bind (a : α) (f : α → Reader β) : (unit a).bind f = f a := by
  funext t
  change collect (fun d : α × Text => (f d.1).run d.2) [(a, t)] = (f a).run t
  rw [collect, collect]
  cases (f a).run t with
  | error e => rfl
  | ok bs => exact congrArg Except.ok (List.append_nil bs)

theorem bind_unit (p : Reader α) : p.bind unit = p := by
  funext t
  change (p.run t >>= collect fun a => .ok [id a]) = p.run t
  cases p.run t with
  | error e => rfl
  | ok as => exact (collect_ok id as).trans (congrArg Except.ok (List.map_id as))

theorem bind_bind (p : Reader α) (f : α → Reader β) (g : β → Reader γ) :
    ((p.bind f).bind g).SameAnswers (p.bind fun a => (f a).bind g) := by
  intro t cs
  have hleft : ((p.bind f).bind g).run t =
      ((p.run t >>= collect fun a => (f a.1).run a.2) >>= collect fun b => (g b.1).run b.2) := rfl
  have hright : (p.bind fun a => (f a).bind g).run t = (p.run t >>=
      collect fun a => (f a.1).run a.2 >>= collect fun b => (g b.1).run b.2) := rfl
  rw [hleft, hright, bind_eq_ok_iff, bind_eq_ok_iff]
  constructor
  · rintro ⟨bs, hbs, hcs⟩
    obtain ⟨as, has, hbs⟩ := bind_eq_ok_iff.mp hbs
    exact ⟨as, has, collect_collect_eq_ok_iff.mp ⟨bs, hbs, hcs⟩⟩
  · rintro ⟨as, has, hcs⟩
    obtain ⟨bs, hbs, hcs⟩ := collect_collect_eq_ok_iff.mpr hcs
    exact ⟨bs, bind_eq_ok_iff.mpr ⟨as, has, hbs⟩, hcs⟩

theorem either_assoc (p q r : Reader α) : (p.either q).either r = p.either (q.either r) := by
  funext t
  simp only [either, run, bind_assoc, pure_bind, List.append_assoc]

theorem either_bind (p q : Reader α) (f : α → Reader β) :
    ((p.either q).bind f).SameAnswers ((p.bind f).either (q.bind f)) := by
  intro t cs
  rw [run, Reader.bind, bind_eq_ok_iff, run_either_eq_ok_iff]
  constructor
  · rintro ⟨_, hpq, hcs⟩
    obtain ⟨as, has, bs, hbs, rfl⟩ := run_either_eq_ok_iff.mp hpq
    obtain ⟨cs, hc, ds, hd, rfl⟩ := collect_append_eq_ok_iff.mp hcs
    exact ⟨cs, bind_eq_ok_iff.mpr ⟨as, has, hc⟩, ds, bind_eq_ok_iff.mpr ⟨bs, hbs, hd⟩, rfl⟩
  · rintro ⟨cs, hpf, ds, hqf, rfl⟩
    obtain ⟨as, has, hc⟩ := bind_eq_ok_iff.mp hpf
    obtain ⟨bs, hbs, hd⟩ := bind_eq_ok_iff.mp hqf
    exact ⟨as ++ bs, run_either_eq_ok_iff.mpr ⟨as, has, bs, hbs, rfl⟩,
      collect_append_eq_ok_iff.mpr ⟨cs, hc, ds, hd, rfl⟩⟩

theorem keepRight_keepLeft (p : Reader α) (q : Reader β) (r : Reader γ) :
    ((p.keepRight q).keepLeft r).SameAnswers (p.keepRight (q.keepLeft r)) :=
  bind_bind p (fun _ => q) fun b => r.map fun _ => b

theorem map_id (p : Reader α) : p.map (fun a => a) = p := by
  rw [map_eq_bind, bind_unit]

theorem unit_map (a : α) (k : α → β) : (unit a).map k = unit (k a) := by
  rw [map_eq_bind, unit_bind]

/-! ### Readers in a row -/

/-- The values of each reader in turn, put together from the right: the answers of the first one, each
with all those of the row behind it. -/
def product : List (Reader α) → Reader (List α)
  | [] => unit []
  | p :: ps => p.bind fun a => (product ps).map fun v => a :: v

/-- One reader more, with its value behind those that are there. -/
def snoc (acc : Reader (List α)) (p : Reader α) : Reader (List α) :=
  acc.bind fun as => p.map fun a => as ++ [a]

theorem inTurn_eq_foldl (ps : List (Reader α)) : inTurn ps = ps.foldl snoc (unit []) := rfl

theorem inTurn_singleton (p : Reader α) : inTurn [p] = p.map fun a => [a] := unit_bind _ _

theorem inTurn_concat (ps : List (Reader α)) (p : Reader α) :
    inTurn (ps ++ [p]) = (inTurn ps).snoc p := by
  rw [inTurn_eq_foldl, List.foldl_append]
  rfl

/-- Pairs put together from the left are a row, once their values are of one type: where `p` stands for
a row, the pair of `p` and `q` stands for the row with `q` behind it. Even their faults are the same. -/
theorem pair_inTurn {k : α → List γ} {ps : List (Reader γ)} (h : p.map k = inTurn ps)
    (q : Reader β) (l : β → γ) :
    ((p.pair q).map fun a => k a.1 ++ [l a.2]) = inTurn (ps ++ [q.map l]) := by
  rw [inTurn_concat, ← h, snoc, map_bind, pair, bind_map]
  simp only [map_map]

theorem product_cons_map (p : Reader α) (ps : List (Reader α)) (k : List α → β) :
    (product (p :: ps)).map k = p.bind fun a => (product ps).map fun v => k (a :: v) := by
  simp only [product, bind_map, map_map]

/-- Readers that follow a row go on from the values that it has kept. -/
theorem foldl_snoc (acc : Reader (List α)) (ps : List (Reader α)) :
    (ps.foldl snoc acc).SameAnswers (acc.bind fun u => (product ps).map fun v => u ++ v) := by
  -- The induction is on the row; what has been kept so far stays open.
  induction ps generalizing acc with
  | nil =>
    simp only [product, unit_map, List.append_nil, bind_unit]
    exact .refl acc
  | cons p ps ih =>
    refine (ih (snoc acc p)).trans ((bind_bind acc _ _).trans ?_)
    refine (SameAnswers.refl acc).bind fun u => ?_
    simp only [map_bind, product_cons_map, List.append_assoc, List.singleton_append]
    exact .refl _

theorem inTurn_product (ps : List (Reader α)) : (inTurn ps).SameAnswers (product ps) := by
  have h := foldl_snoc (unit []) ps
  simp only [unit_bind, List.nil_append, map_id] at h
  exact h

/-- A row may be cut anywhere. -/
theorem inTurn_append (ps qs : List (Reader α)) : (inTurn (ps ++ qs)).SameAnswers
    ((inTurn ps).bind fun u => (inTurn qs).map fun v => u ++ v) := by
  rw [inTurn_eq_foldl, List.foldl_append, ← inTurn_eq_foldl]
  refine (foldl_snoc (inTurn ps) qs).trans ?_
  exact (SameAnswers.refl _).bind fun u => (inTurn_product qs).symm.map _

theorem inTurn_cons (p : Reader α) (ps : List (Reader α)) :
    (inTurn (p :: ps)).SameAnswers (p.bind fun a => (inTurn ps).map fun v => a :: v) := by
  refine (inTurn_product (p :: ps)).trans ?_
  exact (SameAnswers.refl p).bind fun a => (inTurn_product ps).symm.map _

/-- What stands between two readers is the middle one of three in a row. -/
theorem enclosed_inTurn (p q r : Reader α) (d : α) :
    (p.enclosed q r).SameAnswers ((inTurn [p, r, q]).map fun v => v.getD 1 d) := by
  refine (keepRight_keepLeft p r q).trans (SameAnswers.symm ?_)
  refine ((inTurn_product _).map _).trans ?_
  simp only [product_cons_map]
  exact .refl _

/-! ### Readers that never fail -/

/-- Has no fault on any text. -/
def NeverFails (p : Reader α) : Prop := p.FailsOn fun _ => False

/-- Answers on every text, and with `as` of it. -/
def Gives (p : Reader α) (as : Text → List (α × Text)) : Prop := ∀ t, p.run t = .ok (as t)

theorem NeverFails.exists_gives (h : p.NeverFails) : ∃ as, p.Gives as := by
  have hrun : ∀ t, ∃ as, p.run t = .ok as := by
    intro t
    cases hrun : p.run t with
    | ok as => exact ⟨as, rfl⟩
    | error e => exact ((h t).mp ⟨e, hrun⟩).elim
  choose as has using hrun
  exact ⟨as, has⟩

theorem SameAnswers.eq (h : p.SameAnswers q) (hp : p.NeverFails) : p = q := by
  obtain ⟨as, has⟩ := hp.exists_gives
  funext t
  exact (has t).trans ((h t _).mp (has t)).symm

theorem NeverFails.bind (hp : p.NeverFails) (hf : ∀ a, (f a).NeverFails) : (p.bind f).NeverFails :=
  FailsOn.bind_of_never hp hf

theorem NeverFails.map (hp : p.NeverFails) (k : α → β) : (p.map k).NeverFails := FailsOn.map hp k

theorem NeverFails.either (hp : p.NeverFails) (hq : q.NeverFails) : (p.either q).NeverFails :=
  (FailsOn.either hp hq).congr fun _ => or_self_iff

theorem neverFails_inTurn {ps : List (Reader α)} (h : ∀ p ∈ ps, p.NeverFails) :
    (inTurn ps).NeverFails := by
  refine List.foldlRecOn ps snoc (failsOn_unit []) ?_
  intro acc hacc p hp
  exact hacc.bind fun as => (h p hp).map _

theorem Gives.bind {as : Text → List (α × Text)} {bs : α → Text → List (β × Text)}
    (hp : p.Gives as) (hf : ∀ a, (f a).Gives (bs a)) :
    (p.bind f).Gives fun t => (as t).flatMap fun d => bs d.1 d.2 :=
  fun t => run_bind_eq_ok_iff.mpr ⟨as t, hp t, _, fun d _ => hf d.1 d.2, rfl⟩

theorem Gives.map {as : Text → List (α × Text)} (hp : p.Gives as) (k : α → β) :
    (p.map k).Gives fun t => (as t).map fun d => (k d.1, d.2) := by
  have hunit : ∀ a, (unit (k a)).Gives fun t => [(k a, t)] := fun _ _ => rfl
  simp only [List.map_eq_flatMap]
  exact hp.bind hunit

/-- A row of readers that never fail is the product of their answers in order, those of the first
reader outermost, wherever the row is cut: in front of any later reader, or behind the first; so it is
the row put together from the right. -/
theorem inTurn_splits {ps qs : List (Reader α)} (hps : ∀ p ∈ ps, p.NeverFails)
    (hqs : ∀ q ∈ qs, q.NeverFails) : ∃ us vs, (inTurn ps).Gives us ∧ (inTurn qs).Gives vs ∧
      (inTurn (ps ++ qs)).Gives
        (fun t => (us t).flatMap fun d => (vs d.2).map fun e => (d.1 ++ e.1, e.2)) ∧
      (∀ (p : Reader α) (as : Text → List (α × Text)), p.Gives as → (inTurn (p :: qs)).Gives
        fun t => (as t).flatMap fun d => (vs d.2).map fun e => (d.1 :: e.1, e.2)) ∧
      inTurn ps = product ps := by
  obtain ⟨us, hus⟩ := (neverFails_inTurn hps).exists_gives
  obtain ⟨vs, hvs⟩ := (neverFails_inTurn hqs).exists_gives
  refine ⟨us, vs, hus, hvs, ?_, ?_, (inTurn_product ps).eq (neverFails_inTurn hps)⟩
  · intro t
    exact (inTurn_append ps qs t _).mpr ((hus.bind fun u => hvs.map _) t)
  · intro p as has t
    exact (inTurn_cons p qs t _).mpr ((has.bind fun a => hvs.map _) t)

/-- Two of three colons are taken, in every way, and the digits behind them. -/
theorem inTurn_splits_of_colons :
    let colon : Reader Text := upTo ':' none
    let digits : Reader Text := run1 CodePoint.isDigit
    let found : List (List Text × Text) :=
      [(["a", "1"], "2:3"), (["a", "1:2"], "3"), (["a:1", "2"], "3")]
    (∀ p ∈ [colon, colon], p.NeverFails) ∧ (∀ q ∈ [digits], q.NeverFails) ∧
      ∃ us vs, (inTurn [colon, colon]).Gives us ∧ (inTurn [digits]).Gives vs ∧
        us "a:1:2:3" = found ∧ (inTurn [colon, colon, digits]).run "a:1:2:3" =
          .ok ((us "a:1:2:3").flatMap fun d => (vs d.2).map fun e => (d.1 ++ e.1, e.2)) := by
  intro colon digits found
  have hcolon : colon.NeverFails := failsOn_upTo ':' none
  have hdigits : digits.NeverFails := failsOn_run1 CodePoint.isDigit
  have hps : ∀ p ∈ [colon, colon], p.NeverFails := by simp [hcolon]
  have hqs : ∀ q ∈ [digits], q.NeverFails := by simp [hdigits]
  obtain ⟨us, vs, hus, hvs, hsplit, -⟩ := inTurn_splits hps hqs
  refine ⟨hps, hqs, us, vs, hus, hvs, ?_, hsplit "a:1:2:3"⟩
  have hrun : (inTurn [colon, colon]).run "a:1:2:3" = .ok found := by decide +kernel
  exact Except.ok.inj ((hus _).symm.trans hrun)

/-- Readers that never fail may be regrouped: reading nothing changes nothing on either side, what
follows may be put together first, alternatives may be put together in either way and what follows
them put behind each, and a reader between two others is the middle one of three in a row. -/
theorem joined_readers_regroup {p p' p'' : Reader α} {q : Reader β} {r : Reader γ}
    (hp : p.NeverFails) (hp' : p'.NeverFails) (hp'' : p''.NeverFails) (hq : q.NeverFails)
    (hr : r.NeverFails) (hf : ∀ a, (f a).NeverFails) (hg : ∀ b, (g b).NeverFails) (a : α) :
    p.bind unit = p ∧ (unit a).bind f = f a ∧
      (p.bind f).bind g = p.bind (fun a => (f a).bind g) ∧
      (p.either p').either p'' = p.either (p'.either p'') ∧
      (p.either p').bind f = (p.bind f).either (p'.bind f) ∧
      (p.keepRight q).keepLeft r = p.keepRight (q.keepLeft r) ∧
      p.enclosed p' p'' = (inTurn [p, p'', p']).map fun v => v.getD 1 a := by
  refine ⟨bind_unit p, unit_bind a f, ?_, either_assoc p p' p'', ?_, ?_, ?_⟩
  · exact (bind_bind p f g).eq ((hp.bind hf).bind hg)
  · exact (either_bind p p' f).eq ((hp.either hp').bind hf)
  · exact (keepRight_keepLeft p q r).eq ((hp.bind fun _ => hq).bind fun _ => hr.map _)
  · exact (enclosed_inTurn p p' p'' a).eq ((hp.bind fun _ => hp'').bind fun b => hp'.map fun _ => b)

/-- A file is cut off at some colon and read once more behind it, and then cut off again. -/
theorem joined_readers_regroup_of_echo :
    let cut : Reader Text := upTo ':' none
    let again : Text → Reader Text := fun a => inTurn (a.map char)
    cut.NeverFails ∧ (∀ a, (again a).NeverFails) ∧
      (cut.bind again).bind (fun _ => cut) = cut.bind (fun a => (again a).bind fun _ => cut) ∧
      (cut.either cut).bind again = (cut.bind again).either (cut.bind again) ∧
      (cut.keepRight cut).keepLeft cut = cut.keepRight (cut.keepLeft cut) ∧
      cut.enclosed cut cut = (inTurn [cut, cut, cut]).map (fun v => v.getD 1 "") ∧
      ((cut.bind again).bind fun _ => cut).run "a:a:b:a:" =
        .ok [("", "b:a:"), (":b", "a:"), (":b:a", "")] := by
  intro cut again
  have hcut : cut.NeverFails := failsOn_upTo ':' none
  have hagain : ∀ a, (again a).NeverFails := by
    intro a
    refine neverFails_inTurn fun p hp => ?_
    obtain ⟨c, -, rfl⟩ := List.mem_map.mp hp
    exact failsOn_char c
  obtain ⟨-, -, hbind, -, heither, hkeep, henclosed⟩ :=
    joined_readers_regroup hcut hcut hcut hcut hcut hagain (fun _ => hcut) []
  refine ⟨hcut, hagain, hbind, heither, hkeep, henclosed, ?_⟩
  decide +kernel

/-- Where readers fail, the grouping may tell which fault comes first. -/
example :
    let p : Reader Bool := (unit true).either (unit false)
    let f : Bool → Reader Unit := fun b => if b then unit () else fun _ => .error .integerTooLong
    let g : Unit → Reader Unit := fun _ _ => .error (.numeralTooLong 0)
    ((p.bind f).bind g).run [] = .error .integerTooLong ∧
      (p.bind fun b => (f b).bind g).run [] = .error (.numeralTooLong 0) := by
  decide

end Reader

end Locus
