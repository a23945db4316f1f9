import Mathlib.Data.List.TakeWhile
import Locus.Path.Windows

/-!
The drives of Windows paths. A path that opens with two separators has a server and a share for its
drive, and what follows them is empty or opens with a separator; any other drive is a character and a
colon. Where a drive ends is settled by the drive and the separator behind it, so a drive stays the
drive when another path is put behind it.
-/

namespace Locus.Path.Windows

open CodePoint (ofChar)

variable {p q r r' s t server share : Text} {c x : CodePoint} {k : Nat}

/-! ### Separators -/

theorem isSep_iff : isSep c ↔ c = '\\' ∨ c = '/' := by
  simp only [isSep, CodePoint.is, Bool.or_eq_true, decide_eq_true_eq]

theorem isSep_backslash : isSep '\\' := by decide

theorem isRooted_cons (c : CodePoint) (t : Text) : isRooted (c :: t) = isSep c := rfl

theorem backslashed_append (s t : Text) : backslashed (s ++ t) = backslashed s ++ backslashed t :=
  List.map_append

theorem ne_slash_of_mem_backslashed (h : c ∈ backslashed p) : c ≠ '/' := by
  obtain ⟨d, -, rfl⟩ := List.mem_map.mp h
  split
  · decide
  · assumption

theorem backslashed_eq_self (h : ∀ c ∈ p, c ≠ ofChar '/') : backslashed p = p := by
  refine (List.map_congr_left ?_).trans (List.map_id p)
  intro c hc
  rw [if_neg (h c hc), id]

/-- How a code point counts where the two slashes and the cases of a letter count the same. -/
def folded (c : CodePoint) : CodePoint :=
  (if c = '/' then ofChar '\\' else c).toLower

theorem lowered_backslashed (t : Text) : lowered (backslashed t) = t.map folded := List.map_map

theorem ite_slash_eq_backslash_iff : (if c = '/' then ofChar '\\' else c) = '\\' ↔ isSep c := by
  rw [isSep_iff]
  split
  · next h => exact iff_of_true rfl (.inr h)
  · next h => exact (or_iff_left h).symm

/-- Either slash is a separator, whichever is written. -/
theorem isSep_ite_slash (c : CodePoint) : isSep (if c = '/' then ofChar '\\' else c) = isSep c := by
  split
  · next h =>
    rw [h]
    rfl
  · rfl

theorem backslashed_backslashed (p : Text) : backslashed (backslashed p) = backslashed p :=
  backslashed_eq_self fun _ => ne_slash_of_mem_backslashed

/-- No capital has the backslash for its small letter. -/
theorem toLower_eq_backslash_iff : c.toLower = ofChar '\\' ↔ c = '\\' := by
  rw [CodePoint.toLower]
  split
  · next hup =>
    simp only [CodePoint.isBetween, Bool.and_eq_true, decide_eq_true_eq] at hup
    have hA : 'A'.toNat = 0x41 := rfl
    have hZ : 'Z'.toNat = 0x5A := rfl
    refine iff_of_false ?_ ?_
    · intro h
      have hn : c.toNat + 32 = 0x5C := congrArg CodePoint.toNat h
      omega
    · intro h
      have hn : c.toNat = 0x5C := congrArg CodePoint.toNat h
      omega
  · exact Iff.rfl

theorem folded_eq_backslash_iff : folded c = ofChar '\\' ↔ isSep c :=
  toLower_eq_backslash_iff.trans ite_slash_eq_backslash_iff

theorem isSep_eq_false_of_folded {d : CodePoint} (h : folded c = d) (hd : d ≠ '\\') :
    isSep c = false := by
  rw [Bool.eq_false_iff, Ne, ← folded_eq_backslash_iff, h]
  exact hd

/-! ### Server and share -/

theorem takeWhile_eq_of_not_isSep (hs : ∀ c ∈ s, isSep c = false) (hr : r = [] ∨ isRooted r) :
    (s ++ r).takeWhile (!isSep ·) = s ∧ (s ++ r).dropWhile (!isSep ·) = r := by
  have hall : ∀ c ∈ s, (!isSep c) = true := by
    intro c hc
    rw [hs c hc]
    rfl
  have hstop : r.takeWhile (!isSep ·) = [] ∧ r.dropWhile (!isSep ·) = r := by
    rcases hr with rfl | hr
    · exact ⟨rfl, rfl⟩
    · cases r with
      | nil => exact ⟨rfl, rfl⟩
      | cons c r =>
        rw [isRooted_cons] at hr
        have hc : ¬(!isSep c) = true := by
          rw [hr]
          decide
        exact ⟨List.takeWhile_cons_of_neg hc, List.dropWhile_cons_of_neg hc⟩
  rw [List.takeWhile_append_of_pos hall, List.dropWhile_append_of_pos hall, hstop.1, hstop.2,
    List.append_nil]
  exact ⟨rfl, rfl⟩

theorem shareLength_of_not_isSep (h : ∀ c ∈ t, isSep c = false) : shareLength t = t.length := by
  obtain ⟨htake, hdrop⟩ := takeWhile_eq_of_not_isSep h (.inl rfl)
  rw [List.append_nil] at htake hdrop
  rw [shareLength, htake, hdrop]

theorem shareLength_append (hserver : ∀ c ∈ server, isSep c = false) (hx : isSep x)
    (hshare : ∀ c ∈ share, isSep c = false) (hr : r = [] ∨ isRooted r) :
    shareLength (server ++ x :: (share ++ r)) = (server ++ x :: share).length := by
  obtain ⟨htake, hdrop⟩ := takeWhile_eq_of_not_isSep (r := x :: (share ++ r)) hserver (.inr hx)
  rw [shareLength, htake, hdrop]
  dsimp only
  rw [(takeWhile_eq_of_not_isSep hshare hr).1, List.length_append, List.length_cons]
  omega

theorem exists_not_isSep_append (t : Text) :
    ∃ s r, t = s ++ r ∧ (∀ c ∈ s, isSep c = false) ∧ (r = [] ∨ isRooted r) := by
  refine ⟨_, _, (List.takeWhile_append_dropWhile (p := (!isSep ·))).symm, ?_, ?_⟩
  · intro c hc
    have := List.mem_takeWhile_imp hc
    rwa [Bool.not_eq_true'] at this
  · cases hd : t.dropWhile (!isSep ·) with
    | nil => exact .inl rfl
    | cons c r =>
      have hne : t.dropWhile (!isSep ·) ≠ [] := by
        rw [hd]
        exact List.cons_ne_nil c r
      have := List.head_dropWhile_not (!isSep ·) hne
      simp only [hd, List.head_cons, Bool.not_eq_false'] at this
      exact .inr this

/-- A text has no separator, or it is a server, a separator, a share and what follows the share. -/
theorem exists_server_share (t : Text) : (∀ c ∈ t, isSep c = false) ∨
    ∃ server x share r, t = server ++ x :: (share ++ r) ∧ (∀ c ∈ server, isSep c = false) ∧
      isSep x ∧ (∀ c ∈ share, isSep c = false) ∧ (r = [] ∨ isRooted r) := by
  obtain ⟨server, u, rfl, hserver, hu⟩ := exists_not_isSep_append t
  cases u with
  | nil =>
    rw [List.append_nil]
    exact .inl hserver
  | cons x u =>
    obtain ⟨share, r, rfl, hshare, hr⟩ := exists_not_isSep_append u
    refine .inr ⟨server, x, share, r, rfl, hserver, ?_, hshare, hr⟩
    rcases hu with hu | hu
    · cases hu
    · exact hu

theorem drop_shareLength (t : Text) :
    t.drop (shareLength t) = [] ∨ isRooted (t.drop (shareLength t)) := by
  rcases exists_server_share t with h | ⟨server, x, share, r, rfl, hserver, hx, hshare, hr⟩
  · rw [shareLength_of_not_isSep h, List.drop_length]
    exact .inl rfl
  · have hassoc : server ++ x :: (share ++ r) = (server ++ x :: share) ++ r := by
      rw [List.append_assoc, List.cons_append]
    rw [shareLength_append hserver hx hshare hr, hassoc, List.drop_left]
    exact hr

/-- Where server and share end at a separator, they do so whatever comes behind the separator. -/
theorem shareLength_append_rooted (h : shareLength (t ++ x :: r) = t.length) (hx : isSep x)
    (r' : Text) : shareLength (t ++ x :: r') = t.length := by
  rcases exists_server_share (t ++ x :: r) with
    hnone | ⟨server, y, share, u, he, hserver, hy, hshare, hu⟩
  · rw [hnone x (List.mem_append_right t List.mem_cons_self)] at hx
    cases hx
  · rw [he, shareLength_append hserver hy hshare hu] at h
    have hassoc : server ++ y :: (share ++ u) = (server ++ y :: share) ++ u := by
      rw [List.append_assoc, List.cons_append]
    obtain ⟨rfl, -⟩ := List.append_inj (he.trans hassoc) h.symm
    rw [List.append_assoc, List.cons_append]
    exact shareLength_append hserver hy hshare (.inr hx)

/-! ### The lead -/

/-- Two separators come first. -/
def OpensTwice (p : Text) : Prop := ∃ a b t, p = a :: b :: t ∧ isSep a ∧ isSep b

theorem opensTwice_iff : OpensTwice p ↔ backslashed (p.take 2) = "\\\\" := by
  have htwo : Text.ofString "\\\\" = [ofChar '\\', ofChar '\\'] := rfl
  rw [htwo]
  constructor
  · rintro ⟨a, b, t, rfl, ha, hb⟩
    simp only [List.take_succ_cons, List.take_zero, backslashed, List.map_cons, List.map_nil,
      List.cons.injEq, and_true]
    exact ⟨ite_slash_eq_backslash_iff.mpr ha, ite_slash_eq_backslash_iff.mpr hb⟩
  · intro h
    match p with
    | [] => cases h
    | [a] => cases (List.cons.inj h).2
    | a :: b :: t =>
      obtain ⟨ha, h⟩ := List.cons.inj h
      exact ⟨a, b, t, rfl, ite_slash_eq_backslash_iff.mp ha,
        ite_slash_eq_backslash_iff.mp (List.cons.inj h).1⟩

/-- Where slashes are turned round, two separators are two backslashes. -/
theorem opensTwice_iff_backslashes (h : ∀ c ∈ p, c ≠ ofChar '/') : OpensTwice p ↔ "\\\\" <+: p := by
  have htake : backslashed (p.take 2) = p.take 2 :=
    backslashed_eq_self fun c hc => h c (List.mem_of_mem_take hc)
  rw [opensTwice_iff, htake, List.prefix_iff_eq_take]
  exact eq_comm

theorem OpensTwice.append_congr (h : OpensTwice (q ++ r)) (hq : 2 ≤ q.length) (r' : Text) :
    OpensTwice (q ++ r') := by
  match q, hq with
  | a :: b :: q, _ =>
    obtain ⟨a', b', t, he, ha, hb⟩ := h
    obtain ⟨rfl, htail⟩ := List.cons.inj he
    obtain ⟨rfl, -⟩ := List.cons.inj htail
    exact ⟨a, b, q ++ r', rfl, ha, hb⟩

/-- The lead of the long form. -/
def longLead : Text := "\\\\?\\unc\\"

theorem exists_of_longLead (h : (p.take 8).map folded = longLead) :
    ∃ a b c d e f g i t, p = a :: b :: c :: d :: e :: f :: g :: i :: t ∧ isSep a ∧ isSep b ∧
      isSep d ∧ isSep i ∧ ∀ y ∈ [c, e, f, g], isSep y = false := by
  have hlen : 8 ≤ p.length := by
    have := congrArg List.length h
    rw [List.length_map, List.length_take] at this
    have h8 : longLead.length = 8 := rfl
    omega
  match p, hlen with
  | a :: b :: c :: d :: e :: f :: g :: i :: t, _ =>
    have hlead : longLead = [ofChar '\\', ofChar '\\', ofChar '?', ofChar '\\', ofChar 'u', ofChar 'n',
        ofChar 'c', ofChar '\\'] := rfl
    simp only [hlead, List.take_succ_cons, List.take_zero, List.map_cons, List.map_nil,
      List.cons.injEq, folded_eq_backslash_iff] at h
    obtain ⟨ha, hb, hc, hd, he, hf, hg, hi, -⟩ := h
    refine ⟨a, b, c, d, e, f, g, i, t, rfl, ha, hb, hd, hi, ?_⟩
    simp only [List.mem_cons, List.not_mem_nil, or_false, forall_eq_or_imp, forall_eq]
    exact ⟨isSep_eq_false_of_folded hc (by decide), isSep_eq_false_of_folded he (by decide),
      isSep_eq_false_of_folded hf (by decide), isSep_eq_false_of_folded hg (by decide)⟩

/-- In the long form a server `?` and a share of three letters can be read after two separators. -/
theorem shareLength_of_longLead (h : (p.take 8).map folded = longLead) :
    shareLength (p.drop 2) = 5 := by
  obtain ⟨a, b, c, d, e, f, g, i, t, rfl, -, -, hd, hi, hnone⟩ := exists_of_longLead h
  have hserver : ∀ y ∈ [c], isSep y = false := by
    intro y hy
    exact hnone y (List.mem_cons.mpr (.inl (List.mem_singleton.mp hy)))
  have hshare : ∀ y ∈ [e, f, g], isSep y = false := by
    intro y hy
    exact hnone y (List.mem_cons_of_mem c hy)
  exact shareLength_append (r := i :: t) hserver hd hshare (.inr hi)

theorem leadLength?_cases (p : Text) :
    ((p.take 8).map folded = longLead ∧ OpensTwice p ∧ leadLength? p = some 8) ∨
      (OpensTwice p ∧ leadLength? p = some 2) ∨ (¬OpensTwice p ∧ leadLength? p = none) := by
  rw [leadLength?, lowered_backslashed]
  split
  · next h =>
    obtain ⟨a, b, c, d, e, f, g, i, t, rfl, ha, hb, -⟩ := exists_of_longLead h
    exact .inl ⟨h, ⟨a, b, _, rfl, ha, hb⟩, rfl⟩
  · split
    · next h => exact .inr (.inl ⟨opensTwice_iff.mpr h, rfl⟩)
    · next h => exact .inr (.inr ⟨mt opensTwice_iff.mp h, rfl⟩)

theorem leadLength?_congr {p' : Text} (h : p.take 8 = p'.take 8) :
    leadLength? p = leadLength? p' := by
  have htwo : p.take 2 = p'.take 2 := by
    have := congrArg (List.take 2) h
    rwa [List.take_take, List.take_take] at this
  rw [leadLength?, h, htwo, leadLength?]

/-! ### The drive -/

theorem cutDrive_eq (p : Text) : cutDrive p = (p.take (driveLength p), p.drop (driveLength p)) :=
  List.splitAt_eq

theorem append_of_cutDrive (h : cutDrive p = (q, r)) : p = q ++ r := by
  rw [cutDrive_eq] at h
  obtain ⟨rfl, rfl⟩ := Prod.mk.inj h
  exact (List.take_append_drop _ p).symm

theorem driveLength_of_leadLength? (h : leadLength? p = some k) :
    driveLength p = k + shareLength (p.drop k) := by
  rw [driveLength, h]

theorem exists_leadLength? (h : OpensTwice p) : ∃ k, leadLength? p = some k := by
  rcases leadLength?_cases p with ⟨-, -, hk⟩ | ⟨-, hk⟩ | ⟨hn, -⟩
  · exact ⟨8, hk⟩
  · exact ⟨2, hk⟩
  · exact absurd h hn

theorem leadLength?_eq_two_or_eight (h : leadLength? p = some k) : k = 2 ∨ k = 8 := by
  rcases leadLength?_cases p with ⟨-, -, hk⟩ | ⟨-, hk⟩ | ⟨-, hk⟩ <;> rw [hk] at h <;> cases h
  · exact .inr rfl
  · exact .inl rfl

theorem leadLength?_eq_none (h : ¬OpensTwice p) : leadLength? p = none := by
  rcases leadLength?_cases p with ⟨-, ht, -⟩ | ⟨ht, -⟩ | ⟨-, hk⟩
  · exact absurd ht h
  · exact absurd ht h
  · exact hk

/-- Behind server and share the path ends or a separator stands; any other drive is a character and
a colon, or there is none. -/
theorem cutDrive_cases (h : cutDrive p = (q, r)) :
    (OpensTwice p ∧ (r = [] ∨ isRooted r)) ∨
      (¬OpensTwice p ∧ (q = [] ∨ ∃ c, q = [c, ofChar ':'])) := by
  rw [cutDrive_eq] at h
  obtain ⟨rfl, rfl⟩ := Prod.mk.inj h
  by_cases ht : OpensTwice p
  · obtain ⟨k, hk⟩ := exists_leadLength? ht
    refine .inl ⟨ht, ?_⟩
    rw [driveLength_of_leadLength? hk, ← List.drop_drop]
    exact drop_shareLength (p.drop k)
  · refine .inr ⟨ht, ?_⟩
    rw [driveLength, leadLength?_eq_none ht]
    dsimp only
    split
    · next hcolon =>
      match p with
      | [] => cases hcolon
      | [c] => cases hcolon
      | c :: d :: p =>
        have hd : d = ofChar ':' := decide_eq_true_eq.mp hcolon
        exact .inr ⟨c, by rw [hd]; rfl⟩
    · exact .inl rfl

theorem cutDrive_of_driveLength (h : driveLength (q ++ r) = q.length) :
    cutDrive (q ++ r) = (q, r) := by
  rw [cutDrive_eq, h, List.take_left, List.drop_left]

theorem driveLength_of_cutDrive (h : cutDrive (q ++ x :: r) = (q, x :: r)) :
    driveLength (q ++ x :: r) = q.length := by
  rw [cutDrive_eq] at h
  have := congrArg List.length (Prod.mk.inj h).2
  rw [List.length_drop, List.length_append, List.length_cons] at this
  omega

/-! ### A drive and what is put behind it -/

theorem shareLength_drop_append_rooted (h : k + shareLength ((q ++ x :: r).drop k) = q.length)
    (hx : isSep x) (r' : Text) : k + shareLength ((q ++ x :: r').drop k) = q.length := by
  have hkq : k ≤ q.length := by omega
  rw [List.drop_append_of_le_length hkq] at h ⊢
  have hshare : shareLength (q.drop k ++ x :: r) = (q.drop k).length := by
    rw [List.length_drop]
    omega
  rw [shareLength_append_rooted hshare hx, List.length_drop]
  omega

theorem take_append_rooted {n : Nat} (h : n ≤ q.length + 1) (r : Text) :
    (q ++ x :: r).take n = (q ++ [x]).take n := by
  have hassoc : q ++ x :: r = (q ++ [x]) ++ r := by rw [List.append_assoc, List.singleton_append]
  have hle : n ≤ (q ++ [x]).length := by rwa [List.length_append, List.length_singleton]
  rw [hassoc, List.take_append_of_le_length hle]

/-- The lead of a path can be told from its drive and the separator behind that. -/
theorem leadLength?_append_rooted (ht : OpensTwice (q ++ x :: r))
    (hk : leadLength? (q ++ x :: r) = some k)
    (hlen : k + shareLength ((q ++ x :: r).drop k) = q.length) (hx : isSep x) (r' : Text) :
    leadLength? (q ++ x :: r') = some k := by
  by_cases hq : 7 ≤ q.length
  · rw [← hk]
    refine leadLength?_congr ?_
    rw [take_append_rooted (Nat.succ_le_succ hq) r', take_append_rooted (Nat.succ_le_succ hq) r]
  · -- the drive is too short for the long form, whose server and share take five places
    obtain rfl : k = 2 := by
      have := leadLength?_eq_two_or_eight hk
      omega
    rcases leadLength?_cases (q ++ x :: r') with ⟨hlong, -, -⟩ | ⟨-, h2⟩ | ⟨hn, -⟩
    · have := shareLength_drop_append_rooted hlen hx r'
      rw [shareLength_of_longLead hlong] at this
      omega
    · exact h2
    · exact absurd (ht.append_congr (by omega) (x :: r')) hn

/-- A server and share end at the separator behind them, whatever comes after it. -/
theorem cutDrive_append_rooted (ht : OpensTwice (q ++ x :: r))
    (h : cutDrive (q ++ x :: r) = (q, x :: r)) (hx : isSep x) (r' : Text) :
    cutDrive (q ++ x :: r') = (q, x :: r') := by
  obtain ⟨k, hk⟩ := exists_leadLength? ht
  have hlen := driveLength_of_cutDrive h
  rw [driveLength_of_leadLength? hk] at hlen
  refine cutDrive_of_driveLength ?_
  rw [driveLength_of_leadLength? (leadLength?_append_rooted ht hk hlen hx r'),
    shareLength_drop_append_rooted hlen hx]

/-- A drive that is a server and a share has the two separators in it. -/
theorem opensTwice_of_cutDrive (ht : OpensTwice p) (h : cutDrive p = (q, r)) : OpensTwice q := by
  have hp := append_of_cutDrive h
  rw [cutDrive_eq] at h
  obtain ⟨k, hk⟩ := exists_leadLength? ht
  have hlead := leadLength?_eq_two_or_eight hk
  have hlen : q.length = min (driveLength p) p.length := by
    rw [← (Prod.mk.inj h).1, List.length_take]
  have htwo : 2 ≤ p.length := by
    obtain ⟨a, b, t, rfl, -⟩ := ht
    simp
  rw [driveLength_of_leadLength? hk] at hlen
  rw [hp] at ht
  have hq := ht.append_congr (by omega) []
  rwa [List.append_nil] at hq

/-! ### Slashes turned round -/

theorem shareLength_backslashed (t : Text) : shareLength (backslashed t) = shareLength t := by
  have hsep : ((!isSep ·) ∘ fun c : CodePoint => if c = '/' then ofChar '\\' else c) =
      (!isSep ·) := by
    funext c
    exact congrArg Bool.not (isSep_ite_slash c)
  have htake : ∀ t, ((backslashed t).takeWhile (!isSep ·)).length =
      (t.takeWhile (!isSep ·)).length := by
    intro t
    rw [backslashed, List.takeWhile_map, hsep, List.length_map]
  have hdrop : (backslashed t).dropWhile (!isSep ·) = backslashed (t.dropWhile (!isSep ·)) := by
    rw [backslashed, List.dropWhile_map, hsep, backslashed]
  rw [shareLength, shareLength, hdrop]
  cases t.dropWhile (!isSep ·) with
  | nil => exact htake t
  | cons c r =>
    change ((backslashed t).takeWhile (!isSep ·)).length + 1 +
      ((backslashed r).takeWhile (!isSep ·)).length = _
    rw [htake, htake]

theorem leadLength?_backslashed (p : Text) : leadLength? (backslashed p) = leadLength? p := by
  have htake : ∀ n, backslashed ((backslashed p).take n) = backslashed (p.take n) := by
    intro n
    rw [backslashed, backslashed, ← List.map_take]
    exact backslashed_backslashed (p.take n)
  rw [leadLength?, leadLength?, htake, htake]

theorem driveLength_backslashed (p : Text) : driveLength (backslashed p) = driveLength p := by
  rw [driveLength, driveLength, leadLength?_backslashed]
  cases leadLength? p with
  | some k =>
    dsimp only
    rw [show (backslashed p).drop k = backslashed (p.drop k) from List.map_drop.symm,
      shareLength_backslashed]
  | none =>
    have hcolon : ∀ c : CodePoint, CodePoint.is ':' (if c = '/' then ofChar '\\' else c) =
        CodePoint.is ':' c := by
      intro c
      split
      · next h =>
        rw [h]
        rfl
      · rfl
    have hany : (backslashed p)[1]?.any (CodePoint.is ':') = p[1]?.any (CodePoint.is ':') := by
      rw [backslashed, List.getElem?_map]
      cases p[1]? with
      | none => rfl
      | some c => exact hcolon c
    dsimp only
    rw [hany]

/-- The drive ends at the same place, whichever of the slashes are written. -/
theorem cutDrive_backslashed (h : cutDrive p = (q, r)) :
    cutDrive (backslashed p) = (backslashed q, backslashed r) := by
  rw [cutDrive_eq] at h ⊢
  obtain ⟨rfl, rfl⟩ := Prod.mk.inj h
  rw [driveLength_backslashed]
  exact Prod.ext List.map_take.symm List.map_drop.symm

theorem cutDrive_colon (c : CodePoint) (t : Text) :
    cutDrive ([c, ofChar ':'] ++ t) = ([c, ofChar ':'], t) := by
  have hn : ¬OpensTwice ([c, ofChar ':'] ++ t) := by
    rintro ⟨a, b, u, he, -, hb⟩
    obtain ⟨rfl, -⟩ := List.cons.inj (List.cons.inj he).2
    exact absurd hb (by decide)
  refine cutDrive_of_driveLength ?_
  rw [driveLength, leadLength?_eq_none hn]
  rfl

end Locus.Path.Windows
