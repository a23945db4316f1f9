import Mathlib.Data.List.Induction
import Mathlib.Data.List.TakeWhile
import Mathlib.Data.Nat.Digits.Defs
import Locus.Text.Decimal

/-!
Runs of digits and the numbers they denote. A text that starts with a numeral starts with just one,
since a numeral takes in every digit that follows; printing and reading are inverse within limits.
-/

namespace Locus

namespace Text

/-- No run of digits in the text is longer than `limit`. -/
def DigitRunsWithin (limit : Nat) (t : Text) : Prop :=
  ∀ run, run <:+: t → (∀ c ∈ run, c.isDigit) → run.length ≤ limit

variable {limit : Nat} {s t : Text}

theorem DigitRunsWithin.of_infix (h : DigitRunsWithin limit t) (hs : s <:+: t) :
    DigitRunsWithin limit s :=
  fun run hr => h run (hr.trans hs)

theorem digitRunsWithin_of_length_le (h : t.length ≤ limit) : DigitRunsWithin limit t :=
  fun _ hr _ => hr.length_le.trans h

/-- A code point that is no digit keeps the runs before it and behind it apart. -/
theorem DigitRunsWithin.append_cons {c : CodePoint} (hc : ¬c.isDigit) (hs : DigitRunsWithin limit s)
    (ht : DigitRunsWithin limit t) : DigitRunsWithin limit (s ++ c :: t) := by
  -- a run of digits that starts a text which `c` opens is empty
  have hstop : ∀ run : Text, run <+: c :: t → (∀ d ∈ run, d.isDigit) → run = [] := by
    intro run hr hd
    cases run with
    | nil => rfl
    | cons d run =>
      have hdc : d = c := (List.cons_prefix_cons.mp hr).1
      exact absurd (hdc ▸ hd d List.mem_cons_self) hc
  intro run hr hd
  rcases List.infix_append_iff.mp hr with h | h | ⟨left, right, rfl, hl, hr⟩
  · exact hs run h hd
  · rcases List.infix_cons_iff.mp h with h | h
    · rw [hstop run h hd]
      exact Nat.zero_le _
    · exact ht run h hd
  · have hright : right = [] := hstop right hr fun d h => hd d (List.mem_append_right _ h)
    subst hright
    rw [List.append_nil] at hd ⊢
    exact hs left hl.isInfix hd

end Text

namespace Decimal

/-! ### Numerals in a text -/

/-- A run of digits that no further digit follows. -/
structure IsNumeral (ds rest : Text) : Prop where
  ne_nil : ds ≠ []
  digits : ∀ c ∈ ds, c.isDigit
  ends : ∀ c ∈ rest.head?, ¬c.isDigit

/-- The longest run of digits is the only numeral with which a text starts. -/
theorem isNumeral_iff {ds rest t : Text} :
    t = ds ++ rest ∧ IsNumeral ds rest ↔
      ds ≠ [] ∧ t.takeWhile CodePoint.isDigit = ds ∧ t.dropWhile CodePoint.isDigit = rest := by
  constructor
  · rintro ⟨rfl, hne, hd, he⟩
    have hstop : rest.takeWhile CodePoint.isDigit = [] ∧
        rest.dropWhile CodePoint.isDigit = rest := by
      cases rest with
      | nil => exact ⟨rfl, rfl⟩
      | cons c rest =>
        have hc : ¬c.isDigit := he c rfl
        exact ⟨List.takeWhile_cons_of_neg hc, List.dropWhile_cons_of_neg hc⟩
    rw [List.takeWhile_append_of_pos hd, List.dropWhile_append_of_pos hd, hstop.1, hstop.2,
      List.append_nil]
    exact ⟨hne, rfl, rfl⟩
  · rintro ⟨hne, rfl, rfl⟩
    refine ⟨List.takeWhile_append_dropWhile.symm, hne, fun c hc => List.mem_takeWhile_imp hc, ?_⟩
    intro c hc
    have := List.head?_dropWhile_not CodePoint.isDigit t
    rw [Option.mem_def.mp hc] at this
    simpa using this

theorem IsNumeral.append_inj {ds es s t : Text} (hd : IsNumeral ds s) (he : IsNumeral es t)
    (h : ds ++ s = es ++ t) : ds = es ∧ s = t := by
  obtain ⟨-, hds, hs⟩ := isNumeral_iff.mp ⟨rfl, hd⟩
  obtain ⟨-, hes, ht⟩ := isNumeral_iff.mp ⟨h, he⟩
  exact ⟨hds.symm.trans hes, hs.symm.trans ht⟩

theorem IsNumeral.not_mem {ds rest : Text} {c : CodePoint} (h : IsNumeral ds rest)
    (hc : ¬c.isDigit) : c ∉ ds :=
  fun hmem => hc (h.digits c hmem)

/-- What starts with a numeral starts with a digit. -/
theorem IsNumeral.append_ne_cons {ds rest s t : Text} {c : CodePoint} (h : IsNumeral ds rest)
    (hc : ¬c.isDigit) : ds ++ s ≠ c :: t := by
  obtain ⟨d, ds, rfl⟩ := List.exists_cons_of_ne_nil h.ne_nil
  intro he
  exact hc ((List.cons.inj he).1 ▸ h.digits d List.mem_cons_self)

/-- A numeral ends at what comes next, whatever comes after that. -/
theorem IsNumeral.of_append_cons {ds e s : Text} {c : CodePoint} (h : IsNumeral ds (e ++ c :: s))
    (t : Text) : IsNumeral ds (e ++ c :: t) where
  ne_nil := h.ne_nil
  digits := h.digits
  ends := by cases e <;> exact h.ends

/-- A numeral stands on one side of a mark. -/
theorem IsNumeral.eq_append_cons {ds rest x s t : Text} {c : CodePoint} (h : IsNumeral ds rest)
    (hc : ¬c.isDigit) (htext : s ++ c :: t = x ++ (ds ++ rest)) :
    (∃ e, s = x ++ (ds ++ e) ∧ rest = e ++ c :: t) ∨ ∃ y, t = y ++ (ds ++ rest) := by
  rcases List.append_eq_append_iff.mp htext with ⟨a, rfl, ha⟩ | ⟨b, rfl, hb⟩
  · cases a with
    | nil => exact absurd ha.symm (h.append_ne_cons hc)
    | cons d y => exact .inr ⟨y, (List.cons.inj ha).2⟩
  · rcases List.append_eq_append_iff.mp hb with ⟨e, rfl, hrest⟩ | ⟨e, rfl, hrest⟩
    · exact .inl ⟨e, rfl, hrest⟩
    · cases e with
      | nil => exact .inl ⟨[], by simp, hrest.symm⟩
      | cons d e =>
        obtain ⟨rfl, -⟩ := List.cons.inj hrest
        exact absurd (List.mem_append_right b List.mem_cons_self) (h.not_mem hc)

/-! ### The number of a numeral -/

/-- The number that digits denote, each weighed by its place. -/
def number (ds : Text) : Nat := Nat.ofDigits 10 (ds.reverse.map fun d => d.toNat - '0'.toNat)

theorem value_concat (ds : Text) (d : CodePoint) :
    value (ds ++ [d]) = 10 * value ds + (d.toNat - '0'.toNat) := by
  rw [value, List.foldl_append]
  rfl

/-- Reading digits one after another weighs each by its place. -/
theorem value_eq_number (ds : Text) : value ds = number ds := by
  induction ds using List.reverseRecOn with
  | nil => rfl
  | append_singleton ds d ih =>
    rw [value_concat, ih, number, number, List.reverse_concat, List.map_cons, Nat.ofDigits_cons,
      Nat.add_comm]

theorem eq_number_of_read {ds : Text} {n : Nat} (h : read ds = .ok n) : n = number ds := by
  rw [read] at h
  split at h
  · rw [← Except.ok.inj h, value_eq_number]
  · cases h

theorem number_lt {ds : Text} (h : ∀ c ∈ ds, c.isDigit) : number ds < 10 ^ ds.length := by
  have hdigit : ∀ n ∈ ds.reverse.map (fun d => d.toNat - '0'.toNat), n < 10 := by
    intro n hn
    obtain ⟨c, hc, rfl⟩ := List.mem_map.mp hn
    have hc' := h c (List.mem_reverse.mp hc)
    simp only [CodePoint.isDigit, CodePoint.isBetween, Bool.and_eq_true, decide_eq_true_eq] at hc'
    have h0 : '0'.toNat = 0x30 := rfl
    have h9 : '9'.toNat = 0x39 := rfl
    omega
  have hlt := Nat.ofDigits_lt_base_pow_length (by decide : 1 < 10) hdigit
  rwa [List.length_map, List.length_reverse] at hlt

theorem read_eq_error_iff {ds : Text} {e : Fault} :
    read ds = .error e ↔ maxDigits < ds.length ∧ e = .numeralTooLong ds.length := by
  rw [read]
  split
  · next h => exact iff_of_false (fun h => nomatch h) fun hlt => absurd hlt.1 (Nat.not_lt.mpr h)
  · next h =>
    rw [Except.error.injEq, eq_comm]
    exact (and_iff_right (Nat.lt_of_not_le h)).symm

/-! ### Printing -/

theorem isDigit_ofChar {c : Char} (h : c.isDigit) : (CodePoint.ofChar c).isDigit := by
  simp only [Char.isDigit, Bool.and_eq_true, decide_eq_true_eq, UInt32.le_iff_toNat_le] at h
  simp only [CodePoint.isDigit, CodePoint.isBetween, Bool.and_eq_true, decide_eq_true_eq]
  exact h

theorem isDigit_of_mem_digits {n : Nat} {c : CodePoint} (h : c ∈ digits n) : c.isDigit := by
  obtain ⟨a, ha, rfl⟩ := List.mem_map.mp h
  exact isDigit_ofChar (Nat.isDigit_of_mem_toDigits (by decide) (by decide) ha)

theorem digits_ne_nil (n : Nat) : digits n ≠ [] := by
  rw [digits, Ne, List.map_eq_nil_iff]
  exact Nat.toDigits_ne_nil

/-- What is printed for a number reads as that number. -/
@[simp] theorem value_digits (n : Nat) : value (digits n) = n := by
  have hfold : value (digits n) = Nat.ofDigitChars 10 (Nat.toDigits 10 n) 0 := by
    rw [value, digits, List.foldl_map]
    rfl
  rw [hfold, Nat.ofDigitChars_toDigits (by decide) (by decide)]

@[simp] theorem number_digits (n : Nat) : number (digits n) = n := by
  rw [← value_eq_number, value_digits]

theorem length_digits_le_iff {n : Nat} : (digits n).length ≤ maxDigits ↔ n < 10 ^ maxDigits := by
  rw [digits, List.length_map, Nat.length_toDigits_le_iff (by decide) (by decide)]

theorem length_digits_natAbs_le {i : Int} (h0 : 0 ≤ i) (h : i < 10 ^ maxDigits) :
    (digits i.natAbs).length ≤ maxDigits := by
  have hlt : (i.natAbs : Int) < (10 ^ maxDigits : Nat) := by
    rw [Int.natAbs_of_nonneg h0]
    exact_mod_cast h
  exact length_digits_le_iff.mpr (Int.ofNat_lt.mp hlt)

theorem lt_limit_of_lt {i : Int} (h : i < 100) : i < 10 ^ maxDigits :=
  calc i < 10 ^ 2 := h
    _ ≤ 10 ^ maxDigits := pow_le_pow_right₀ (by decide) (by decide)

/-- Numbers within the limit are printed by their digits. -/
theorem print_eq_ok {i : Int} (h0 : 0 ≤ i) (h : i < 10 ^ maxDigits) :
    print i = .ok (digits i.natAbs) := by
  rw [print, if_pos (length_digits_natAbs_le h0 h), if_neg (by omega)]

/-- Digits in print are a numeral in front of anything but a digit. -/
theorem isNumeral_digits (n : Nat) {rest : Text} (h : ∀ c ∈ rest.head?, ¬c.isDigit) :
    IsNumeral (digits n) rest :=
  ⟨digits_ne_nil n, fun _ hc => isDigit_of_mem_digits hc, h⟩

end Decimal

end Locus
