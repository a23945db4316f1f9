import Locus.Proofs.Uri.Percent

/-!
Unescaping piece by piece. An escape takes two hexadecimal digits after its percent sign, and a
character takes bytes beyond ASCII only; so a text may be unescaped in two parts wherever an ASCII
character stands that opens no escape and is no digit of one. A text without escapes is left as it
is, and one with an escape gets shorter.
-/

namespace Locus.CodePoint

variable {c : CodePoint}

theorem isHexDigit_iff : c.isHexDigit ↔ ∃ n, c.hexValue? = some n := by
  rw [isHexDigit, hexValue?]
  cases c.isDigit <;> cases c.isBetween 'a' 'f' <;> cases c.isBetween 'A' 'F' <;> simp

end Locus.CodePoint

namespace Locus.Percent

open CodePoint (ofChar)
open Utf8 (OfBytes)

variable {s t : Text} {c hi lo : CodePoint} {b : UInt8} {ps qs : List Piece}

/-! ### Escapes -/

/-- Somewhere a percent sign stands before two hexadecimal digits. -/
def HoldsEscape (t : Text) : Prop :=
  ∃ s hi lo r, t = s ++ ofChar '%' :: hi :: lo :: r ∧ hi.isHexDigit ∧ lo.isHexDigit

/-- The byte of the escape that starts with `c` and goes on in `t`. -/
def escape? (c : CodePoint) (t : Text) : Option UInt8 :=
  if c = '%' then piecesAfter.escaped? t else none

theorem piecesAfter_eq : ∀ (k : Nat) (t : Text), piecesAfter k t = pieces (t.drop k)
  | _, [] => by rw [List.drop_nil, pieces, piecesAfter, piecesAfter]
  | 0, _ :: _ => rfl
  | k + 1, _ :: t => by rw [piecesAfter, List.drop_succ_cons, piecesAfter_eq k t]

theorem pieces_of_escape? (h : escape? c t = some b) :
    pieces (c :: t) = .octet b :: pieces (t.drop 2) := by
  rw [escape?] at h
  rw [pieces, piecesAfter, h]
  exact congrArg (.octet b :: ·) (piecesAfter_eq 2 t)

theorem pieces_of_escape?_eq_none (h : escape? c t = none) :
    pieces (c :: t) = .ofCodePoint c :: pieces t := by
  rw [escape?] at h
  rw [pieces, piecesAfter, h]
  rfl

theorem exists_of_escape? (h : escape? c t = some b) :
    c = '%' ∧ ∃ hi lo r, t = hi :: lo :: r ∧ hi.isHexDigit ∧ lo.isHexDigit := by
  rw [escape?] at h
  split at h
  · next hc =>
    unfold piecesAfter.escaped? at h
    split at h
    · next hi lo r =>
      obtain ⟨m, hm, h⟩ := Option.bind_eq_some_iff.mp h
      obtain ⟨n, hn, -⟩ := Option.bind_eq_some_iff.mp h
      exact ⟨hc, hi, lo, r, rfl, CodePoint.isHexDigit_iff.mpr ⟨m, hm⟩,
        CodePoint.isHexDigit_iff.mpr ⟨n, hn⟩⟩
    · cases h
  · cases h

theorem exists_escape?_eq_some (hhi : hi.isHexDigit) (hlo : lo.isHexDigit) (t : Text) :
    ∃ b, escape? (ofChar '%') (hi :: lo :: t) = some b := by
  obtain ⟨m, hm⟩ := CodePoint.isHexDigit_iff.mp hhi
  obtain ⟨n, hn⟩ := CodePoint.isHexDigit_iff.mp hlo
  refine ⟨.ofNat (16 * m + n), ?_⟩
  rw [escape?, if_pos rfl, piecesAfter.escaped?, byte?, hm, hn]
  rfl

theorem not_holdsEscape_of_notMem (h : ofChar '%' ∉ t) : ¬HoldsEscape t := by
  rintro ⟨s, hi, lo, r, rfl, -, -⟩
  exact h (List.mem_append_right s List.mem_cons_self)

theorem HoldsEscape.cons (h : HoldsEscape t) (c : CodePoint) : HoldsEscape (c :: t) := by
  obtain ⟨s, hi, lo, r, rfl, hhi, hlo⟩ := h
  exact ⟨c :: s, hi, lo, r, rfl, hhi, hlo⟩

theorem holdsEscape_of_escape? (h : escape? c t = some b) : HoldsEscape (c :: t) := by
  obtain ⟨rfl, hi, lo, r, rfl, hhi, hlo⟩ := exists_of_escape? h
  exact ⟨[], hi, lo, r, rfl, hhi, hlo⟩

/-- An escape that does not stand at the front stands behind it. -/
theorem HoldsEscape.of_cons (h : HoldsEscape (c :: t)) (hfront : escape? c t = none) :
    HoldsEscape t := by
  obtain ⟨s, hi, lo, r, he, hhi, hlo⟩ := h
  cases s with
  | nil =>
    obtain ⟨rfl, rfl⟩ := List.cons.inj he
    obtain ⟨b, hb⟩ := exists_escape?_eq_some hhi hlo r
    rw [hb] at hfront
    cases hfront
  | cons d s =>
    obtain ⟨-, rfl⟩ := List.cons.inj he
    exact ⟨s, hi, lo, r, rfl, hhi, hlo⟩

/-! ### Pieces, apart at a separator -/

/-- No escape reaches over a character that is no hexadecimal digit. -/
theorem escape?_append_cons (hhex : c.hexValue? = none) (d : CodePoint) (s t : Text) :
    escape? d (s ++ c :: t) = escape? d s := by
  have hbyte : ∀ hi, byte? hi c = none := by
    intro hi
    rw [byte?, hhex]
    cases hi.hexValue? <;> rfl
  have hescaped : piecesAfter.escaped? (s ++ c :: t) = piecesAfter.escaped? s := by
    rcases s with _ | ⟨hi, _ | ⟨lo, s⟩⟩
    · cases t with
      | nil => rfl
      | cons lo t =>
        rw [List.nil_append, piecesAfter.escaped?, byte?, hhex]
        rfl
    · exact hbyte hi
    · rfl
  rw [escape?, hescaped, escape?]

theorem pieces_append_cons (hc : c ≠ '%') (hhex : c.hexValue? = none) : ∀ s t : Text,
    pieces (s ++ c :: t) = pieces s ++ .ofCodePoint c :: pieces t
  | [], t => pieces_cons_of_ne hc t
  | d :: s, t => by
    have hd := escape?_append_cons hhex d s t
    rw [List.cons_append]
    cases h : escape? d s with
    | some b =>
      obtain ⟨-, hi, lo, r, rfl, -, -⟩ := exists_of_escape? h
      rw [h] at hd
      rw [pieces_of_escape? hd, pieces_of_escape? h]
      exact congrArg (.octet b :: ·) (pieces_append_cons hc hhex r t)
    | none =>
      rw [h] at hd
      rw [pieces_of_escape?_eq_none hd, pieces_of_escape?_eq_none h,
        pieces_append_cons hc hhex s t, List.cons_append]
termination_by s => s.length

/-! ### Runs of bytes -/

/-- Any bytes before the first run join it, as they join the run of the pieces up to an ASCII byte. -/
theorem decode_gather_append_cons (hb : b.toNat < 0x80) (xs : List UInt8) (ps qs : List Piece) :
    Utf8.decode (xs ++ (gather (ps ++ .octet b :: qs)).1) ++ (gather (ps ++ .octet b :: qs)).2 =
      Utf8.decode (xs ++ (gather ps).1) ++ ((gather ps).2 ++ .ofByte b :: assemble qs) := by
  have hnot : ¬Utf8.isContinuation b := by
    rw [Utf8.isContinuation_iff]
    omega
  induction ps generalizing xs with
  | nil =>
    have hsplit := Utf8.decode_append_cons hnot xs (gather qs).1
    rw [Utf8.decode_cons_of_lt hb] at hsplit
    rw [List.nil_append, gather, gather, hsplit, List.append_nil, List.append_assoc]
    rfl
  | cons p ps ih =>
    cases p with
    | octet a =>
      have := ih (xs ++ [a])
      rwa [List.append_assoc, List.append_assoc] at this
    | wide c =>
      have := ih []
      rw [List.nil_append, List.nil_append] at this
      simp only [List.cons_append, gather, this, List.append_assoc]

theorem assemble_append_cons (hb : b.toNat < 0x80) (ps qs : List Piece) :
    assemble (ps ++ .octet b :: qs) = assemble ps ++ .ofByte b :: assemble qs := by
  have := decode_gather_append_cons hb [] ps qs
  rw [List.nil_append, List.nil_append, ← List.append_assoc] at this
  exact this

theorem assemble_wide (c : CodePoint) (ps : List Piece) :
    assemble (.wide c :: ps) = c :: assemble ps := rfl

theorem assemble_ofCodePoint_append_cons (hc : c.isAscii) (ps qs : List Piece) :
    assemble (ps ++ .ofCodePoint c :: qs) = assemble ps ++ c :: assemble qs := by
  have hlt : c.toNat < 0x80 := decide_eq_true_eq.mp hc
  have hb := UInt8.toNat_ofNat_of_lt' (show c.toNat < 0x100 by omega)
  rw [Piece.ofCodePoint, if_pos hc, assemble_append_cons (by omega), Utf8.ofByte_ofNat hc]

/-- A text is unescaped in two parts at an ASCII character that belongs to no escape. -/
theorem decode_append_cons (hascii : c.isAscii) (hc : c ≠ '%') (hhex : c.hexValue? = none)
    (s t : Text) : decode (s ++ c :: t) = decode s ++ c :: decode t := by
  rw [decode, pieces_append_cons hc hhex, assemble_ofCodePoint_append_cons hascii]
  rfl

/-! ### Texts without escapes -/

theorem pieces_of_not_holdsEscape (h : ¬HoldsEscape t) : pieces t = t.map .ofCodePoint := by
  induction t with
  | nil => rfl
  | cons c t ih =>
    cases hfront : escape? c t with
    | some b => exact absurd (holdsEscape_of_escape? hfront) h
    | none =>
      rw [pieces_of_escape?_eq_none hfront, ih fun ht => h (ht.cons c), List.map_cons]

theorem assemble_map_ofCodePoint (t : Text) : assemble (t.map .ofCodePoint) = t := by
  induction t with
  | nil => rfl
  | cons c t ih =>
    rw [List.map_cons]
    by_cases hc : c.isAscii
    · exact (assemble_ofCodePoint_append_cons hc [] _).trans (congrArg (c :: ·) ih)
    · rw [Piece.ofCodePoint, if_neg hc, assemble_wide, ih]

theorem decode_eq_self (h : ¬HoldsEscape t) : decode t = t := by
  rw [decode, pieces_of_not_holdsEscape h, assemble_map_ofCodePoint]

theorem decode_singleton (c : CodePoint) : decode [c] = [c] := by
  refine decode_eq_self ?_
  rintro ⟨s, hi, lo, r, he, -, -⟩
  have := congrArg List.length he
  rw [List.length_singleton, List.length_append, List.length_cons, List.length_cons,
    List.length_cons] at this
  omega

/-! ### Lengths -/

theorem length_piecesAfter_le (k : Nat) (t : Text) : (piecesAfter k t).length ≤ t.length := by
  induction t generalizing k with
  | nil => cases k <;> exact Nat.le_refl 0
  | cons c t ih =>
    cases k with
    | succ k => exact Nat.le_succ_of_le (ih k)
    | zero =>
      unfold piecesAfter
      split
      · exact Nat.succ_le_succ (ih 2)
      · exact Nat.succ_le_succ (ih 0)

theorem length_pieces_lt (h : HoldsEscape t) : (pieces t).length < t.length := by
  induction t with
  | nil =>
    obtain ⟨s, hi, lo, r, he, -, -⟩ := h
    exact absurd he.symm (List.append_ne_nil_of_right_ne_nil s (List.cons_ne_nil _ _))
  | cons c t ih =>
    cases hfront : escape? c t with
    | some b =>
      obtain ⟨-, hi, lo, r, rfl, -, -⟩ := exists_of_escape? hfront
      have hr : (pieces r).length ≤ r.length := length_piecesAfter_le 0 r
      rw [pieces_of_escape? hfront]
      simp only [List.drop_succ_cons, List.drop_zero, List.length_cons]
      omega
    | none =>
      rw [pieces_of_escape?_eq_none hfront]
      exact Nat.succ_lt_succ (ih (h.of_cons hfront))

theorem length_gather_le (ps : List Piece) :
    (gather ps).1.length + (gather ps).2.length ≤ ps.length := by
  induction ps with
  | nil => exact Nat.le_refl 0
  | cons p ps ih =>
    cases p with
    | octet b =>
      simp only [gather, List.length_cons]
      omega
    | wide c =>
      have := Utf8.length_decode_le (gather ps).1
      simp only [gather, List.length_cons, List.length_nil, List.length_append]
      omega

/-- Each escape makes a text shorter. -/
theorem length_decode_lt (h : HoldsEscape t) : (decode t).length < t.length := by
  have hpieces := length_pieces_lt h
  have hgather := length_gather_le (pieces t)
  have hbytes := Utf8.length_decode_le (gather (pieces t)).1
  rw [decode, assemble, List.length_append]
  omega

/-! ### Texts of bytes -/

/-- If no surrogate is written out, all pieces together are bytes, and the runs are decoded as the
whole is. -/
theorem exists_decode_gather (h : ∀ c, .wide c ∈ ps → ¬c.isSurrogate) : ∃ ys, ∀ xs,
    Utf8.decode (xs ++ (gather ps).1) ++ (gather ps).2 = Utf8.decode (xs ++ ys) := by
  induction ps with
  | nil => exact ⟨[], fun xs => List.append_nil _⟩
  | cons p ps ih =>
    obtain ⟨ys, hys⟩ := ih fun c hc => h c (List.mem_cons_of_mem p hc)
    cases p with
    | octet b =>
      refine ⟨b :: ys, ?_⟩
      intro xs
      have := hys (xs ++ [b])
      rwa [List.append_assoc, List.append_assoc] at this
    | wide c =>
      refine ⟨Utf8.bytes c ++ ys, ?_⟩
      intro xs
      have := hys []
      rw [List.nil_append, List.nil_append] at this
      rw [Utf8.decode_append_bytes_append (h c List.mem_cons_self), ← this, gather, List.append_nil]

theorem mem_of_wide_mem_piecesAfter {k : Nat} (h : .wide c ∈ piecesAfter k t) : c ∈ t := by
  induction t generalizing k with
  | nil => cases k <;> cases h
  | cons d t ih =>
    cases k with
    | succ k => exact List.mem_cons_of_mem d (ih h)
    | zero =>
      unfold piecesAfter at h
      split at h
      · rcases List.mem_cons.mp h with he | h
        · cases he
        · exact List.mem_cons_of_mem d (ih h)
      · rcases List.mem_cons.mp h with he | h
        · unfold Piece.ofCodePoint at he
          split at he
          · cases he
          · rw [Piece.wide.inj he]
            exact List.mem_cons_self
        · exact List.mem_cons_of_mem d (ih h)

/-- A text without surrogates is unescaped to what some bytes decode to. -/
theorem ofBytes_decode (h : ∀ c ∈ t, ¬c.isSurrogate) : OfBytes (decode t) := by
  have hwide : ∀ c, .wide c ∈ pieces t → ¬c.isSurrogate :=
    fun c hc => h c (mem_of_wide_mem_piecesAfter hc)
  obtain ⟨ys, hys⟩ := exists_decode_gather hwide
  exact ⟨ys, (hys []).symm⟩

end Locus.Percent
