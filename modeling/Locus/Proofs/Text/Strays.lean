import Locus.Proofs.Text.Utf8

/-!
Which texts bytes decode to. A byte stands alone in a text only where it begins no character with the
bytes behind it. So a text comes from bytes if and only if each surrogate in it stands for a byte, and
nowhere do such surrogates stand side by side whose bytes are those of a character.
-/

namespace Locus.Utf8

variable {a b : UInt8} {c : CodePoint} {bs xs : List UInt8} {t : Text}

/-- The surrogates of a text stand for bytes, and those side by side spell no character. -/
structure StraysApart (t : Text) : Prop where
  exists_stray : ∀ c ∈ t, c.isSurrogate → ∃ b, c = stray b
  not_infix : ∀ c, ¬c.isSurrogate → ¬(bytes c).map stray <:+: t

/-! ### Bytes that stand alone -/

theorem isSurrogate_stray (b : UInt8) : (stray b).isSurrogate := by
  have hb := b.toNat_lt
  have hn : (stray b).toNat = 0xDC00 + b.toNat := rfl
  simp only [CodePoint.isSurrogate, Bool.and_eq_true, decide_eq_true_eq]
  omega

/-- The surrogate of a byte has that byte, if it has any. -/
theorem eq_of_bytes?_stray (h : bytes? (stray b) = some bs) : bs = [b] := by
  by_cases hb : 0x80 ≤ b.toNat
  · rw [bytes?_stray hb] at h
    exact (Option.some.inj h).symm
  · have hn : (stray b).toNat = 0xDC00 + b.toNat := rfl
    rw [bytes?, if_neg (by omega), if_pos (isSurrogate_stray b)] at h
    cases h

theorem eq_of_encode?_map_stray (h : encode? (xs.map stray) = some bs) : bs = xs := by
  induction xs generalizing bs with
  | nil => exact (Option.some.inj h).symm
  | cons b xs ih =>
    obtain ⟨head, hhead, h⟩ := Option.bind_eq_some_iff.mp h
    obtain ⟨tail, htail, h⟩ := Option.bind_eq_some_iff.mp h
    rw [← Option.some.inj h, eq_of_bytes?_stray hhead, ih htail]
    rfl

theorem exists_stray_of_bytes? (hc : c.isSurrogate) (h : bytes? c = some bs) :
    ∃ b, c = stray b := by
  unfold bytes? at h
  split_ifs at h with hrange
  refine ⟨.ofNat (c.toNat - 0xDC00), CodePoint.ext ?_⟩
  have hn : (stray (.ofNat (c.toNat - 0xDC00))).toNat =
      0xDC00 + (UInt8.ofNat (c.toNat - 0xDC00)).toNat := rfl
  rw [hn, UInt8.toNat_ofNat_of_lt' (show _ < 0x100 by omega)]
  omega

/-- No character starts with a byte that continues one. -/
theorem front?_eq_none_of_isContinuation (h : isContinuation a) (bs : List UInt8) :
    front? a bs = none := by
  cases hf : front? a bs with
  | none => rfl
  | some r => exact absurd h (not_isContinuation_of_bytes (bytes_of_front? hf).2.2)

theorem decode_append_of_forall_isContinuation (h : ∀ b ∈ xs, isContinuation b)
    (bs : List UInt8) : decode (xs ++ bs) = xs.map stray ++ decode bs := by
  induction xs with
  | nil => rfl
  | cons a xs ih =>
    have ha := front?_eq_none_of_isContinuation (h a List.mem_cons_self) (xs ++ bs)
    rw [List.cons_append, decode_of_front?_eq_none ha,
      ih fun b hb => h b (List.mem_cons_of_mem a hb)]
    rfl

/-! ### The texts of bytes -/

theorem StraysApart.of_cons (h : StraysApart (c :: t)) : StraysApart t where
  exists_stray d hd := h.exists_stray d (List.mem_cons_of_mem c hd)
  not_infix d hd hinfix := h.not_infix d hd (List.infix_cons hinfix)

/-- Behind a byte that stands alone, the bytes of the text make no character with it. -/
theorem StraysApart.decode_cons (h : StraysApart (stray b :: decode bs)) :
    decode (b :: bs) = stray b :: decode bs := by
  refine decode_of_front?_eq_none ?_
  cases hf : front? b bs with
  | none => rfl
  | some r =>
    obtain ⟨d, k⟩ := r
    obtain ⟨hd, -, hb⟩ := bytes_of_front? hf
    -- All bytes of the character but the first continue it, so they stand alone as well.
    have hrest : decode bs = (bs.take k).map stray ++ decode (bs.drop k) := by
      rw [← decode_append_of_forall_isContinuation fun x hx => isContinuation_of_mem_tail hb hx,
        List.take_append_drop]
    refine absurd ⟨[], decode (bs.drop k), ?_⟩ (h.not_infix d hd)
    rw [hb, hrest]
    rfl

theorem StraysApart.ofBytes (h : StraysApart t) : OfBytes t := by
  induction t with
  | nil => exact ofBytes_nil
  | cons c t ih =>
    obtain ⟨bs, rfl⟩ := ih h.of_cons
    by_cases hc : c.isSurrogate
    · obtain ⟨b, rfl⟩ := h.exists_stray c List.mem_cons_self hc
      exact ⟨b :: bs, h.decode_cons⟩
    · exact ⟨bytes c ++ bs, decode_bytes_append hc bs⟩

theorem OfBytes.straysApart (h : OfBytes t) : StraysApart t where
  exists_stray c hc hs := by
    obtain ⟨s, u, rfl⟩ := List.append_of_mem hc
    have hbytes := (h.of_infix ⟨s, u, by simp⟩ : OfBytes [c]).encode?_eq_some
    obtain ⟨bs, hbs, -⟩ := Option.bind_eq_some_iff.mp hbytes
    exact exists_stray_of_bytes? hs hbs
  not_infix c hs hinfix := by
    obtain ⟨bs, hbs⟩ := h.of_infix hinfix
    -- What decodes to the bytes one by one is these bytes, which decode to the character.
    have hbytes : bs = bytes c := eq_of_encode?_map_stray (hbs ▸ encode?_decode bs)
    have hdecode : decode (bytes c) = [c] := by
      rw [← List.append_nil (bytes c), decode_bytes_append hs]
      rfl
    obtain ⟨b, tail, htail⟩ := List.exists_cons_of_ne_nil (bytes_ne_nil c)
    rw [hbytes, hdecode, htail, List.map_cons] at hbs
    exact hs ((List.cons.inj hbs).1 ▸ isSurrogate_stray b)

/-- The texts that some bytes decode to are those in which surrogates stand for bytes and bytes that
stand alone make no character. -/
theorem ofBytes_iff_straysApart : OfBytes t ↔ StraysApart t :=
  ⟨OfBytes.straysApart, StraysApart.ofBytes⟩

end Locus.Utf8
