import Mathlib.Tactic.ByContra
import Mathlib.Tactic.SplitIfs
import Locus.Text.Utf8

/-!
The codec of bytes and text. `front?` finds a character exactly where its spelling stands, so
encoding what was decoded gives every byte back, whatever the bytes, and decoding what was encoded
gives every text back that some bytes decode to. Such texts may be cut anywhere and joined at ASCII.
-/

namespace Locus.Utf8

variable {a b x y z : UInt8} {c : CodePoint} {k : Nat} {bs xs ys rest tail : List UInt8}

/-! ### One character -/

theorem ofNat_eq {n : Nat} (h : a.toNat = n) : UInt8.ofNat n = a := by
  rw [← h, UInt8.ofNat_toNat]

/-- An ASCII character is the one of its byte. -/
theorem ofByte_ofNat (h : c.isAscii) : CodePoint.ofByte (.ofNat c.toNat) = c := by
  have hlt : c.toNat < 0x80 := decide_eq_true_eq.mp h
  exact CodePoint.ext (UInt8.toNat_ofNat_of_lt' (show _ < 0x100 by omega))

theorem isContinuation_iff : isContinuation b ↔ 0x80 ≤ b.toNat ∧ b.toNat < 0xC0 := by
  rw [isContinuation, Bool.and_eq_true, decide_eq_true_eq, decide_eq_true_eq]

theorem not_isSurrogate_iff : ¬c.isSurrogate ↔ c.toNat < 0xD800 ∨ 0xE000 ≤ c.toNat := by
  rw [CodePoint.isSurrogate, Bool.and_eq_true, decide_eq_true_eq, decide_eq_true_eq]
  omega

theorem two?_eq_some_iff : two? a b = some c ↔
    0x80 ≤ c.toNat ∧ c.toNat < 0x800 ∧ a.toNat = 0xC0 + c.toNat / 0x40 ∧
      b.toNat = 0x80 + c.toNat % 0x40 := by
  rw [two?, Option.dite_none_right_eq_some]
  constructor
  · rintro ⟨⟨ha, ha', hb, hn, hn'⟩, he⟩
    have heq := congrArg CodePoint.toNat (Option.some.inj he)
    rw [isContinuation_iff] at hb
    simp only [low] at heq hn
    omega
  · rintro ⟨hn, hn', ha, hb⟩
    refine ⟨⟨by omega, by omega, ?_, ?_, ?_⟩, congrArg some (CodePoint.ext ?_)⟩ <;>
      simp only [isContinuation_iff, low] <;> omega

theorem three?_eq_some_iff : three? a b x = some c ↔
    ¬c.isSurrogate ∧ 0x800 ≤ c.toNat ∧ c.toNat < 0x10000 ∧ a.toNat = 0xE0 + c.toNat / 0x1000 ∧
      b.toNat = 0x80 + c.toNat / 0x40 % 0x40 ∧ x.toNat = 0x80 + c.toNat % 0x40 := by
  rw [three?, Option.dite_none_right_eq_some, not_isSurrogate_iff]
  constructor
  · rintro ⟨⟨ha, ha', hb, hx, hn, hn', hs⟩, he⟩
    have heq := congrArg CodePoint.toNat (Option.some.inj he)
    rw [isContinuation_iff] at hb hx
    simp only [low] at heq hn hs
    omega
  · rintro ⟨hs, hn, hn', ha, hb, hx⟩
    refine ⟨⟨by omega, by omega, ?_, ?_, ?_, ?_, ?_⟩, congrArg some (CodePoint.ext ?_)⟩ <;>
      simp only [isContinuation_iff, low] <;> omega

theorem four?_eq_some_iff : four? a b x y = some c ↔
    0x10000 ≤ c.toNat ∧ a.toNat = 0xF0 + c.toNat / 0x40000 ∧
      b.toNat = 0x80 + c.toNat / 0x1000 % 0x40 ∧ x.toNat = 0x80 + c.toNat / 0x40 % 0x40 ∧
      y.toNat = 0x80 + c.toNat % 0x40 := by
  have hc := c.isLt
  rw [four?, Option.dite_none_right_eq_some]
  constructor
  · rintro ⟨⟨ha, ha', hb, hx, hy, hn, hn'⟩, he⟩
    have heq := congrArg CodePoint.toNat (Option.some.inj he)
    rw [isContinuation_iff] at hb hx hy
    simp only [low] at heq hn
    omega
  · rintro ⟨hn, ha, hb, hx, hy⟩
    refine ⟨⟨by omega, by omega, ?_, ?_, ?_, ?_, ?_⟩, congrArg some (CodePoint.ext ?_)⟩ <;>
      simp only [isContinuation_iff, low] <;> omega

/-! ### The spelling of a character -/

theorem bytes_of_lt_80 (h : c.toNat < 0x80) : bytes c = [.ofNat c.toNat] := by
  rw [bytes, if_pos h]

theorem bytes_of_lt_800 (h : 0x80 ≤ c.toNat) (h' : c.toNat < 0x800) :
    bytes c = [.ofNat (0xC0 + c.toNat / 0x40), .ofNat (0x80 + c.toNat % 0x40)] := by
  rw [bytes, if_neg (by omega), if_pos h']

theorem bytes_of_lt_10000 (h : 0x800 ≤ c.toNat) (h' : c.toNat < 0x10000) :
    bytes c = [.ofNat (0xE0 + c.toNat / 0x1000), .ofNat (0x80 + c.toNat / 0x40 % 0x40),
      .ofNat (0x80 + c.toNat % 0x40)] := by
  rw [bytes, if_neg (by omega), if_neg (by omega), if_pos h']

theorem bytes_of_le (h : 0x10000 ≤ c.toNat) :
    bytes c = [.ofNat (0xF0 + c.toNat / 0x40000), .ofNat (0x80 + c.toNat / 0x1000 % 0x40),
      .ofNat (0x80 + c.toNat / 0x40 % 0x40), .ofNat (0x80 + c.toNat % 0x40)] := by
  rw [bytes, if_neg (by omega), if_neg (by omega), if_neg (by omega)]

theorem bytes_ne_nil (c : CodePoint) : bytes c ≠ [] := by
  dsimp only [bytes]
  split_ifs <;> exact List.cons_ne_nil _ _

theorem isContinuation_ofNat {n : Nat} (h : n < 0x40) : isContinuation (.ofNat (0x80 + n)) := by
  rw [isContinuation_iff, UInt8.toNat_ofNat_of_lt' (show _ < 0x100 by omega)]
  omega

/-- Every byte of a character but its first continues it. -/
theorem isContinuation_of_mem_tail (h : bytes c = a :: tail) (hb : b ∈ tail) :
    isContinuation b := by
  dsimp only [bytes] at h
  split_ifs at h <;> obtain ⟨-, rfl⟩ := List.cons.inj h <;>
    simp only [List.mem_cons, List.not_mem_nil, or_false] at hb
  · exact hb ▸ isContinuation_ofNat (by omega)
  · rcases hb with rfl | rfl <;> exact isContinuation_ofNat (by omega)
  · rcases hb with rfl | rfl | rfl <;> exact isContinuation_ofNat (by omega)

/-- The first byte of a character continues none. -/
theorem not_isContinuation_of_bytes (h : bytes c = a :: tail) : ¬isContinuation a := by
  have hc := c.isLt
  rw [isContinuation_iff]
  dsimp only [bytes] at h
  split_ifs at h <;> obtain ⟨rfl, -⟩ := List.cons.inj h <;>
    rw [UInt8.toNat_ofNat_of_lt' (show _ < 0x100 by omega)] <;> omega

/-- A character that is found is spelled by the bytes at which it is found. -/
theorem bytes_of_front? (h : front? a rest = some (c, k)) :
    ¬c.isSurrogate ∧ k ≤ rest.length ∧ bytes c = a :: rest.take k := by
  unfold front? at h
  split at h
  · next ha =>
    obtain ⟨rfl, rfl⟩ := Prod.mk.inj (Option.some.inj h)
    refine ⟨not_isSurrogate_iff.mpr (.inl ?_), Nat.zero_le _, ?_⟩
    · rw [CodePoint.toNat_ofByte]
      omega
    · rw [bytes_of_lt_80 ha, CodePoint.toNat_ofByte, UInt8.ofNat_toNat, List.take_zero]
  split at h
  · split at h
    · obtain ⟨d, hd, he⟩ := Option.map_eq_some_iff.mp h
      obtain ⟨rfl, rfl⟩ := Prod.mk.inj he
      obtain ⟨hn, hn', ha, hb⟩ := two?_eq_some_iff.mp hd
      refine ⟨not_isSurrogate_iff.mpr (.inl (by omega)), by simp, ?_⟩
      rw [bytes_of_lt_800 hn hn', ofNat_eq ha, ofNat_eq hb]
      rfl
    · cases h
  split at h
  · split at h
    · obtain ⟨d, hd, he⟩ := Option.map_eq_some_iff.mp h
      obtain ⟨rfl, rfl⟩ := Prod.mk.inj he
      obtain ⟨hs, hn, hn', ha, hb, hx⟩ := three?_eq_some_iff.mp hd
      refine ⟨hs, by simp, ?_⟩
      rw [bytes_of_lt_10000 hn hn', ofNat_eq ha, ofNat_eq hb, ofNat_eq hx]
      rfl
    · cases h
  · split at h
    · obtain ⟨d, hd, he⟩ := Option.map_eq_some_iff.mp h
      obtain ⟨rfl, rfl⟩ := Prod.mk.inj he
      obtain ⟨hn, ha, hb, hx, hy⟩ := four?_eq_some_iff.mp hd
      refine ⟨not_isSurrogate_iff.mpr (.inr (by omega)), by simp, ?_⟩
      rw [bytes_of_le hn, ofNat_eq ha, ofNat_eq hb, ofNat_eq hx, ofNat_eq hy]
      rfl
    · cases h

/-- The bytes that spell a character are found as that character. -/
theorem front?_of_bytes (hs : ¬c.isSurrogate) (h : bytes c = a :: tail) (rest : List UInt8) :
    front? a (tail ++ rest) = some (c, tail.length) := by
  have hc := c.isLt
  unfold front?
  by_cases h80 : c.toNat < 0x80
  · rw [bytes_of_lt_80 h80] at h
    obtain ⟨rfl, rfl⟩ := List.cons.inj h
    have ha := UInt8.toNat_ofNat_of_lt' (show c.toNat < 0x100 by omega)
    rw [if_pos (by omega)]
    exact congrArg (fun d => some (d, 0)) (CodePoint.ext ha)
  by_cases h800 : c.toNat < 0x800
  · rw [bytes_of_lt_800 (by omega) h800] at h
    obtain ⟨rfl, rfl⟩ := List.cons.inj h
    have ha := UInt8.toNat_ofNat_of_lt' (show 0xC0 + c.toNat / 0x40 < 0x100 by omega)
    have hb := UInt8.toNat_ofNat_of_lt' (show 0x80 + c.toNat % 0x40 < 0x100 by omega)
    rw [if_neg (by omega), if_pos (by omega)]
    simp only [List.cons_append]
    rw [two?_eq_some_iff.mpr ⟨by omega, h800, ha, hb⟩]
    rfl
  have hb := UInt8.toNat_ofNat_of_lt' (show 0x80 + c.toNat / 0x40 % 0x40 < 0x100 by omega)
  have hx := UInt8.toNat_ofNat_of_lt' (show 0x80 + c.toNat % 0x40 < 0x100 by omega)
  by_cases h10000 : c.toNat < 0x10000
  · rw [bytes_of_lt_10000 (by omega) h10000] at h
    obtain ⟨rfl, rfl⟩ := List.cons.inj h
    have ha := UInt8.toNat_ofNat_of_lt' (show 0xE0 + c.toNat / 0x1000 < 0x100 by omega)
    rw [if_neg (by omega), if_neg (by omega), if_pos (by omega)]
    simp only [List.cons_append]
    rw [three?_eq_some_iff.mpr ⟨hs, by omega, h10000, ha, hb, hx⟩]
    rfl
  · rw [bytes_of_le (by omega)] at h
    obtain ⟨rfl, rfl⟩ := List.cons.inj h
    have ha := UInt8.toNat_ofNat_of_lt' (show 0xF0 + c.toNat / 0x40000 < 0x100 by omega)
    have hb' := UInt8.toNat_ofNat_of_lt' (show 0x80 + c.toNat / 0x1000 % 0x40 < 0x100 by omega)
    rw [if_neg (by omega), if_neg (by omega), if_neg (by omega)]
    simp only [List.cons_append]
    rw [four?_eq_some_iff.mpr ⟨by omega, ha, hb', hb, hx⟩]
    rfl

/-! ### Decoding, character by character -/

theorem decodeAfter_eq : ∀ (k : Nat) (bs : List UInt8), decodeAfter k bs = decode (bs.drop k)
  | _, [] => by rw [List.drop_nil, decode, decodeAfter, decodeAfter]
  | 0, _ :: _ => rfl
  | k + 1, _ :: rest => by rw [decodeAfter, List.drop_succ_cons, decodeAfter_eq k rest]

theorem decode_of_front? (h : front? a rest = some (c, k)) :
    decode (a :: rest) = c :: decode (rest.drop k) := by
  rw [decode, decodeAfter, h]
  exact congrArg (c :: ·) (decodeAfter_eq k rest)

theorem decode_of_front?_eq_none (h : front? a rest = none) :
    decode (a :: rest) = stray a :: decode rest := by
  rw [decode, decodeAfter, h]
  rfl

theorem decode_bytes_append (hs : ¬c.isSurrogate) (bs : List UInt8) :
    decode (bytes c ++ bs) = c :: decode bs := by
  obtain ⟨a, tail, h⟩ := List.exists_cons_of_ne_nil (bytes_ne_nil c)
  rw [h, List.cons_append, decode_of_front? (front?_of_bytes hs h bs), List.drop_left]

/-! ### Bytes to text and back -/

theorem bytes?_of_not_isSurrogate (hs : ¬c.isSurrogate) : bytes? c = some (bytes c) := by
  have h := not_isSurrogate_iff.mp hs
  rw [bytes?, if_neg (by omega), if_neg hs]

theorem bytes?_stray (h : 0x80 ≤ a.toNat) : bytes? (stray a) = some [a] := by
  have ha := a.toNat_lt
  have hn : (stray a).toNat = 0xDC00 + a.toNat := rfl
  rw [bytes?, if_pos (by omega), hn, Nat.add_sub_cancel_left, UInt8.ofNat_toNat]

theorem bytes?_ne_nil (h : bytes? c = some bs) : bs ≠ [] := by
  unfold bytes? at h
  split_ifs at h
  · exact Option.some.inj h ▸ List.cons_ne_nil _ _
  · exact Option.some.inj h ▸ bytes_ne_nil c

/-- A text that is not empty has a first byte, whether or not its bytes are proper ones. -/
theorem encode_ne_nil {t : Text} (h : t ≠ []) : encode t ≠ [] := by
  obtain ⟨c, t, rfl⟩ := List.exists_cons_of_ne_nil h
  rw [encode]
  cases he : encode? (c :: t) with
  | none => simp [bytes_ne_nil]
  | some bs =>
    obtain ⟨head, hhead, he⟩ := Option.bind_eq_some_iff.mp he
    obtain ⟨tail, -, he⟩ := Option.bind_eq_some_iff.mp he
    obtain rfl := Option.some.inj he
    simp [bytes?_ne_nil hhead]

/-- No byte is lost: what was decoded has proper bytes, and they are those it was decoded from. -/
theorem encode?_decode : ∀ bs : List UInt8, encode? (decode bs) = some bs
  | [] => rfl
  | a :: rest => by
    cases h : front? a rest with
    | some r =>
      obtain ⟨c, k⟩ := r
      obtain ⟨hs, -, hb⟩ := bytes_of_front? h
      rw [decode_of_front? h, encode?, bytes?_of_not_isSurrogate hs, hb,
        encode?_decode (rest.drop k)]
      exact congrArg (fun t => some (a :: t)) (List.take_append_drop k rest)
    | none =>
      have ha : 0x80 ≤ a.toNat := by
        by_contra hlt
        unfold front? at h
        rw [if_pos (by omega)] at h
        cases h
      rw [decode_of_front?_eq_none h, encode?, bytes?_stray ha, encode?_decode rest]
      rfl
termination_by bs => bs.length
decreasing_by all_goals simp only [List.length_drop, List.length_cons]; omega

@[simp] theorem encode_decode (bs : List UInt8) : encode (decode bs) = bs := by
  rw [encode, encode?_decode, Option.getD_some]

theorem encode?_append (s t : Text) :
    encode? (s ++ t) = (encode? s).bind fun xs => (encode? t).map (xs ++ ·) := by
  induction s with
  | nil => cases h : encode? t <;> simp [encode?, h]
  | cons c s ih =>
    rw [List.cons_append, encode?, encode?, ih]
    cases bytes? c <;> cases encode? s <;> cases encode? t <;> simp

/-- What bytes decode to has these bytes in front of any text. -/
theorem encode?_decode_append (bs : List UInt8) (t : Text) :
    encode? (decode bs ++ t) = (encode? t).map (bs ++ ·) := by
  rw [encode?_append, encode?_decode, Option.bind_some]

/-- A text has bytes if each surrogate in it stands for a byte. -/
theorem exists_encode?_eq_some {t : Text}
    (h : ∀ c ∈ t, ¬c.isSurrogate ∨ 0xDC80 ≤ c.toNat ∧ c.toNat ≤ 0xDCFF) :
    ∃ bs, encode? t = some bs := by
  induction t with
  | nil => exact ⟨[], rfl⟩
  | cons c t ih =>
    obtain ⟨tail, htail⟩ := ih fun d hd => h d (List.mem_cons_of_mem c hd)
    have hhead : ∃ head, bytes? c = some head := by
      rcases h c List.mem_cons_self with hs | ⟨hlo, hhi⟩
      · exact ⟨_, bytes?_of_not_isSurrogate hs⟩
      · rw [bytes?, if_pos ⟨hlo, by omega⟩]
        exact ⟨_, rfl⟩
    obtain ⟨head, hhead⟩ := hhead
    refine ⟨head ++ tail, ?_⟩
    rw [encode?, hhead, htail]
    rfl

/-- A text without surrogates is spelled by itself, whatever comes behind it. -/
theorem encode_append_of_forall_not_isSurrogate {s : Text} (h : ∀ c ∈ s, ¬c.isSurrogate)
    (t : Text) : encode (s ++ t) = encode s ++ encode t := by
  have hbytes : encode? s = some (s.flatMap bytes) := by
    induction s with
    | nil => rfl
    | cons c s ih =>
      rw [encode?, bytes?_of_not_isSurrogate (h c List.mem_cons_self),
        ih fun d hd => h d (List.mem_cons_of_mem c hd)]
      rfl
  rw [encode, encode, encode, encode?_append, hbytes]
  cases encode? t with
  | none => exact List.flatMap_append
  | some bs => rfl

/-- The texts that some bytes decode to. -/
def OfBytes (t : Text) : Prop := ∃ bs, decode bs = t

variable {s t : Text}

theorem OfBytes.decode_encode (h : OfBytes t) : decode (encode t) = t := by
  obtain ⟨bs, rfl⟩ := h
  rw [encode_decode]

theorem OfBytes.encode?_eq_some (h : OfBytes t) : encode? t = some (encode t) := by
  obtain ⟨bs, rfl⟩ := h
  rw [encode_decode, encode?_decode]

theorem ofBytes_nil : OfBytes [] := ⟨[], rfl⟩

/-- Every text without surrogates is the text of some bytes. -/
theorem ofBytes_of_forall_not_isSurrogate (h : ∀ c ∈ t, ¬c.isSurrogate) : OfBytes t := by
  induction t with
  | nil => exact ofBytes_nil
  | cons c t ih =>
    obtain ⟨bs, hbs⟩ := ih fun d hd => h d (List.mem_cons_of_mem c hd)
    refine ⟨bytes c ++ bs, ?_⟩
    rw [decode_bytes_append (h c List.mem_cons_self), hbs]

/-! ### Where bytes may be cut -/

/-- A character found in a part of the bytes is found in the whole. -/
theorem front?_append (h : front? a xs = some (c, k)) (ys : List UInt8) :
    front? a (xs ++ ys) = some (c, k) := by
  obtain ⟨hs, hk, hb⟩ := bytes_of_front? h
  have := front?_of_bytes hs hb (xs.drop k ++ ys)
  rwa [← List.append_assoc, List.take_append_drop, List.length_take_of_le hk] at this

/-- No character reaches over a byte that continues none. -/
theorem front?_append_cons (hb : ¬isContinuation b) (xs ys : List UInt8) :
    front? a (xs ++ b :: ys) = front? a xs := by
  cases h : front? a (xs ++ b :: ys) with
  | none =>
    cases h' : front? a xs with
    | none => rfl
    | some r => rw [front?_append h' (b :: ys)] at h; cases h
  | some r =>
    obtain ⟨c, k⟩ := r
    obtain ⟨hs, hk, hc⟩ := bytes_of_front? h
    have hle : k ≤ xs.length := by
      by_contra hlt
      have hmem : b ∈ (xs ++ b :: ys).take k := by
        rw [List.take_append, List.mem_append]
        obtain ⟨j, hj⟩ : ∃ j, k - xs.length = j + 1 := ⟨k - xs.length - 1, by omega⟩
        rw [hj, List.take_succ_cons]
        exact .inr List.mem_cons_self
      exact hb (isContinuation_of_mem_tail hc hmem)
    rw [List.take_append_of_le_length hle] at hc
    have := front?_of_bytes hs hc (xs.drop k)
    rw [List.take_append_drop, List.length_take_of_le hle] at this
    exact this.symm

theorem decode_append_cons (hb : ¬isContinuation b) : ∀ xs ys : List UInt8,
    decode (xs ++ b :: ys) = decode xs ++ decode (b :: ys)
  | [], _ => rfl
  | a :: xs, ys => by
    have happ := front?_append_cons hb (a := a) xs ys
    rw [List.cons_append]
    cases h : front? a xs with
    | some r =>
      obtain ⟨c, k⟩ := r
      obtain ⟨-, hk, -⟩ := bytes_of_front? h
      rw [h] at happ
      rw [decode_of_front? happ, decode_of_front? h, List.drop_append_of_le_length hk,
        decode_append_cons hb (xs.drop k) ys, List.cons_append]
    | none =>
      rw [h] at happ
      rw [decode_of_front?_eq_none happ, decode_of_front?_eq_none h, decode_append_cons hb xs ys,
        List.cons_append]
termination_by xs => xs.length
decreasing_by all_goals simp only [List.length_drop, List.length_cons]; omega

theorem decode_cons_of_lt (h : b.toNat < 0x80) (bs : List UInt8) :
    decode (b :: bs) = .ofByte b :: decode bs := by
  refine decode_of_front? (k := 0) ?_
  unfold front?
  rw [if_pos h]

theorem decode_append_bytes_append (hs : ¬c.isSurrogate) (xs ys : List UInt8) :
    decode (xs ++ (bytes c ++ ys)) = decode xs ++ c :: decode ys := by
  obtain ⟨a, tail, h⟩ := List.exists_cons_of_ne_nil (bytes_ne_nil c)
  rw [← decode_bytes_append hs, h]
  exact decode_append_cons (not_isContinuation_of_bytes h) xs (tail ++ ys)

theorem length_decode_le : ∀ bs : List UInt8, (decode bs).length ≤ bs.length
  | [] => Nat.le_refl 0
  | a :: rest => by
    cases h : front? a rest with
    | some r =>
      obtain ⟨c, k⟩ := r
      have ih := length_decode_le (rest.drop k)
      rw [List.length_drop] at ih
      rw [decode_of_front? h, List.length_cons, List.length_cons]
      omega
    | none =>
      rw [decode_of_front?_eq_none h]
      exact Nat.succ_le_succ (length_decode_le rest)
termination_by bs => bs.length
decreasing_by all_goals simp only [List.length_drop, List.length_cons]; omega

/-- Wherever a decoded text is cut, its bytes are cut. -/
theorem exists_of_decode_eq_append : ∀ {bs : List UInt8} {s t : Text}, decode bs = s ++ t →
    ∃ xs ys, bs = xs ++ ys ∧ decode xs = s ∧ decode ys = t
  | bs, [], _, h => ⟨[], bs, rfl, rfl, h⟩
  | [], _ :: _, _, h => nomatch h
  | a :: rest, c :: s, t, h => by
    cases hf : front? a rest with
    | some r =>
      obtain ⟨d, k⟩ := r
      obtain ⟨hs, hk, hb⟩ := bytes_of_front? hf
      rw [decode_of_front? hf] at h
      obtain ⟨rfl, hst⟩ := List.cons.inj h
      obtain ⟨xs, ys, hxy, hx, hy⟩ := exists_of_decode_eq_append hst
      refine ⟨bytes d ++ xs, ys, ?_, ?_, hy⟩
      · rw [List.append_assoc, ← hxy, hb, List.cons_append, List.take_append_drop]
      · rw [decode_bytes_append hs, hx]
    | none =>
      rw [decode_of_front?_eq_none hf] at h
      obtain ⟨rfl, hst⟩ := List.cons.inj h
      obtain ⟨xs, ys, rfl, hx, hy⟩ := exists_of_decode_eq_append hst
      have hx' : front? a xs = none := by
        cases hx' : front? a xs with
        | none => rfl
        | some r => rw [front?_append hx' ys] at hf; cases hf
      exact ⟨a :: xs, ys, rfl, by rw [decode_of_front?_eq_none hx', hx], hy⟩
termination_by bs => bs.length
decreasing_by all_goals simp only [List.length_drop, List.length_cons]; omega

/-! ### Texts of bytes, cut and joined -/

theorem OfBytes.of_append (h : OfBytes (s ++ t)) : OfBytes s ∧ OfBytes t := by
  obtain ⟨bs, h⟩ := h
  obtain ⟨xs, ys, -, hx, hy⟩ := exists_of_decode_eq_append h
  exact ⟨⟨xs, hx⟩, ⟨ys, hy⟩⟩

theorem OfBytes.encode_append (h : OfBytes (s ++ t)) : encode (s ++ t) = encode s ++ encode t := by
  obtain ⟨bs, h⟩ := h
  obtain ⟨xs, ys, rfl, rfl, rfl⟩ := exists_of_decode_eq_append h
  rw [← h, encode_decode, encode_decode, encode_decode]

theorem OfBytes.of_infix (h : OfBytes t) (hs : s <:+: t) : OfBytes s := by
  obtain ⟨x, y, rfl⟩ := hs
  exact h.of_append.1.of_append.2

/-- An ASCII character joins what some bytes decode to. -/
theorem OfBytes.append_cons (hs : OfBytes s) (hc : c.isAscii) (ht : OfBytes t) :
    OfBytes (s ++ c :: t) := by
  obtain ⟨xs, rfl⟩ := hs
  obtain ⟨ys, rfl⟩ := ht
  have hlt : c.toNat < 0x80 := decide_eq_true_eq.mp hc
  have hb := UInt8.toNat_ofNat_of_lt' (show c.toNat < 0x100 by omega)
  refine ⟨xs ++ .ofNat c.toNat :: ys, ?_⟩
  rw [decode_append_cons (by rw [isContinuation_iff]; omega), decode_cons_of_lt (by omega),
    ofByte_ofNat hc]

theorem ofBytes_intercalate (hc : c.isAscii) : ∀ {ts : List Text}, (∀ t ∈ ts, OfBytes t) →
    OfBytes (List.intercalate [c] ts)
  | [], _ => ofBytes_nil
  | [t], h => by
    rw [List.intercalate_singleton]
    exact h t List.mem_cons_self
  | s :: t :: ts, h => by
    have ih := ofBytes_intercalate hc fun u hu => h u (List.mem_cons_of_mem s hu)
    rw [List.intercalate_cons_cons, List.append_assoc]
    exact (h s List.mem_cons_self).append_cons hc ih

end Locus.Utf8
