import Locus.Proofs.Reader.Failure
import Locus.Proofs.Span.Grammar

/-!
Exactly where reading spans fails. A numeral is turned into a number before what follows it is looked
at; so reading fails if, at the start of the text or behind a colon, the text goes like a place up to
some numeral and this numeral is beyond the limit, whether or not the place goes on behind it. On
every other text it answers.
-/

namespace Locus.Span

open Decimal (IsNumeral maxDigits)
open Reader (FailsOn)
open Grammar (single)

variable {ds rest t : Text} {C D : Text → Prop}

/-! ### Approaches -/

/-- A run of digits within the limit. -/
structure Readable (ds : Text) : Prop where
  ne_nil : ds ≠ []
  digits : ∀ c ∈ ds, c.isDigit
  length_le : ds.length ≤ maxDigits

/-- What of a place can stand before one of its numerals, each numeral in it within the limit and
ended by the mark behind it. -/
inductive Approach : Text → Prop where
  | line : Approach []
  | column {l : Text} : Readable l → Approach (l ++ ":")
  | last {l c : Text} : Readable l → Readable c → Approach (l ++ ":" ++ c ++ "-")
  | blockLine : Approach "("
  | blockColumn {l : Text} : Readable l → Approach ("(" ++ l ++ ",")
  | blockLastLine {l c : Text} : Readable l → Readable c → Approach ("(" ++ l ++ "," ++ c ++ ")-(")
  | blockLastColumn {l c m : Text} : Readable l → Readable c → Readable m →
      Approach ("(" ++ l ++ "," ++ c ++ ")-(" ++ m ++ ",")

/-- A numeral beyond the limit comes first. -/
def Overlong (t : Text) : Prop := ∃ ds rest, numeral ds t rest ∧ maxDigits < ds.length

/-- An approach comes first, and behind it a numeral beyond the limit. -/
def Reaches (t : Text) : Prop := ∃ pre u, t = pre ++ u ∧ Approach pre ∧ Overlong u

/-- At the start of the text or behind a colon, a numeral beyond the limit is approached. -/
def Stumbles (t : Text) : Prop := ∃ f u, t = Reading.opening f ++ u ∧ Reaches u

/-! ### The texts on which the parts fail -/

/-- A numeral comes first that is beyond the limit, or one that a text of the class follows. -/
def Halts (C : Text → Prop) (t : Text) : Prop := Overlong t ∨ numeral.leadsTo C t

/-- On a line, one of up to three numerals is beyond the limit. -/
def LineHalts : Text → Prop :=
  Halts <| (single ':').leadsTo <| Halts <| (single '-').leadsTo Overlong

/-- Behind a parenthesis, a numeral is beyond the limit, or a comma and a text of the class follow it. -/
def PointHalts (C : Text → Prop) : Text → Prop :=
  (single '(').leadsTo <| Halts <| (single ',').leadsTo C

/-- Over several lines, one of up to four numerals is beyond the limit. -/
def BlockHalts : Text → Prop :=
  PointHalts <| Halts <| (single ')').leadsTo <| (single '-').leadsTo <| PointHalts Overlong

theorem failsOn_natural : natural.FailsOn Overlong := by
  have hlong : ∀ ds, (∃ e, Decimal.read ds = .error e) ↔ maxDigits < ds.length := by
    simp [Decimal.read_eq_error_iff]
  have hread := (Reader.failsOn_run1 CodePoint.isDigit).tryMap
    (Reader.enumerates_run1 CodePoint.isDigit) hlong
  refine (hread.map _).congr ?_
  intro t
  simp only [false_or, Overlong, numeral, Decimal.isNumeral_iff, Grammar.longest]

theorem failsOn_last :
    (((Reader.char '-').keepRight (natural.map some)).optional none).FailsOn
      ((single '-').leadsTo Overlong) := by
  have hdash := (Reader.failsOn_char '-').keepRight (Reader.enumerates_char '-')
    (failsOn_natural.map some)
  exact (hdash.optional none).congr fun _ => iff_of_eq (false_or _)

theorem leadsTo_halts {σ : Type} {G : Grammar σ} : G.leadsTo (Halts C) =
    fun t => G.leadsTo Overlong t ∨ G.leadsTo (numeral.leadsTo C) t :=
  Grammar.leadsTo_or

theorem leadsTo_pointed : pointed.leadsTo C = ((single '(').leadsTo <| numeral.leadsTo <|
    (single ',').leadsTo <| numeral.leadsTo <| (single ')').leadsTo C) := by
  funext t
  refine propext ⟨?_, ?_⟩
  · rintro ⟨⟨l, c⟩, rest, ⟨rfl, hl, hc⟩, hC⟩
    exact ⟨(), _, rfl, l, _, ⟨rfl, hl⟩, (), _, rfl, c, _, ⟨rfl, hc⟩, (), rest, rfl, hC⟩
  · rintro ⟨_, _, rfl, l, _, ⟨rfl, hl⟩, _, _, rfl, c, _, ⟨rfl, hc⟩, _, rest, rfl, hC⟩
    exact ⟨(l, c), rest, ⟨rfl, hl, hc⟩, hC⟩

theorem failsOn_point : point.FailsOn (PointHalts Overlong) := by
  have hchar := Reader.failsOn_char
  have hinner := (failsOn_natural.keepLeft_of_never (hchar ',')).pair
    (enumerates_natural.keepLeft (Reader.enumerates_char ',')) failsOn_natural
  have hopen := (hchar '(').keepRight (Reader.enumerates_char '(')
    (hinner.map fun s => (⟨s.1, s.2⟩ : Loc))
  refine (hopen.keepLeft_of_never (hchar ')')).congr ?_
  intro t
  simp only [false_or, Grammar.leadsTo_followedBy, Grammar.leadsTo_or, PointHalts, leadsTo_halts]

/-! ### The texts on which reading fails -/

variable {file : Reader Text} {F : Grammar (Option Text)} {R : Option Text → Option Text → Prop}
  {v : Option Text → Text}

theorem failsOn_onLine (hfile : file.FailsOn fun _ => False) (hF : file.Enumerates F R v) :
    (onLine file).FailsOn (F.leadsTo LineHalts) := by
  have hline := enumerates_natural.keepLeft (Reader.enumerates_char ':')
  have h := ((hfile.pair hF (failsOn_natural.keepLeft_of_never (Reader.failsOn_char ':'))).pair
    (hF.pair hline) failsOn_natural).pair ((hF.pair hline).pair enumerates_natural) failsOn_last
  refine (h.map _).congr ?_
  intro t
  simp only [false_or, Grammar.leadsTo_followedBy, Grammar.leadsTo_or, LineHalts, leadsTo_halts,
    or_assoc]

theorem failsOn_onLines (hfile : file.FailsOn fun _ => False) (hF : file.Enumerates F R v) :
    (onLines file).FailsOn (F.leadsTo BlockHalts) := by
  have h := ((hfile.pair hF failsOn_point).pair_of_never (Reader.failsOn_char '-')).pair
    ((hF.pair enumerates_point).pair (Reader.enumerates_char '-')) failsOn_point
  refine (h.map _).congr ?_
  intro t
  simp only [false_or, Grammar.leadsTo_followedBy, Grammar.leadsTo_or, leadsTo_pointed, BlockHalts,
    PointHalts, leadsTo_halts, or_assoc]

theorem failsOn_located (hfile : file.FailsOn fun _ => False) (hF : file.Enumerates F R v) :
    (located file).FailsOn (F.leadsTo fun t => LineHalts t ∨ BlockHalts t) := by
  rw [Grammar.leadsTo_or]
  exact (failsOn_onLine hfile hF).either (failsOn_onLines hfile hF)

/-! ### Failing by approaches -/

/-- A numeral in front of a mark may as well be taken to be within the limit: beyond it, it halts. -/
theorem halts_iff {c : CodePoint} (hc : ¬c.isDigit) : Halts ((single c).leadsTo C) t ↔
    Overlong t ∨ ∃ l r, Readable l ∧ t = l ++ c :: r ∧ C r := by
  constructor
  · rintro (h | ⟨l, _, ⟨rfl, hl⟩, _, r, rfl, hC⟩)
    · exact .inl h
    · rcases Nat.lt_or_ge maxDigits l.length with hlen | hlen
      · exact .inl ⟨l, _, ⟨rfl, hl⟩, hlen⟩
      · exact .inr ⟨l, r, ⟨hl.ne_nil, hl.digits, hlen⟩, rfl, hC⟩
  · rintro (h | ⟨l, r, hl, rfl, hC⟩)
    · exact .inl h
    · have hnum : IsNumeral l (c :: r) := ⟨hl.ne_nil, hl.digits, by simpa using hc⟩
      exact .inr ⟨l, _, ⟨rfl, hnum⟩, (), r, rfl, hC⟩

theorem reaches_of_lineHalts (h : LineHalts t) : Reaches t := by
  simp (disch := decide) only [LineHalts, halts_iff] at h
  rcases h with h | ⟨l, _, hl, rfl, h | ⟨c, r, hc, rfl, h⟩⟩
  · exact ⟨_, _, rfl, .line, h⟩
  · exact ⟨_, _, by simp [Text.ofString], .column hl, h⟩
  · exact ⟨_, _, by simp [Text.ofString], .last hl hc, h⟩

theorem reaches_of_blockHalts (h : BlockHalts t) : Reaches t := by
  simp (disch := decide) only [BlockHalts, PointHalts, Grammar.leadsTo_single, halts_iff] at h
  obtain ⟨_, rfl, h | ⟨l, _, hl, rfl, h | ⟨c, _, hc, rfl, _, rfl, _, rfl, h⟩⟩⟩ := h
  · exact ⟨_, _, rfl, .blockLine, h⟩
  · exact ⟨_, _, by simp [Text.ofString], .blockColumn hl, h⟩
  · rcases h with h | ⟨m, r, hm, rfl, h⟩
    · exact ⟨_, _, by simp [Text.ofString], .blockLastLine hl hc, h⟩
    · exact ⟨_, _, by simp [Text.ofString], .blockLastColumn hl hc hm, h⟩

/-- Each approach says which numeral it is that halts. -/
theorem halts_of_reaches (h : Reaches t) : LineHalts t ∨ BlockHalts t := by
  obtain ⟨pre, u, rfl, hpre, hover⟩ := h
  simp (disch := decide) only [LineHalts, BlockHalts, PointHalts, Grammar.leadsTo_single, halts_iff]
  cases hpre with
  | line => exact .inl (.inl hover)
  | column hl => exact .inl (.inr ⟨_, _, hl, by simp [Text.ofString], .inl hover⟩)
  | last hl hc =>
    exact .inl (.inr ⟨_, _, hl, by simp [Text.ofString], .inr ⟨_, _, hc, rfl, hover⟩⟩)
  | blockLine => exact .inr ⟨_, rfl, .inl hover⟩
  | blockColumn hl => exact .inr ⟨_, rfl, .inr ⟨_, _, hl, by simp [Text.ofString], .inl hover⟩⟩
  | blockLastLine hl hc =>
    exact .inr ⟨_, rfl, .inr ⟨_, _, hl, by simp [Text.ofString],
      .inr ⟨_, _, hc, rfl, _, rfl, _, rfl, .inl hover⟩⟩⟩
  | blockLastColumn hl hc hm =>
    exact .inr ⟨_, rfl, .inr ⟨_, _, hl, by simp [Text.ofString],
      .inr ⟨_, _, hc, rfl, _, rfl, _, rfl, .inr ⟨_, _, hm, rfl, hover⟩⟩⟩⟩

theorem halts_iff_reaches : LineHalts t ∨ BlockHalts t ↔ Reaches t :=
  ⟨fun h => h.elim reaches_of_lineHalts reaches_of_blockHalts, halts_of_reaches⟩

/-- An approach and the numeral behind it open with a digit or a parenthesis. -/
theorem Reaches.startsPlace (h : Reaches t) : StartsPlace t := by
  obtain ⟨pre, _, rfl, hpre, ds, rest, ⟨rfl, hds⟩, -⟩ := h
  have hstart : ∀ {l : Text}, Readable l → ∀ u, StartsPlace (l ++ u) := by
    rintro l hl u
    exact startsPlace_of_isNumeral (s := []) ⟨hl.ne_nil, hl.digits, nofun⟩ u
  cases hpre with
  | line => exact startsPlace_of_isNumeral hds rest
  | column hl => simpa using hstart hl _
  | last hl => simpa using hstart hl _
  | blockLine | blockColumn | blockLastLine | blockLastColumn => rfl

/-- Where a numeral is approached a place can start, so the colon before it ends a file. -/
theorem leadsTo_reaches_iff :
    (Grammar.before ':' (some opensPlace)).optional.leadsTo Reaches t ↔ Stumbles t := by
  have hfollow : ∀ t, StartsPlace t → Reader.allows (some opensPlace) t := fun _ ht => ht
  refine exists_congr fun f => exists_congr fun u => ?_
  refine and_congr_left fun hu => ?_
  exact optional_before_iff hfollow hu.startsPlace

theorem fails_read_iff : (located fileName).Fails t ↔ Stumbles t := by
  have hfile : fileName.FailsOn fun _ => False := (Reader.failsOn_upTo ':' _).optional []
  rw [failsOn_located hfile (enumerates_file (some opensPlace)) t, ← leadsTo_reaches_iff]
  simp only [halts_iff_reaches]

theorem exists_read_iff_not_stumbles : (∃ as, read t = .ok as) ↔ ¬Stumbles t := by
  rw [← fails_read_iff]
  constructor
  · rintro ⟨as, has⟩ ⟨e, he⟩
    cases has.symm.trans he
  · intro h
    cases hr : read t with
    | ok as => exact ⟨as, rfl⟩
    | error e => exact absurd ⟨e, hr⟩ h

/-- Reading fails if and only if a numeral beyond the limit is approached, at the start of the text
or behind a colon; it fails in no other way than by saying how long a numeral is, and on every other
text it answers. -/
theorem read_fails_iff_stumbles (t : Text) :
    ((∃ e, read t = .error e) ↔ Stumbles t) ∧
      (∀ e, read t = .error e → ∃ n, maxDigits < n ∧ e = .numeralTooLong n) ∧
      ((∃ as, read t = .ok as) ↔ ¬Stumbles t) := by
  refine ⟨fails_read_iff, ?_, exists_read_iff_not_stumbles⟩
  intro e he
  obtain ⟨_, ds, _, -, -, hlen, rfl⟩ := longNumeral_of_read_eq_error he
  exact ⟨_, hlen, rfl⟩

/-- The second numeral of a point is too long, and the parenthesis is not even closed. -/
theorem read_fails_iff_stumbles_of_point :
    Stumbles ("a:(1," ++ (List.replicate 4301 (CodePoint.ofChar '1') ++ "x")) ∧
      (∃ e, read ("a:(1," ++ (List.replicate 4301 (CodePoint.ofChar '1') ++ "x")) = .error e) := by
  have hone : Readable "1" := ⟨by decide, by decide, by decide⟩
  have hlen : maxDigits < (List.replicate 4301 (CodePoint.ofChar '1')).length := by
    rw [List.length_replicate]
    decide
  have h : Stumbles ("a:(1," ++ (List.replicate 4301 (CodePoint.ofChar '1') ++ "x")) :=
    ⟨some "a", _, rfl, _, _, rfl, .blockColumn hone, _, "x",
      ⟨rfl, isNumeral_replicate (by decide) (by decide)⟩, hlen⟩
  exact ⟨h, (read_fails_iff_stumbles _).1.mpr h⟩

end Locus.Span
