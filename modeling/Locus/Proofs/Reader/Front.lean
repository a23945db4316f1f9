import Locus.Proofs.Reader.Outcome
import Locus.Reader.Term

/-!
What readers take. However readers are put together, and be it from what was read before, each answer
has taken the front of the text, and what it leaves over is the rest of the text as it stood there.
-/

namespace Locus

namespace Reader

/-- The reader that was to be put together, or the fault that it ended in. -/
def ofExcept {α : Type} (x : Except Fault (Reader α)) : Reader α := fun t => do (← x).run t

/-- Readers that are put together from the ones that read code points, in any nesting. -/
inductive Built : {α : Type} → Reader α → Prop
  | unit {α : Type} (a : α) : Built (unit a)
  | satisfy (f : CodePoint → Bool) : Built (satisfy f)
  | char (c : CodePoint) : Built (char c)
  | run1 (f : CodePoint → Bool) : Built (run1 f)
  | upTo (sep : CodePoint) (follow : Option (CodePoint → Bool)) : Built (upTo sep follow)
  | optional {α : Type} {p : Reader α} (a : α) : Built p → Built (p.optional a)
  | enclosed {α β γ : Type} {p : Reader α} {q : Reader β} {r : Reader γ} :
      Built p → Built q → Built r → Built (p.enclosed q r)
  | inTurn {α : Type} {ps : List (Reader α)} : (∀ p ∈ ps, Built p) → Built (inTurn ps)
  | either {α : Type} {p q : Reader α} : Built p → Built q → Built (p.either q)
  | keepRight {α β : Type} {p : Reader α} {q : Reader β} :
      Built p → Built q → Built (p.keepRight q)
  | keepLeft {α β : Type} {p : Reader α} {q : Reader β} : Built p → Built q → Built (p.keepLeft q)
  | map {α β : Type} {p : Reader α} (f : α → β) : Built p → Built (p.map f)
  /-- A value may be refused. -/
  | tryMap {α β : Type} {p : Reader α} (f : α → Except Fault β) : Built p → Built (p.tryMap f)
  | bind {α β : Type} {p : Reader α} {f : α → Reader β} :
      Built p → (∀ a, Built (f a)) → Built (p.bind f)
  /-- A reader that is put together while another one runs may end in a fault. -/
  | ofExcept {α : Type} {x : Except Fault (Reader α)} :
      (∀ p, x = .ok p → Built p) → Built (ofExcept x)

section
variable {α β γ : Type} {p : Reader α} {q : Reader β} {r : Reader γ} {cause : Text → Fault → Prop}

theorem Tame.enclosed (hc : Inherited cause) (hp : Tame cause p) (hq : Tame cause q)
    (hr : Tame cause r) : Tame cause (p.enclosed q r) :=
  (hp.keepRight hc hr).keepLeft hc hq

theorem Tame.inTurn {ps : List (Reader α)} (hc : Inherited cause) (h : ∀ p ∈ ps, Tame cause p) :
    Tame cause (inTurn ps) := by
  refine List.foldlRecOn ps _ (tame_unit []) ?_
  intro acc hacc p hp
  exact hacc.bind hc fun as => (h p hp).map _

/-- No more is said of faults than that they may come. -/
theorem Built.tame (h : Built p) : Tame (fun _ _ => True) p := by
  have hc : Inherited fun _ _ => True := fun _ _ _ _ _ => trivial
  induction h with
  | unit a => exact tame_unit a
  | satisfy f => exact tame_satisfy f
  | char c => exact tame_satisfy _
  | run1 f => exact tame_run1 f
  | upTo sep follow => exact tame_upTo sep follow
  | optional a _ ih => exact ih.optional a
  | enclosed _ _ _ hp hq hr => exact hp.enclosed hc hq hr
  | inTurn _ ih => exact .inTurn hc ih
  | either _ _ hp hq => exact hp.either hq
  | keepRight _ _ hp hq => exact hp.keepRight hc hq
  | keepLeft _ _ hp hq => exact hp.keepLeft hc hq
  | map f _ ih => exact ih.map f
  | tryMap f _ ih => exact ih.tryMap fun _ _ _ _ _ => trivial
  | bind _ _ hp hf => exact hp.bind hc hf
  | @ofExcept _ x _ ih =>
    refine ⟨fun {t as} h => ?_, fun _ => trivial⟩
    obtain ⟨p, hx, hrun⟩ := bind_eq_ok_iff.mp h
    exact (ih p hx).suffix hrun

end

/-! ### Readers of terms -/

/-- The reader that reads nothing at all. -/
theorem built_nothing : Built (fun _ => .ok [] : Reader Value) := by
  -- No code point is of the empty class.
  have h : (fun _ => .ok [] : Reader Value) = (Reader.satisfy fun _ => false).map fun _ => .null := by
    funext t
    cases t <;> rfl
  rw [h]
  exact .map _ (.satisfy _)

theorem built_charOf {t : Text} {r : Reader Value} (h : charOf t = .ok r) : Built r := by
  unfold charOf at h
  split at h
  · cases h
    exact .map _ (.char _)
  · cases h

theorem built_upToText {sep : Text} {follow : Option CharClass} {r : Reader Value}
    (h : upToText sep follow = .ok r) : Built r := by
  unfold upToText at h
  split at h
  · cases h
    exact .map _ (.upTo _ _)
  · cases h

theorem built_charOfValue (v : Value) : Built (charOfValue v) := by
  cases v with
  | text t => exact .ofExcept fun _ => built_charOf
  | int i => exact built_nothing
  | null => exact built_nothing
  | list vs => exact built_nothing

theorem built_times {body : Except Fault Operand} (h : ∀ op, body = .ok op → Built op.toReader)
    (v : Value) : Built (times body v) := by
  cases v with
  | int n =>
    -- The body is put together when it runs, so its fault comes then.
    have hbody : times body (.int n) = ofExcept (body.map fun op =>
        (inTurn (List.replicate n.toNat op.toReader)).map .list) := by
      funext t
      cases body <;> rfl
    rw [hbody]
    refine .ofExcept fun p hp => ?_
    obtain ⟨op, hop, rfl⟩ := map_eq_ok_iff.mp hp
    refine .map _ (.inTurn fun q hq => ?_)
    rw [List.eq_of_mem_replicate hq]
    exact h op hop
  | text t => exact built_nothing
  | null => exact built_nothing
  | list vs => exact built_nothing

theorem built_join {joint : Joint} {left right op : Operand} (hl : Built left.toReader)
    (hr : Built right.toReader) (h : Operand.join joint left right = .ok op) :
    Built op.toReader := by
  unfold Operand.join at h
  split at h
  · cases h
    cases joint with
    | either => exact .either hl hr
    | keepRight => exact .keepRight hl hr
    | keepLeft => exact .keepLeft hl hr
  · cases h

end Reader

namespace Term

open Reader (Built)

mutual

/-- A term describes a reader that is built from the readers of its parts. -/
theorem built_build : ∀ (term : Term) {op : Operand}, term.build = .ok op → Built op.toReader
  | .unit v, op, h => by
    cases h
    exact .unit v
  | .satisfy p, op, h => by
    cases h
    exact .map _ (.satisfy _)
  | .char t, op, h => by
    obtain ⟨r, hr, rfl⟩ := map_eq_ok_iff.mp h
    exact Reader.built_charOf hr
  | .run1 p, op, h => by
    cases h
    exact .map _ (.run1 _)
  | .upTo sep follow, op, h => by
    obtain ⟨r, hr, rfl⟩ := map_eq_ok_iff.mp h
    exact Reader.built_upToText hr
  | .optional v of, op, h => by
    obtain ⟨p, hp, hjoin⟩ := bind_eq_ok_iff.mp h
    have hunit : Built (Operand.reader (.unit v)).toReader := .unit v
    exact Reader.built_join (built_build of hp) hunit hjoin
  | .enclosed opening closing of, op, h => by
    obtain ⟨o, ho, h⟩ := bind_eq_ok_iff.mp h
    obtain ⟨c, hc, h⟩ := bind_eq_ok_iff.mp h
    obtain ⟨p, hp, h⟩ := bind_eq_ok_iff.mp h
    obtain ⟨front, hfront, hjoin⟩ := bind_eq_ok_iff.mp h
    have hopened := Reader.built_join (built_build opening ho) (built_build of hp) hfront
    exact Reader.built_join hopened (built_build closing hc) hjoin
  | .inTurn of, op, h => by
    obtain ⟨rs, hrs, h⟩ := bind_eq_ok_iff.mp h
    cases h
    refine .map _ (.inTurn fun p hp => ?_)
    obtain ⟨r, hr, rfl⟩ := List.mem_map.mp hp
    exact built_buildAll of hrs r hr
  | .joined joint left right, op, h => by
    obtain ⟨l, hl, h⟩ := bind_eq_ok_iff.mp h
    obtain ⟨r, hr, hjoin⟩ := bind_eq_ok_iff.mp h
    exact Reader.built_join (built_build left hl) (built_build right hr) hjoin
  | .map of change, op, h => by
    obtain ⟨p, hp, h⟩ := bind_eq_ok_iff.mp h
    cases h
    exact .tryMap _ (built_build of hp)
  | .charOf of, op, h => by
    obtain ⟨p, hp, h⟩ := bind_eq_ok_iff.mp h
    cases h
    exact .bind (built_build of hp) Reader.built_charOfValue
  | .twice of, op, h => by
    obtain ⟨p, hp, h⟩ := bind_eq_ok_iff.mp h
    cases h
    exact .bind (built_build of hp) fun v => .unit (Value.list [v, v])
  | .repeated count body, op, h => by
    obtain ⟨p, hp, h⟩ := bind_eq_ok_iff.mp h
    cases h
    exact .bind (built_build count hp) (Reader.built_times fun _ => built_build body)
  | .plain v, op, h => by
    cases h
    exact Reader.built_nothing

theorem built_buildAll : ∀ (terms : List Term) {rs : List Operand}, buildAll terms = .ok rs →
    ∀ r ∈ rs, Built r.toReader
  | [], rs, h => by
    cases h
    exact List.forall_mem_nil _
  | term :: terms, rs, h => by
    obtain ⟨r, hr, h⟩ := bind_eq_ok_iff.mp h
    obtain ⟨rs, hrs, h⟩ := bind_eq_ok_iff.mp h
    cases h
    exact List.forall_mem_cons.mpr ⟨built_build term hr, built_buildAll terms hrs⟩

end

end Term

/-- Wherever a reader answers that is put together in any way, or that a term describes, each answer
has taken the front of the text and leaves over the rest. -/
theorem Reader.built_takes_front :
    (∀ {α : Type} {p : Reader α}, p.Built → ∀ {t as}, p.run t = .ok as →
        ∀ a ∈ as, ∃ taken, t = taken ++ a.2) ∧
      ∀ (term : Term) {t as}, term.read t = .ok as → ∀ a ∈ as, ∃ taken, t = taken ++ a.2 := by
  have hbuilt : ∀ {α : Type} {p : Reader α}, p.Built → ∀ {t as}, p.run t = .ok as →
      ∀ a ∈ as, ∃ taken, t = taken ++ a.2 := by
    intro α p hp t as has a ha
    obtain ⟨taken, htaken⟩ := hp.tame.suffix has a ha
    exact ⟨taken, htaken.symm⟩
  refine ⟨hbuilt, ?_⟩
  intro term t as has
  obtain ⟨op, hop, hrun⟩ := bind_eq_ok_iff.mp has
  exact hbuilt (term.built_build hop) hrun

/-- As many code points as a number says, written in two ways. -/
theorem Reader.built_takes_front_of_count :
    let count := (run1 CodePoint.isDigit).tryMap Decimal.read
    let counted := count.bind fun n => inTurn (List.replicate n (satisfy fun _ => true))
    let term := Term.repeated (.map (.run1 .digit) .number) (.satisfy .any)
    counted.Built ∧ (∀ a ∈ [(("ab" : Text), ("c" : Text))], ∃ taken, ("2abc" : Text) = taken ++ a.2) ∧
      ∃ as, term.read "2abc" = .ok as ∧ ∀ a ∈ as, ∃ taken, "2abc" = taken ++ a.2 := by
  intro count counted term
  have hcounted : counted.Built := by
    refine .bind (.tryMap _ (.run1 _)) fun n => .inTurn fun p hp => ?_
    rw [List.eq_of_mem_replicate hp]
    exact .satisfy _
  have hrun : counted.run "2abc" = .ok [("ab", "c")] := rfl
  refine ⟨hcounted, built_takes_front.1 hcounted hrun, _, rfl, ?_⟩
  exact built_takes_front.2 term rfl

end Locus
