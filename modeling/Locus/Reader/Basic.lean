import Locus.Fault.Basic

/-!
Readers. A reader answers with every way in which it can read the front of a text, each with what it
leaves over, in a fixed order; no answer means that it cannot. A reader that follows another is run
after all answers of the first are known, on each in turn, and the first fault ends everything.
-/

namespace Locus

/-- Reads the front of a text in every possible way. -/
def Reader (α : Type) := Text → Except Fault (List (α × Text))

/-- The answers to each element in turn, joined; the first fault ends it. -/
def collect {α β : Type} (f : α → Except Fault (List β)) : List α → Except Fault (List β)
  | [] => .ok []
  | a :: l => do
    let bs ← f a
    let cs ← collect f l
    return bs ++ cs

namespace Reader

variable {α β γ : Type}

/-- The answers of a reader on a text. -/
def run (p : Reader α) (t : Text) : Except Fault (List (α × Text)) := p t

/-! ### Joining readers -/

/-- Reads nothing and answers `a`. -/
def unit (a : α) : Reader α := fun t => .ok [(a, t)]

/-- Reads with `p`, then with the reader that its value calls for. -/
def bind (p : Reader α) (f : α → Reader β) : Reader β := fun t => do
  collect (fun (a, rest) => (f a).run rest) (← p.run t)

/-- The values of `p` under `f`, which may refuse one. -/
def tryMap (f : α → Except Fault β) (p : Reader α) : Reader β := fun t => do
  collect (fun (a, rest) => (f a).map fun b => [(b, rest)]) (← p.run t)

/-- The values of `p` under `f`. -/
def map (f : α → β) (p : Reader α) : Reader β := p.tryMap fun a => .ok (f a)

/-- The answers of `p`, then those of `q`. -/
def either (p q : Reader α) : Reader α := fun t => do
  let as ← p.run t
  let bs ← q.run t
  return as ++ bs

/-- Reads with `p`, then with `q`, and keeps the value of `q`. -/
def keepRight (p : Reader α) (q : Reader β) : Reader β := p.bind fun _ => q

/-- Reads with `p`, then with `q`, and keeps the value of `p`. -/
def keepLeft (p : Reader α) (q : Reader β) : Reader α := p.bind fun a => q.map fun _ => a

/-- Reads with `p`, then with `q`, and keeps both values. -/
def pair (p : Reader α) (q : Reader β) : Reader (α × β) := p.bind fun a => q.map fun b => (a, b)

/-- Reads with `p` or not at all; the value is then `a`. Both answers are kept. -/
def optional (a : α) (p : Reader α) : Reader α := p.either (unit a)

/-- Reads with `p` between two readers whose values are dropped. -/
def enclosed (opening : Reader α) (closing : Reader β) (p : Reader γ) : Reader γ :=
  (opening.keepRight p).keepLeft closing

/-- Reads with each reader in turn and keeps all values. -/
def inTurn (ps : List (Reader α)) : Reader (List α) :=
  ps.foldl (fun acc p => acc.bind fun as => p.map fun a => as ++ [a]) (unit [])

/-! ### Reading code points -/

/-- Reads one code point of the class. -/
def satisfy (p : CodePoint → Bool) : Reader CodePoint
  | c :: t => .ok (if p c then [(c, t)] else [])
  | [] => .ok []

/-- Reads the code point `c`. -/
def char (c : CodePoint) : Reader CodePoint := satisfy (· = c)

/-- Reads the longest run of code points of the class, at least one. -/
def run1 (p : CodePoint → Bool) : Reader Text := fun t =>
  match t.takeWhile p with
  | [] => .ok []
  | ds => .ok [(ds, t.dropWhile p)]

/-- A code point comes next, and it is of the class if one is asked for. -/
def allows (follow : Option (CodePoint → Bool)) (t : Text) : Bool :=
  match follow with
  | none => true
  | some p => t.head?.any p

/-- The two sides of each separator that is followed as asked, leftmost first. -/
def cuts (sep : CodePoint) (follow : Option (CodePoint → Bool)) : Text → List (Text × Text)
  | [] => []
  | c :: t =>
    let later := (cuts sep follow t).map fun (before, after) => (c :: before, after)
    if c = sep ∧ allows follow t then ([], t) :: later else later

/-- Reads up to a separator and past it, for each separator that is followed as asked. -/
def upTo (sep : CodePoint) (follow : Option (CodePoint → Bool)) : Reader Text :=
  fun t => .ok (cuts sep follow t)

/-! ### Answers -/

/-- The values of the answers that leave nothing over. -/
def whole (answers : List (α × Text)) : List α :=
  (answers.filter (·.2 = [])).map (·.1)

end Reader

end Locus
