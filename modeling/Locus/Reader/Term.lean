import Locus.Reader.Basic
import Locus.Text.Decimal

/-!
Readers written as data. A term is built into a reader before any text is seen; building fails where
a reader of one code point is told more or fewer, and where a joint has an operand that is no reader.
The parts of a term are built before the whole, from left to right, except the body of a repetition,
which is built when it runs.
-/

namespace Locus

/-- What the reader of a term answers: texts, integers, nothing, and lists of these. -/
inductive Value where
  | text (t : Text)
  | int (i : Int)
  | null
  | list (vs : List Value)

/-- A class of code points. -/
inductive CharClass where
  | digit
  | any
  | among (cs : Text)
  | except (cs : Text)

/-- The code points of a class. -/
def CharClass.holds : CharClass → CodePoint → Bool
  | .digit, c => c.isDigit
  | .any, _ => true
  | .among cs, c => c ∈ cs
  | .except cs, c => c ∉ cs

/-- A change made to a value. -/
inductive Change where
  | number
  | length
  | wrap
  | const (v : Value)

/-- The value after a change. A number is read from digits only and a length taken of a text or a list;
a value of another class stays. -/
def Change.apply : Change → Value → Except Fault Value
  | .number, .text t => (Decimal.read t).map fun n => .int n
  | .length, .text t => .ok (.int t.length)
  | .length, .list vs => .ok (.int vs.length)
  | .wrap, v => .ok (.list [v])
  | .const w, _ => .ok w
  | _, v => .ok v

/-- A reader as data, or a plain value in the place of one. -/
inductive Term where
  | unit (v : Value)
  | satisfy (p : CharClass)
  | char (t : Text)
  | run1 (p : CharClass)
  | upTo (sep : Text) (follow : Option CharClass)
  | optional (default : Value) (of : Term)
  | enclosed (opening closing of : Term)
  | inTurn (of : List Term)
  | joined (joint : Joint) (left right : Term)
  | map (of : Term) (change : Change)
  | charOf (of : Term)
  | twice (of : Term)
  | repeated (count body : Term)
  | plain (v : Value)

/-- What a term is built into. -/
inductive Operand where
  | reader (r : Reader Value)
  | plain (v : Value)

namespace Operand

/-- The class of an operand. -/
def kind : Operand → OperandKind
  | .reader _ => .reader
  | .plain (.text _) => .text
  | .plain (.int _) => .int
  | .plain .null => .null
  | .plain (.list _) => .list

/-- The reader that an operand is; a plain value reads nothing at all. -/
def toReader : Operand → Reader Value
  | .reader r => r
  | .plain _ => fun _ => .ok []

/-- The joint of two readers; it is a fault if either is none. -/
def join (joint : Joint) (left right : Operand) : Except Fault Operand :=
  match left, right with
  | .reader p, .reader q =>
    .ok <| .reader <| match joint with
      | .either => p.either q
      | .keepRight => p.keepRight q
      | .keepLeft => p.keepLeft q
  | _, _ => .error (.operands joint left.kind right.kind)

end Operand

namespace Reader

/-- The reader of the one code point of a text. -/
def charOf (t : Text) : Except Fault (Reader Value) :=
  match t with
  | [c] => .ok ((char c).map fun c => .text [c])
  | _ => .error (.notSingle .char t)

/-- The reader up to the one code point of a text. -/
def upToText (sep : Text) (follow : Option CharClass) : Except Fault (Reader Value) :=
  match sep with
  | [c] => .ok ((upTo c (follow.map (·.holds))).map .text)
  | _ => .error (.notSingle .upTo sep)

/-- Reads the code point that a value spells. -/
def charOfValue : Value → Reader Value
  | .text t => fun s => do (← charOf t).run s
  | _ => fun _ => .ok []

/-- Reads with `body` as often as a value says, and keeps all values. -/
def times (body : Except Fault Operand) : Value → Reader Value
  | .int n => fun s => do
    let r := (← body).toReader
    ((inTurn (List.replicate n.toNat r)).map .list).run s
  | _ => fun _ => .ok []

end Reader

namespace Term

mutual

/-- The reader that a term describes. -/
def build : Term → Except Fault Operand
  | .unit v => .ok (.reader (.unit v))
  | .satisfy p => .ok (.reader ((Reader.satisfy p.holds).map fun c => .text [c]))
  | .char t => (Reader.charOf t).map .reader
  | .run1 p => .ok (.reader ((Reader.run1 p.holds).map .text))
  | .upTo sep follow => (Reader.upToText sep follow).map .reader
  | .optional v of => do Operand.join .either (← build of) (.reader (.unit v))
  | .enclosed opening closing of => do
    let opening ← build opening
    let closing ← build closing
    let of ← build of
    Operand.join .keepLeft (← Operand.join .keepRight opening of) closing
  | .inTurn of => do
    let rs ← buildAll of
    return .reader ((Reader.inTurn (rs.map (·.toReader))).map .list)
  | .joined joint left right => do
    let left ← build left
    let right ← build right
    Operand.join joint left right
  | .map of change => do return .reader ((← build of).toReader.tryMap change.apply)
  | .charOf of => do return .reader ((← build of).toReader.bind Reader.charOfValue)
  | .twice of => do
    return .reader ((← build of).toReader.bind fun v => .unit (.list [v, v]))
  | .repeated count body => do
    return .reader ((← build count).toReader.bind (Reader.times (build body)))
  | .plain v => .ok (.plain v)

/-- The readers that a list of terms describes. -/
def buildAll : List Term → Except Fault (List Operand)
  | [] => .ok []
  | t :: ts => do
    let r ← build t
    let rs ← buildAll ts
    return r :: rs

end

/-- All answers of the reader that a term describes. -/
def read (term : Term) (t : Text) : Except Fault (List (Value × Text)) := do
  (← term.build).toReader.run t

end Term

end Locus
