import LoopTuner.Search.Meter

/-!
Cost models: evaluators that compute a cost instead of measuring one. A model answers its first calls
from a script, programs that it knows from a table, and all others by a rule.
-/

namespace LoopTuner

/-- What cost models look at in a program. -/
structure Features (κ P : Type) where
  /-- Whether a key of the table means this program. -/
  isMeant : κ → P → Bool
  /-- A spelling of the program in numbers. -/
  digits : P → List Nat
  /-- An estimate of the work that the program does. -/
  work : P → Float

inductive CostRule where
  | constant (answer : Except String Float)
  /-- `base`, less one for each transformation. -/
  | depth (base : Float)
  /-- A polynomial in `factor` of the digits modulo `modulus`, divided by `unit`. -/
  | spelling (factor start modulus : Nat) (unit : Float)
  | work

structure CostModel (κ : Type) where
  script : List (Except String Float)
  table : List (κ × Except String Float)
  rule : CostRule

namespace CostModel

variable {κ P T ε : Type}

/-- The value of digits as a polynomial modulo `modulus`. -/
def spellingValue (factor start modulus : Nat) (digits : List Nat) : Nat :=
  digits.foldl (fun h digit => (h * factor + digit + 1) % modulus) start

def ruleAnswer (features : Features κ P) (rule : CostRule) (node : Node P T) :
    Except String Float :=
  match rule with
  | .constant answer => answer
  | .depth base => .ok (base - node.history.length.toFloat)
  | .spelling factor start modulus unit =>
    .ok ((spellingValue factor start modulus (features.digits node.program)).toFloat / unit)
  | .work => .ok (features.work node.program)

/-- The answer to the call of the given number, counted from zero. -/
def answer (m : CostModel κ) (features : Features κ P) (call : Nat) (node : Node P T) :
    Except String Float :=
  match m.script[call]? with
  | some answer => answer
  | none =>
    match m.table.find? fun entry => features.isMeant entry.1 node.program with
    | some entry => entry.2
    | none => ruleAnswer features m.rule node

/-- The evaluator of a model; its memory is the number of its calls. -/
def evaluator (m : CostModel κ) (features : Features κ P) : Evaluator P T Nat :=
  fun node call =>
    (match m.answer features call node with
      | .ok cost => .ok cost
      | .error text => .error (.ofCause (.reported text)), call + 1)

end CostModel

/-- The same evaluator, keeping a log of the chains of the nodes it was asked for, newest first. -/
def Evaluator.logged {P T ε : Type} (evaluator : Evaluator P T ε) :
    Evaluator P T (ε × List (List T)) :=
  fun node (memory, log) =>
    let (answer, memory) := evaluator node memory
    (answer, memory, node.history :: log)

end LoopTuner
