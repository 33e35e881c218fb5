import LoopTuner.Search.CostModel
import LoopTuner.Search.Pipeline

/-!
The simplest search space: a program is a list of choices, and a transformation adds one more choice.
Its generators propose the choices below a width that may depend on the program.
-/

namespace LoopTuner.Choice

abbrev Program := List Nat

abbrev ChoiceNode := Node Program Nat

/-- How many choices a generator offers. -/
structure Fan where
  width : Nat
  /-- With a modulus, the width varies with the program and the stage. -/
  modulus : Option Nat
  /-- Programs with a width of their own, or for which the generator fails. -/
  exceptions : List (Program × Except String Nat)

namespace Fan

def widthAt (f : Fan) (program : Program) (stage : Stage) : Except String Nat :=
  match f.exceptions.find? fun e => e.1 == program with
  | some e => e.2
  | none =>
    match f.modulus with
    | some m => .ok ((f.width + program.foldl (· + ·) 0 + stage) % m)
    | none => .ok f.width

def candidates (f : Fan) (node : ChoiceNode) (stage : Stage) :
    Except Error (List (Candidate Program Nat)) :=
  match f.widthAt node.program stage with
  | .error text => .error (.ofCause (.reported text))
  | .ok width =>
    .ok ((List.range width).map fun choice => .extending node (node.program ++ [choice]) choice)

end Fan

def phase {σ : Type} (kind : Kind) (fan : Fan) : Phase Program Nat Unit σ :=
  ⟨kind, Generator.pure fun node stage _ => fan.candidates node stage⟩

/-- The last choice decides the work, and a program without choices is the most expensive. -/
def features : Features Program Program where
  isMeant key program := key == program
  digits program := program
  work program :=
    match program.getLast? with
    | some choice => choice.toFloat + 1
    | none => 100

end LoopTuner.Choice
