import LoopTuner.Search.Node

/-!
Measuring. A program is measured at most once: its cost is stored on its node. A measurement that
fails, or that yields no usable cost, is stored as infinite cost.
-/

namespace LoopTuner

/-- Measures the program of a node. An evaluator may keep a memory from call to call. -/
abbrev Evaluator (P T ε : Type) := Node P T → ε → Except Error Float × ε

/-- An evaluator without memory. -/
def Evaluator.pure {P T ε : Type} (cost : Node P T → Except Error Float) : Evaluator P T ε :=
  fun node memory => (cost node, memory)

/-- An evaluator with its memory, and the number of its calls and of those that failed. -/
structure Meter (P T ε : Type) where
  evaluator : Evaluator P T ε
  memory : ε
  measured : Nat
  failed : Nat

namespace Meter

variable {P T ε : Type}

def create (evaluator : Evaluator P T ε) (memory : ε) : Meter P T ε := ⟨evaluator, memory, 0, 0⟩

/-- Starts counting anew. -/
def reset (m : Meter P T ε) : Meter P T ε := { m with measured := 0, failed := 0 }

/-- The usable cost of an answer, if it has one. -/
def usable? : Except Error Float → Option Float
  | .ok cost => if Cost.isUsable cost then some cost else none
  | .error _ => none

/-- The cost of a node: the stored one, or else the result of measuring it, which is stored. -/
def measure (m : Meter P T ε) (n : Node P T) : Float × Node P T × Meter P T ε :=
  match n.evaluation with
  | some cost => (cost, n, m)
  | none =>
    let (answer, memory) := m.evaluator n m.memory
    match usable? answer with
    | some cost =>
      (cost, { n with evaluation := some cost },
        { m with memory := memory, measured := m.measured + 1 })
    | none =>
      (Cost.infinity, { n with evaluation := some Cost.infinity },
        { m with memory := memory, measured := m.measured + 1, failed := m.failed + 1 })

/-- Measures the nodes in order. -/
def measureAll (m : Meter P T ε) : List (Node P T) → List (Float × Node P T) × Meter P T ε
  | [] => ([], m)
  | n :: rest =>
    let (cost, n, m) := m.measure n
    let (others, m) := m.measureAll rest
    ((cost, n) :: others, m)

end Meter

end LoopTuner
