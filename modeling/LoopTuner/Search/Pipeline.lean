import LoopTuner.Search.Classification
import LoopTuner.Search.Node

/-!
Pipelines: the phases of a search in order, each with the kind of its transformations and a generator
that proposes them. A generator may keep a memory from call to call; one without memory is `pure`.
-/

namespace LoopTuner

/-- A transformed program that a generator proposes. -/
structure Candidate (P T : Type) where
  program : P
  transformation : T
  /-- The chain from the root, this transformation included. -/
  history : List T
  deriving DecidableEq

/-- The candidate that continues the chain of a node. -/
def Candidate.extending {P T : Type} (node : Node P T) (program : P) (transformation : T) :
    Candidate P T :=
  ⟨program, transformation, node.history ++ [transformation]⟩

/-- Lists the programs one transformation away from a node. No candidates at all make a leaf. -/
abbrev Generator (P T O σ : Type) :=
  Node P T → Stage → Classification O → σ → Except Error (List (Candidate P T)) × σ

/-- A generator without memory. -/
def Generator.pure {P T O σ : Type}
    (propose : Node P T → Stage → Classification O → Except Error (List (Candidate P T))) :
    Generator P T O σ :=
  fun node stage classification memory => (propose node stage classification, memory)

/-- One phase of a search. -/
structure Phase (P T O σ : Type) where
  kind : Kind
  propose : Generator P T O σ

/-- The phases in order. Those at stage `s` apply to the nodes of stage `s`. -/
abbrev Pipeline (P T O σ : Type) := List (Phase P T O σ)

namespace Pipeline

variable {P T O σ : Type}

def kinds (p : Pipeline P T O σ) : List Kind := p.map Phase.kind

/-- The last stage that has a phase. -/
def lastStage? (p : Pipeline P T O σ) : Option Stage :=
  if p.isEmpty then none else some (p.length - 1)

end Pipeline

end LoopTuner
