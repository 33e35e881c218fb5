import LoopTuner.Cost
import LoopTuner.Error

/-!
Nodes of a search tree: a program, the chain of transformations that led to it, and what the search
has learned about it.
-/

namespace LoopTuner

/-- A step that a search may not take in its present state. -/
inductive Violation where
  | noNode (index : Nat)
  | wrongParent (expected : Nat) (given : Option Nat)
  | wrongStage (expected given : Nat)
  | alreadyEvaluated (cost : Float)
  | unvisited (index : Nat)
  deriving DecidableEq

/-- Position in a pipeline: the children of a node at stage `s` apply the `s`-th kind. -/
abbrev Stage := Nat

/-- A program in a search tree. -/
structure Node (P T : Type) where
  parent : Option Nat
  children : Array Nat
  stage : Stage
  /-- Position among the children of the parent. -/
  siblingIndex : Nat
  /-- Number of costs that were backed up through this node. -/
  visits : Nat
  /-- Sum of these costs. -/
  accumulated : Tally
  expanded : Bool
  /-- Measured cost of this very program. -/
  evaluation : Option Float
  program : P
  transformation : Option T
  /-- The transformations from the root on. -/
  history : List T
  deriving DecidableEq

namespace Node

variable {P T : Type}

/-- A node without children, visits or evaluation. -/
def fresh (parent : Option Nat) (stage : Stage) (siblingIndex : Nat) (program : P) : Node P T where
  parent := parent
  children := #[]
  stage := stage
  siblingIndex := siblingIndex
  visits := 0
  accumulated := .empty
  expanded := false
  evaluation := none
  program := program
  transformation := none
  history := []

def root (program : P) (stage : Stage) : Node P T := fresh none stage 0 program

/-- The same node, reached by a transformation at the end of a chain. -/
def reachedBy (n : Node P T) (transformation : T) (history : List T) : Node P T :=
  { n with transformation := some transformation, history := history }

def isVisited (n : Node P T) : Bool := decide (0 < n.visits)

/-- Mean of the costs backed up through the node, zero before the first one. -/
def average (n : Node P T) : Float := n.accumulated.mean n.visits

/-- The place of the average in the total order of costs. A clash ranks below every float. -/
def rank (n : Node P T) : UInt64 := if n.accumulated.clashed then 0 else Cost.rank n.average

/-- Adds one backed-up cost. -/
def record (n : Node P T) (cost : Float) : Node P T :=
  { n with visits := n.visits + 1, accumulated := n.accumulated.add cost }

def markExpanded (n : Node P T) : Node P T := { n with expanded := true }

/-- Stores the measured cost; the first measurement is final. -/
def setEvaluation (n : Node P T) (cost : Float) : Except Violation (Node P T) :=
  match n.evaluation with
  | some earlier => .error (.alreadyEvaluated earlier)
  | none => .ok { n with evaluation := some cost }

/-- The node with one more child. -/
def adopt (n : Node P T) (child : Nat) : Node P T := { n with children := n.children.push child }

/-- The node outside of any tree. -/
def detached (n : Node P T) : Node P T := { n with parent := none, children := #[] }

end Node

end LoopTuner
