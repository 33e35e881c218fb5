import LoopTuner.Search.Tree

/-!
The way down a search tree. A child is promising if its average cost is low or if it was visited
rarely in comparison with its parent; `Descent.select` follows the most promising children to a node
that can still be expanded or has no children.
-/

namespace LoopTuner

/-- The weight of rarity against average cost. -/
structure Descent where
  exploration : Float
  deriving DecidableEq

namespace Descent

variable {P T : Type}

/-- The score of a child as seen from its parent, lower is more promising. -/
def score (d : Descent) (parent child : Node P T) : Float :=
  child.average -
    d.exploration * Float.sqrt (Float.log parent.visits.toFloat / (max 1 child.visits).toFloat)

/-- The score of node `i` below `parent`. -/
def scoreOf (d : Descent) (t : Tree P T) (parent : Node P T) (i : Nat) : Float :=
  match t.node? i with
  | some child => d.score parent child
  | none => Cost.infinity

/-- The better of the best node so far, with its score, and a further one. -/
def better (d : Descent) (t : Tree P T) (parent : Node P T) (best : Nat × Float) (i : Nat) :
    Nat × Float :=
  let score := d.scoreOf t parent i
  if score < best.2 then (i, score) else best

/-- The first node of least score among `first` and the others. -/
def bestScored (d : Descent) (t : Tree P T) (parent : Node P T) (first : Nat) (others : List Nat) :
    Nat :=
  (others.foldl (d.better t parent) (first, d.scoreOf t parent first)).1

/-- Walks down from `i`, at most `fuel` steps. -/
def walk (d : Descent) (t : Tree P T) : Nat → Nat → Except Violation Nat
  | 0, i => .ok i
  | fuel + 1, i =>
    match t.node? i with
    | none => .error (.noNode i)
    | some n =>
      if n.expanded then
        match n.children.toList with
        | [] => .ok i
        | first :: others =>
          if n.isVisited then d.walk t fuel (d.bestScored t n first others)
          else .error (.unvisited i)
      else .ok i

/-- Walks down from `i` to a node that is not expanded or has no children. -/
def select (d : Descent) (t : Tree P T) (i : Nat) : Except Violation Nat := d.walk t (t.size + 1) i

end Descent

end LoopTuner
