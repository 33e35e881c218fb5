import LoopTuner.Search.Descent
import LoopTuner.Search.Expander

/-!
What a search is told, and what it counts.
-/

namespace LoopTuner

/-- How a search spends its rounds. -/
inductive Strategy where
  /-- Each round walks down the tree, expands and measures one node, and backs up its cost. -/
  | treeSearch
  /-- Each round takes the cheapest measured node and measures all of its children. -/
  | bestFirst
  deriving DecidableEq, Repr

/-- The float nearest to the square root of two. -/
def defaultExploration : Float := Float.ofBits 0x3FF6A09E667F3BCD

structure Config where
  exploration : Float
  /-- Maximum number of children per expansion in tree search. -/
  cap : Nat
  seed : UInt64
  strategy : Strategy
  deriving DecidableEq

namespace Config

def standard : Config := ⟨defaultExploration, defaultCap, 0, .treeSearch⟩

/-- Rejects an exploration factor that is negative or not finite, and a cap of zero. -/
def validate (c : Config) : Except Error Unit :=
  if !c.exploration.isFinite || c.exploration < 0 then
    .error (.ofCause (.invalidExploration c.exploration))
  else if c.cap = 0 then .error (.ofCause .zeroBranching)
  else .ok ()

def descent (c : Config) : Descent := ⟨c.exploration⟩

end Config

/-- Counters of one growth of a tree. -/
structure Statistics where
  /-- Completed rounds. -/
  rounds : Nat
  /-- Nodes whose candidates were generated. -/
  expansions : Nat
  /-- Size of the tree. -/
  nodes : Nat
  /-- Calls of the evaluator. -/
  measurements : Nat
  /-- Calls that ended in infinite cost for want of a usable one. -/
  failed : Nat
  deriving DecidableEq, Repr

def Statistics.zero : Statistics := ⟨0, 0, 0, 0, 0⟩

end LoopTuner
