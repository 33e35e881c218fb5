/-!
Loop-nest kernels: operations in order, each a perfect nest of loops. A tiled loop runs as two loops,
one over the tiles and one inside a tile; `Nest.schedule` lists the loops as they are executed.
-/

namespace LoopTuner

/-- Coarse class of an operation, which bounds how its loops may be reordered. -/
inductive OpClass where
  /-- Every loop is parallel. -/
  | elementwise
  /-- The reduction loop can move freely. -/
  | contraction
  /-- The reduction loop stays innermost. -/
  | reduction
  deriving DecidableEq, Repr

namespace OpClass

def all : List OpClass := [elementwise, contraction, reduction]

def name : OpClass → String
  | elementwise => "elementwise"
  | contraction => "contraction"
  | reduction => "reduction"

/-- The class with this name. -/
def ofLabel? (label : String) : Option OpClass := all.find? fun c => c.name == label

@[simp] theorem ofLabel?_name (c : OpClass) : ofLabel? c.name = some c := by
  cases c <;> decide

/-- Whether the last declared loop of the operation is a reduction. -/
def hasReduction : OpClass → Bool
  | elementwise => false
  | contraction | reduction => true

end OpClass

/-- A loop over `0..extent`, with what the steps so far have decided about it. -/
structure Loop where
  name : String
  extent : Nat
  /-- Whether the iterations accumulate into the same output. -/
  reduction : Bool
  tile : Option Nat
  parallel : Bool
  vectorWidth : Option Nat
  deriving DecidableEq, Repr

namespace Loop

/-- A loop as it is declared. -/
def declare (name : String) (extent : Nat) (reduction : Bool) : Loop where
  name := name
  extent := extent
  reduction := reduction
  tile := none
  parallel := false
  vectorWidth := none

def isTiled (l : Loop) : Bool := l.tile.isSome

end Loop

/-- A loop of the schedule. The point loop of a tiled loop runs inside a tile. -/
structure ScheduledLoop where
  source : Loop
  point : Bool
  deriving DecidableEq, Repr

/-- Number of iterations. -/
def ScheduledLoop.tripCount (s : ScheduledLoop) : Nat :=
  match s.source.tile with
  | some tile => if s.point then tile else s.source.extent / tile
  | none => s.source.extent

/-- One operation, a perfect nest around a computation. The loops are listed from the outside in. -/
structure Nest where
  id : String
  opClass : OpClass
  loops : List Loop
  deriving DecidableEq, Repr

namespace Nest

/-- The loops in execution order: all of them by tiles, then the point loops of the tiled ones. -/
def schedule (n : Nest) : List ScheduledLoop :=
  n.loops.map (⟨·, false⟩) ++ (n.loops.filter Loop.isTiled).map (⟨·, true⟩)

def innermost? (n : Nest) : Option ScheduledLoop := n.schedule.getLast?

def isVectorized (n : Nest) : Bool := n.loops.any (·.vectorWidth.isSome)

end Nest

structure Kernel where
  nests : List Nest
  deriving DecidableEq, Repr

end LoopTuner
