import LoopTuner.Search.Growth

/-!
Best-first sweep. Every round takes the cheapest node from a queue, measures all of its candidates and
puts them into the tree and the queue. The queue hands out a greatest entry, and its order is reversed:
an entry of lower cost is greater, and among equal costs an earlier one.
-/

namespace LoopTuner

/-- A measured node that waits for its expansion. -/
structure Queued where
  cost : Float
  /-- The number of entries that were put into the queue before. -/
  order : Nat
  index : Nat
  deriving DecidableEq

namespace Queued

/-- The order of the queue. -/
def cmp (a b : Queued) : Ordering := (Cost.cmp b.cost a.cost).then (compare b.order a.order)

/-- Takes a greatest entry out of a queue, which has the given one besides those in the list. -/
def popFrom (greatest : Queued) : List Queued → Queued × List Queued
  | [] => (greatest, [])
  | e :: rest =>
    if greatest.cmp e = .lt then
      let (top, others) := popFrom e rest
      (top, greatest :: others)
    else
      let (top, others) := popFrom greatest rest
      (top, e :: others)

/-- Takes a greatest entry out of the queue. -/
def pop? : List Queued → Option (Queued × List Queued)
  | [] => none
  | e :: rest => some (popFrom e rest)

end Queued

/-- The state of a sweep: the queue with the order of its last entry, and the best node so far with
its cost. -/
structure Sweep where
  queue : List Queued
  pushed : Nat
  best : Nat
  bestCost : Float
  deriving DecidableEq

namespace Sweep

/-- The sweep with only the root in its queue. -/
def start (cost : Float) : Sweep := ⟨[⟨cost, 0, Tree.rootIndex⟩], 0, Tree.rootIndex, cost⟩

/-- Compares a new node with the best one and puts it into the queue. -/
def push (s : Sweep) (cost : Float) (index : Nat) : Sweep where
  queue := ⟨cost, s.pushed + 1, index⟩ :: s.queue
  pushed := s.pushed + 1
  best := if cost < s.bestCost then index else s.best
  bestCost := if cost < s.bestCost then cost else s.bestCost

def pushAll (s : Sweep) : List (Float × Nat) → Sweep
  | [] => s
  | (cost, index) :: rest => (s.push cost index).pushAll rest

end Sweep

namespace Growth

variable {P T O σ ε : Type}

/-- Measured nodes in ascending order of cost; equal costs keep their order. -/
def sortMeasured (measured : List (Float × Node P T)) : List (Float × Node P T) :=
  measured.mergeSort fun a b => Cost.le a.1 b.1

/-- Expands the node of an entry that was taken from the queue. All candidates are kept, and they are
added to the tree and to the queue cheapest first. -/
def sweepRound (classification : Classification O) (round : Nat) (i : Nat) (s : Sweep)
    (g : Growth P T O σ ε) : Except Failure Sweep × Growth P T O σ ε :=
  match g.tree.node? i with
  | none => (.error (.violation (.noNode i)), g)
  | some node =>
    let search := if node.expanded then g.search else g.search.countExpansion
    match search.expander.candidates node i classification with
    | (.error e, expander) =>
      (.error (.error (e.within (.bestFirstLevel round))),
        ⟨{ search with expander := expander }, g.tree⟩)
    | (.ok candidates, expander) =>
      let (measured, meter) := search.meter.measureAll (Candidate.toNodes candidates node i)
      let sorted := sortMeasured measured
      let search := { search with expander := expander, meter := meter }
      match (g.tree.modify i Node.markExpanded).addChildren i (sorted.map (·.2)) with
      | (.error v, tree) => (.error (.violation v), ⟨search, tree⟩)
      | (.ok indices, tree) =>
        (.ok (s.pushAll ((sorted.map (·.1)).zip indices)), ⟨search.countRound, tree⟩)

/-- The rounds from the given number on, until the queue is empty. -/
def sweepRounds (classification : Classification O) :
    Nat → Nat → Sweep → Growth P T O σ ε → Except Failure Sweep × Growth P T O σ ε
  | 0, _, s, g => (.ok s, g)
  | count + 1, round, s, g =>
    match Queued.pop? s.queue with
    | none => (.ok s, g)
    | some (entry, queue) =>
      match g.sweepRound classification round entry.index { s with queue := queue } with
      | (.error f, g) => (.error f, g)
      | (.ok s, g) => sweepRounds classification count (round + 1) s g

def bestFirst (classification : Classification O) (rounds : Nat) (g : Growth P T O σ ε) :
    Except Failure Nat × Growth P T O σ ε :=
  match g.measure Tree.rootIndex with
  | (.error f, g) => (.error f, g)
  | (.ok cost, g) =>
    match sweepRounds classification rounds 0 (.start cost) g with
    | (.error f, g) => (.error f, g)
    | (.ok s, g) => (.ok s.best, g)

end Growth

end LoopTuner
