import LoopTuner.Search.Config
import LoopTuner.Search.Meter

/-!
A search at work on a tree, and the moves that both strategies are made of: measuring a node of the
tree and expanding one.
-/

namespace LoopTuner

/-- A configured search with its expander, its meter and the counters of its last growth. -/
structure Search (P T O σ ε : Type) where
  config : Config
  expander : Expander P T O σ
  meter : Meter P T ε
  statistics : Statistics

/-- A search and the tree that it grows. -/
structure Growth (P T O σ ε : Type) where
  search : Search P T O σ ε
  tree : Tree P T

namespace Search

variable {P T O σ ε : Type}

def create (config : Config) (pipeline : Pipeline P T O σ) (memory : σ)
    (evaluator : Evaluator P T ε) (evaluatorMemory : ε) : Except Error (Search P T O σ ε) :=
  match config.validate with
  | .error e => .error e
  | .ok () =>
    match Expander.create pipeline config.cap config.seed memory with
    | .error e => .error e
    | .ok expander => .ok ⟨config, expander, .create evaluator evaluatorMemory, .zero⟩

/-- The search before a growth: counters at zero and the random stream at its start. -/
def restart (s : Search P T O σ ε) : Search P T O σ ε where
  config := s.config
  expander := s.expander.reseed s.config.seed
  meter := s.meter.reset
  statistics := .zero

def countExpansion (s : Search P T O σ ε) : Search P T O σ ε :=
  { s with statistics := { s.statistics with expansions := s.statistics.expansions + 1 } }

def countRound (s : Search P T O σ ε) : Search P T O σ ε :=
  { s with statistics := { s.statistics with rounds := s.statistics.rounds + 1 } }

/-- The counters that are taken over at the end of a growth. -/
def close (s : Search P T O σ ε) (nodes : Nat) : Search P T O σ ε :=
  { s with
    statistics := { s.statistics with
      nodes := nodes
      measurements := s.meter.measured
      failed := s.meter.failed } }

end Search

namespace Growth

variable {P T O σ ε : Type}

/-- Measures node `i` of the tree. -/
def measure (g : Growth P T O σ ε) (i : Nat) : Except Failure Float × Growth P T O σ ε :=
  match g.tree.node? i with
  | none => (.error (.violation (.noNode i)), g)
  | some n =>
    let (cost, n, meter) := g.search.meter.measure n
    (.ok cost, ⟨{ g.search with meter := meter }, g.tree.modify i fun _ => n⟩)

/-- Expands node `i` of the tree. The expansion counts if the node was not expanded before. -/
def expand (g : Growth P T O σ ε) (classification : Classification O) (i : Nat) (node : Node P T) :
    Except Failure (List Nat) × Growth P T O σ ε :=
  let search := if node.expanded then g.search else g.search.countExpansion
  let (result, tree, expander) := search.expander.expand g.tree i classification
  (result, ⟨{ search with expander := expander }, tree⟩)

/-- Adds a cost to node `i` and its ancestors, which completes the round. -/
def backup (g : Growth P T O σ ε) (i : Nat) (cost : Float) :
    Except Failure Unit × Growth P T O σ ε :=
  match g.tree.backup i cost with
  | .error v => (.error (.violation v), g)
  | .ok tree => (.ok (), ⟨g.search.countRound, tree⟩)

end Growth

end LoopTuner
