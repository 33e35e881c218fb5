import LoopTuner.Search.BestFirst
import LoopTuner.Search.TreeSearch

/-!
Running a search: on a tree of the caller, which then holds everything that was found, or on a tree of
its own, of which only the best node is kept.
-/

namespace LoopTuner.Search

variable {P T O σ ε : Type}

/-- Grows a tree for a number of rounds; the result is the number of the best node. The counters are
taken over unless a violation ends the growth. -/
def grow (s : Search P T O σ ε) (tree : Tree P T) (classification : Classification O)
    (rounds : Nat) : Except Failure Nat × Tree P T × Search P T O σ ε :=
  let start : Growth P T O σ ε := ⟨s.restart, tree⟩
  let (result, g) := match s.config.strategy with
    | .treeSearch => start.treeSearch classification rounds
    | .bestFirst => start.bestFirst classification rounds
  match result with
  | .error (.violation v) => (.error (.violation v), g.tree, g.search)
  | result => (result, g.tree, g.search.close g.tree.size)

/-- Searches from a root, and returns the best node without its tree. -/
def run (s : Search P T O σ ε) (root : Node P T) (classification : Classification O)
    (rounds : Nat) : Except Failure (Node P T) × Search P T O σ ε :=
  match s.grow (.ofRoot root) classification rounds with
  | (.error f, _, s) => (.error f, s)
  | (.ok best, tree, s) =>
    match tree.detach best with
    | .error v => (.error (.violation v), s)
    | .ok node => (.ok node, s)

end LoopTuner.Search
