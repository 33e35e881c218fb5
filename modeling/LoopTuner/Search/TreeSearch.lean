import LoopTuner.Search.Growth

/-!
Tree search. Every round walks down to a promising node, expands it, measures it, and adds its cost to
the nodes on the way. The result is the cheapest node on the path of least averages.
-/

namespace LoopTuner.Growth

variable {P T O σ ε : Type}

/-- Expands a selected node, unless it is past the last stage. -/
def expandSelected (g : Growth P T O σ ε) (classification : Classification O) (i : Nat) :
    Except Failure (List Nat) × Growth P T O σ ε :=
  match g.tree.node? i with
  | none => (.error (.violation (.noNode i)), g)
  | some node =>
    if node.stage ≤ g.search.expander.lastStage then g.expand classification i node
    else (.ok [], g)

/-- One round of tree search. -/
def searchRound (classification : Classification O) (round : Nat) (g : Growth P T O σ ε) :
    Except Failure Unit × Growth P T O σ ε :=
  match g.search.config.descent.select g.tree Tree.rootIndex with
  | .error v => (.error (.violation v), g)
  | .ok i =>
    match g.expandSelected classification i with
    | (.error f, g) => (.error (f.within (.searchRound round)), g)
    | (.ok _, g) =>
      match g.measure i with
      | (.error f, g) => (.error f, g)
      | (.ok cost, g) => g.backup i cost

/-- The rounds from the given number on. -/
def searchRounds (classification : Classification O) :
    Nat → Nat → Growth P T O σ ε → Except Failure Unit × Growth P T O σ ε
  | 0, _, g => (.ok (), g)
  | count + 1, round, g =>
    match g.searchRound classification round with
    | (.error f, g) => (.error f, g)
    | (.ok (), g) => searchRounds classification count (round + 1) g

/-- Follows the least averages down from node `i`, measuring the nodes on the way, and keeps the
cheapest; among equals the shallower one. -/
def extractFrom : Nat → Nat → Float → Nat → Growth P T O σ ε →
    Except Failure Nat × Growth P T O σ ε
  | 0, best, _, _, g => (.ok best, g)
  | fuel + 1, best, bestCost, i, g =>
    match g.tree.bestChild i with
    | .error v => (.error (.violation v), g)
    | .ok none => (.ok best, g)
    | .ok (some child) =>
      match g.measure child with
      | (.error f, g) => (.error f, g)
      | (.ok cost, g) =>
        if cost < bestCost then extractFrom fuel child cost child g
        else extractFrom fuel best bestCost child g

/-- The cheapest node on the path of least averages from the root to a leaf. -/
def extractBest (g : Growth P T O σ ε) : Except Failure Nat × Growth P T O σ ε :=
  match g.measure Tree.rootIndex with
  | (.error f, g) => (.error f, g)
  | (.ok cost, g) => extractFrom g.tree.size Tree.rootIndex cost Tree.rootIndex g

def treeSearch (classification : Classification O) (rounds : Nat) (g : Growth P T O σ ε) :
    Except Failure Nat × Growth P T O σ ε :=
  match searchRounds classification rounds 0 g with
  | (.error f, g) => (.error f, g)
  | (.ok (), g) => g.extractBest

end LoopTuner.Growth
